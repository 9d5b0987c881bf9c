/-
The instructions and literals of lowered code. Every step of lowering keeps what
is said of them (`Tidy`).
-/
import Mathlib.Data.List.Nodup
import StackCompiler.Proofs.BuildWellFormed
import StackCompiler.Proofs.Inlining
import StackCompiler.Proofs.Layout
import StackCompiler.Proofs.LineShapes

namespace StackCompiler.Graph

/-- The nodes of some blocks have machine code. -/
def Codable (g : Graph) (blocks : List BlockId) : Prop :=
  ∀ b ∈ blocks, ∀ n ∈ (g.block b).body, (g.node n).op.Codable (g.node n).kind

variable {g g' : Graph}

theorem Translation.codable {m entries live p s} (T : Translation m entries g p s live) : g.Codable g.reachable := by
  intro b hb n hn
  obtain ⟨before, after, hbo⟩ := List.append_of_mem hn
  exact ((T.blockValid hb).1.nodes before n after hbo).codable

theorem Change.Turns.codable {c : Change} (h : c.Turns g g') (hp : g.Proper) (hg : g.Codable g.reachable) :
    g'.Codable g'.reachable := by
  intro b hb n hn
  have hb := h.reachable hp hb
  obtain ⟨hn, hk⟩ := h.mem_body hb hn
  have hno := h.node hb hn hk
  generalize g'.node n = n' at hno ⊢
  cases hno with
  | same => exact (hg b hb n hn).mapInputs _
  | folded => trivial

theorem Refills.codable {b f blocks} (h : Refills g g' b f) (hg : g.InOrder blocks) (hc : g.Codable blocks) :
    g'.Codable blocks := by
  intro k hk n hn
  rcases h.mem_body hg hk hn with ⟨hn, hno⟩ | ⟨-, hge, hlt⟩
  · rw [hno]
    exact (hc k hk n hn).mapInputs _
  · exact (h.fresh hge hlt).codable

/-- No pass makes a node without machine code, with any options and provider. -/
theorem optimize_codable (hp : g.Proper) (hpl : g.Placed) (h : g.Codable g.reachable) (options : OptimizerOptions)
    (provider : MethodProvider) :
    (g.optimize options provider).1.Codable (g.optimize options provider).1.reachable :=
  optimize_keeps hp hpl options provider (fun hs hc b hb => hc b (hs b hb)) Refills.codable Change.Turns.codable h

end StackCompiler.Graph

namespace StackCompiler.Linear

open List

/-- An instruction refers to literals below a number only. -/
def Insn.Within (n : Nat) : Insn → Prop
  | .literal _ id => id < n
  | _ => True

theorem Insn.Within.mono {n n'} (h : n ≤ n') {i : Insn} (hi : i.Within n) : i.Within n' := by
  cases i with
  | literal dst id => exact Nat.lt_of_lt_of_le hi h
  | _ => trivial

/-- An instruction that a graph may be lowered to when there are `n` literals. -/
def Insn.Lowered (g : Graph) (n : Nat) (i : Insn) : Prop := i.Within n ∧ (g.Codable g.reachable → i.Codable)

theorem Insn.Lowered.mono {g n n'} (h : n ≤ n') {i : Insn} (hi : i.Lowered g n) : i.Lowered g n' :=
  ⟨hi.1.mono h, hi.2⟩

/-- A handler, if there is one, is the start of a block of the graph. -/
def Source.Starts (src : Source) (handler : Option Nat) : Prop := ∀ h, handler = some h → ∃ b, h = src.start b

/-- A block that a graph may be lowered to when there are `n` literals. -/
structure Block.Lowered (src : Source) (n : Nat) (b : Block) : Prop where
  insns : ∀ i ∈ b.insns, i.Lowered src.graph n
  handler : src.Starts b.handler

/-- The literals are different values other than null, instructions refer to them, and exceptions go
to starts of blocks. -/
structure Lowering.Pooled (src : Source) (s : Lowering) : Prop where
  distinct : s.literals.toList.Nodup
  proper : ∀ l ∈ s.literals, ∃ v, v ≠ .null ∧ l = .ofValue v
  code : ∀ i ∈ s.code, i.Lowered src.graph s.literals.size
  handler : src.Starts s.handler
  blocks : ∀ b ∈ s.blocks, b.Lowered src s.literals.size

namespace Lower

/-- With at least `n` literals a step keeps the pool in order; what it returns may depend on their number. -/
def Tidy {α : Type} (src : Source) (n : Nat) (x : Lower α) (post : Nat → α → Prop) : Prop :=
  ∀ s : Lowering, s.Pooled src → n ≤ s.literals.size →
    (x s).2.Pooled src ∧ s.literals.size ≤ (x s).2.literals.size ∧ post (x s).2.literals.size (x s).1

/-- A result about which nothing needs to be known. -/
def anything {α : Type} : Nat → α → Prop := fun _ _ => True

/-- Instructions that a graph may be lowered to. -/
def allLowered (g : Graph) (n : Nat) (insns : List Insn) : Prop := ∀ i ∈ insns, i.Lowered g n

section
variable {α β : Type} {src : Source} {n : Nat} {x : Lower α} {f : α → Lower β} {P : Nat → α → Prop}
  {Q : Nat → β → Prop}

theorem Tidy.pure {a} (h : ∀ n', n ≤ n' → P n' a) : Tidy src n (Pure.pure a) P :=
  fun _ hs hn => ⟨hs, Nat.le_refl _, h _ hn⟩

theorem Tidy.bind (hx : Tidy src n x P) (hf : ∀ n' a, n ≤ n' → P n' a → Tidy src n' (f a) Q) :
    Tidy src n (x >>= f) Q := by
  intro s hs hn
  obtain ⟨hs₁, hl₁, hp₁⟩ := hx s hs hn
  obtain ⟨hs₂, hl₂, hp₂⟩ := hf _ _ (Nat.le_trans hn hl₁) hp₁ _ hs₁ (Nat.le_refl _)
  exact ⟨hs₂, Nat.le_trans hl₁ hl₂, hp₂⟩

theorem Tidy.map (hx : Tidy src n x P) (g : α → β) : Tidy src n (g <$> x) anything :=
  fun s hs hn => ⟨(hx s hs hn).1, (hx s hs hn).2.1, trivial⟩

theorem Tidy.of_same (h : ∀ s, (x s).2.literals = s.literals ∧ (x s).2.code = s.code ∧
    (x s).2.handler = s.handler ∧ (x s).2.blocks = s.blocks) : Tidy src n x anything := by
  intro s hs hn
  obtain ⟨hl, hc, hh, hbl⟩ := h s
  refine ⟨⟨?_, ?_, ?_, ?_, ?_⟩, Nat.le_of_eq (by rw [hl]), trivial⟩
  · rw [hl]
    exact hs.distinct
  · rw [hl]
    exact hs.proper
  · rw [hc, hl]
    exact hs.code
  · rw [hh]
    exact hs.handler
  · rw [hbl, hl]
    exact hs.blocks

end

section
variable {src : Source} {n : Nat}

/-! ## Names and literals -/

theorem tidy_newVar (kind : Kind) : Tidy src n (newVar kind) anything := .of_same fun _ => ⟨rfl, rfl, rfl, rfl⟩

theorem tidy_var (id : NodeId) : Tidy src n (var src id) anything := by
  refine .of_same fun s => ?_
  unfold var
  split <;> exact ⟨rfl, rfl, rfl, rfl⟩

theorem tidy_varsOf (ids : List NodeId) : Tidy src n (varsOf src ids) fun _ vs => vs.length = ids.length := by
  unfold varsOf
  induction ids generalizing n with
  | nil => exact .pure fun _ _ => rfl
  | cons id rest ih =>
    rw [mapM_cons]
    refine (tidy_var id).bind fun _ _ _ _ => ih.bind fun _ _ _ hl => .pure fun _ _ => ?_
    exact congrArg Nat.succ hl

theorem tidy_literal {v} (hv : v ≠ .null) : Tidy src n (literal v) fun n' id => id < n' := by
  intro s hs hn
  unfold literal Method.intern
  dsimp only
  cases hf : s.literals.idxOf? (.ofValue v) with
  | some id =>
    rw [Array.idxOf?_eq_map_finIdxOf?_val] at hf
    obtain ⟨j, -, rfl⟩ := Option.map_eq_some_iff.mp hf
    exact ⟨hs, Nat.le_refl _, j.isLt⟩
  | none =>
    have hne : Literal.ofValue v ∉ s.literals.toList := fun h =>
      Array.idxOf?_eq_none_iff.mp hf (Array.mem_toList_iff.mp h)
    have hle : s.literals.size ≤ (s.literals.push (.ofValue v)).size := by
      rw [Array.size_push]
      exact Nat.le_succ _
    refine ⟨⟨?_, ?_, ?_, hs.handler, ?_⟩, hle, ?_⟩
    · show (s.literals.push _).toList.Nodup
      rw [Array.toList_push]
      exact hs.distinct.append (nodup_singleton _) (disjoint_singleton.mpr hne)
    · intro l hl
      rcases Array.mem_push.mp hl with hl | rfl
      · exact hs.proper l hl
      · exact ⟨v, hv, rfl⟩
    · exact fun i hi => (hs.code i hi).mono hle
    · exact fun b hb => ⟨fun i hi => ((hs.blocks b hb).insns i hi).mono hle, (hs.blocks b hb).handler⟩
    · show s.literals.size < (s.literals.push _).size
      rw [Array.size_push]
      exact Nat.lt_succ_self _

theorem tidy_constant (dst : Var) (v : Value) :
    Tidy src n (constant dst v) fun n' i => i.Lowered src.graph n' := by
  unfold constant
  dsimp only
  split
  next hm => exact .pure fun _ _ => ⟨trivial, fun _ => hm.2⟩
  next hm =>
    have hv : v ≠ .null := by
      rintro rfl
      exact hm ⟨.inr rfl, rfl⟩
    refine (tidy_literal hv).bind fun n' id _ hid => .pure fun n'' hle => ?_
    exact ⟨Nat.lt_of_lt_of_le hid hle, fun _ => trivial⟩

/-! ## Blocks -/

theorem tidy_emit {insns} (h : allLowered src.graph n insns) : Tidy src n (emit insns) anything := by
  refine fun s hs hn => ⟨⟨hs.distinct, hs.proper, fun i hi => ?_, hs.handler, hs.blocks⟩, Nat.le_refl _, trivial⟩
  have hi : i ∈ (s.code ++ insns).toList := Array.mem_toList_iff.mpr hi
  rw [Array.toList_appendList, mem_append] at hi
  rcases hi with hi | hi
  · exact hs.code i (Array.mem_toList_iff.mp hi)
  · exact (h i hi).mono hn

theorem tidy_newBlock {b} (h : b.Lowered src n) : Tidy src n (newBlock b) anything := by
  refine fun s hs hn => ⟨⟨hs.distinct, hs.proper, hs.code, hs.handler, fun b' hb' => ?_⟩, Nat.le_refl _, trivial⟩
  rcases Array.mem_push.mp hb' with hb' | rfl
  · exact hs.blocks b' hb'
  · exact ⟨fun i hi => (h.insns i hi).mono hn, h.handler⟩

theorem tidy_close (term : Terminator) : Tidy src n (close term) anything := by
  refine fun s hs hn => ⟨⟨hs.distinct, hs.proper, hs.code, hs.handler, fun b hb => ?_⟩, Nat.le_refl _, trivial⟩
  rcases Array.mem_or_eq_of_mem_setIfInBounds hb with hb | rfl
  · exact hs.blocks b hb
  · exact ⟨fun i hi => hs.code i (Array.mem_toList_iff.mp hi), hs.handler⟩

theorem tidy_enter (block : Nat) {handler} (h : src.Starts handler) :
    Tidy src n (enter block handler) anything :=
  fun _ hs _ => ⟨⟨hs.distinct, hs.proper, fun _ hi => absurd hi (Array.not_mem_empty _), h, hs.blocks⟩,
    Nat.le_refl _, trivial⟩

theorem tidy_underHandler {handler} (h : src.Starts handler) :
    Tidy src n (underHandler handler) anything := by
  unfold underHandler
  refine (Tidy.of_same fun _ => ⟨rfl, rfl, rfl, rfl⟩ : Tidy src n get anything).bind fun n' s _ _ => ?_
  split
  · exact .pure fun _ _ => trivial
  · split
    · have hn : Block.Lowered src n' {} := ⟨fun i hi => absurd hi not_mem_nil, fun _ h => by cases h⟩
      refine (tidy_newBlock hn).bind fun _ next _ _ => ?_
      exact (tidy_close _).bind fun _ _ _ _ => tidy_enter next h
    · exact fun s hs _ => ⟨⟨hs.distinct, hs.proper, hs.code, h, hs.blocks⟩, Nat.le_refl _, trivial⟩

/-! ## Edges -/

theorem allLowered_moves (g : Graph) (n : Nat) (fresh : Var) (pairs : List (Var × Var)) :
    allLowered g n (moves fresh pairs) := by
  intro i hi
  unfold moves stagedMoves directMoves at hi
  split at hi
  · rw [mem_append, mem_map, mem_map] at hi
    rcases hi with ⟨p, -, rfl⟩ | ⟨p, -, rfl⟩ <;> exact ⟨trivial, fun _ => trivial⟩
  · obtain ⟨p, -, rfl⟩ := mem_map.mp hi
    exact ⟨trivial, fun _ => trivial⟩

theorem tidy_edgeMoves (e : Edge) : Tidy src n (edgeMoves src e) (allLowered src.graph) := by
  unfold edgeMoves
  refine (tidy_varsOf _).bind fun _ dsts _ _ => (tidy_varsOf _).bind fun _ srcs _ _ => ?_
  refine (Tidy.of_same fun _ => ⟨rfl, rfl, rfl, rfl⟩ : Tidy src _ get anything).bind fun _ s _ _ => ?_
  dsimp only
  split
  · refine (Tidy.of_same fun _ => ⟨rfl, rfl, rfl, rfl⟩ : Tidy src _ (addTemps _) anything).bind fun _ _ _ _ => ?_
    exact .pure fun n' _ => allLowered_moves _ n' _ _
  · exact .pure fun n' _ => allLowered_moves _ n' _ _

theorem tidy_edgeTarget (e : Edge) : Tidy src n (edgeTarget src e) anything := by
  unfold edgeTarget
  refine (tidy_edgeMoves e).bind fun _ insns _ hi => ?_
  split
  · exact .pure fun _ _ => trivial
  · exact tidy_newBlock ⟨hi, fun _ h => by cases h⟩

theorem tidy_protect (handler : Option Edge) : Tidy src n (protect src handler) anything := by
  have hs : src.Starts (handler.map fun e => src.start e.target) := by
    intro h hh
    obtain ⟨e, -, rfl⟩ := Option.map_eq_some_iff.mp hh
    exact ⟨e.target, rfl⟩
  unfold protect
  refine (tidy_underHandler hs).bind fun _ _ _ _ => ?_
  cases handler with
  | none => exact .pure fun _ _ => trivial
  | some e => exact (tidy_edgeMoves e).bind fun _ insns _ hi => tidy_emit hi

/-! ## Nodes -/

theorem allLowered_singleton {g i} (h : i.Lowered g n) : allLowered g n [i] :=
  fun _ hj => mem_singleton.mp hj ▸ h

theorem tidy_call (id : NodeId) (target : CallTarget) (args : List Var)
    (ha : src.graph.Codable src.graph.reachable → args.length ≤ Convention.arguments.length) :
    Tidy src n (call src id target args) fun n' i => i.Lowered src.graph n' := by
  unfold call
  dsimp only
  split
  · refine (Tidy.pure fun _ _ => trivial : Tidy src n (pure none) anything).bind fun _ _ _ _ => ?_
    exact .pure fun _ _ => ⟨trivial, ha⟩
  · have hr : Tidy src n (some <$> var src id) anything := (tidy_var id).map some
    exact hr.bind fun _ _ _ _ => .pure fun _ _ => ⟨trivial, ha⟩

theorem tidy_callRoutine (id : NodeId) (routine : MethodKey) {args}
    (ha : src.graph.Codable src.graph.reachable → args.length ≤ Convention.arguments.length) :
    Tidy src n (callRoutine src id routine args) (allLowered src.graph) := by
  unfold callRoutine
  refine (tidy_varsOf args).bind fun _ _ _ hl => ?_
  refine (tidy_call id _ _ fun hg => hl ▸ ha hg).bind fun _ i _ hi => ?_
  exact .pure fun _ hle => allLowered_singleton (hi.mono hle)

theorem tag_fitsMove (kind : Kind) : fitsMove (Value.int kind.tag).signedBits = true := by
  cases kind <;> decide

section
variable {b} {id} (hb : b ∈ src.graph.reachable) (hid : id ∈ (src.graph.block b).body)
include hb hid

theorem tidy_node :
    Tidy src n (node src id) (allLowered src.graph) := by
  -- the variables of a node come first, then one instruction that loads no literal
  have hs : ∀ {n : Nat} {i : Insn}, i.Within 0 → (src.graph.Codable src.graph.reachable → i.Codable) →
      Tidy src n (pure [i]) (allLowered src.graph) := fun hi hc =>
    .pure fun n' _ => allLowered_singleton ⟨hi.mono (Nat.zero_le n'), hc⟩
  have hn : ∀ {op : Operator}, (src.graph.node id).op = op → src.graph.Codable src.graph.reachable →
      op.Codable (src.graph.node id).kind := fun hop hg => hop ▸ hg b hb id hid
  unfold node
  dsimp only
  cases hop : (src.graph.node id).op with
  | constant v =>
    refine (tidy_var id).bind fun _ dst _ _ => (tidy_constant dst v).bind fun _ i _ hi => ?_
    exact .pure fun _ hle => allLowered_singleton (hi.mono hle)
  | binary op lhs rhs =>
    refine (tidy_var id).bind fun _ _ _ _ => (tidy_var lhs).bind fun _ _ _ _ => ?_
    exact (tidy_var rhs).bind fun _ _ _ _ => hs trivial (hn hop)
  | negate x | convert _ x =>
    refine (tidy_var id).bind fun _ _ _ _ => (tidy_var x).bind fun _ _ _ _ => ?_
    exact hs trivial fun _ => trivial
  | parameter index => exact (tidy_var id).bind fun _ _ _ _ => hs trivial (hn hop)
  | caught => exact (tidy_var id).bind fun _ _ _ _ => hs trivial fun _ => trivial
  | blockParam => exact .pure fun _ _ i hi => absurd hi not_mem_nil
  | safepoint => exact hs trivial fun _ => trivial
  | newArray element length =>
    refine (tidy_newVar _).bind fun _ tag _ _ => (tidy_var length).bind fun _ l _ _ => ?_
    have ha : src.graph.Codable src.graph.reachable → [tag, l].length ≤ Convention.arguments.length := fun _ =>
      (by decide : 2 ≤ Convention.arguments.length)
    refine (tidy_call id _ _ ha).bind fun _ i _ hi => .pure fun n' hle => ?_
    refine forall_mem_cons.mpr ⟨?_, allLowered_singleton (hi.mono hle)⟩
    exact ⟨trivial, fun _ => tag_fitsMove element⟩
  | newInstance cls =>
    refine (tidy_newVar _).bind fun _ hub _ _ => (tidy_constant hub _).bind fun n₁ load _ hlo => ?_
    have ha : src.graph.Codable src.graph.reachable → [hub].length ≤ Convention.arguments.length := fun _ =>
      (by decide : 1 ≤ Convention.arguments.length)
    refine (tidy_call id _ _ ha).bind fun n₂ i hl₂ hi => .pure fun n' hle => ?_
    exact forall_mem_cons.mpr ⟨hlo.mono (Nat.le_trans hl₂ hle), allLowered_singleton (hi.mono hle)⟩
  | arrayLength => exact tidy_callRoutine id _ fun _ => (by decide : 1 ≤ Convention.arguments.length)
  | arrayLoad => exact tidy_callRoutine id _ fun _ => (by decide : 2 ≤ Convention.arguments.length)
  | arrayStore => exact tidy_callRoutine id _ fun _ => (by decide : 3 ≤ Convention.arguments.length)
  | callStatic => exact tidy_callRoutine id _ (hn hop)
  | callNative callee args =>
    refine (tidy_varsOf args).bind fun _ _ _ hl => ?_
    refine (tidy_call id _ _ fun hg => hl ▸ hn hop hg).bind fun _ i _ hi => ?_
    exact .pure fun _ hle => allLowered_singleton (hi.mono hle)
  | callIndirect target _ args =>
    refine (tidy_varsOf args).bind fun _ _ _ hl => (tidy_var target).bind fun _ _ _ _ => ?_
    refine (tidy_call id _ _ fun hg => hl ▸ hn hop hg).bind fun _ i _ hi => ?_
    exact .pure fun _ hle => allLowered_singleton (hi.mono hle)

theorem tidy_bodyNode :
    Tidy src n (bodyNode src id) anything := by
  have hr : ∀ {n : Nat}, Tidy src n (node src id >>= emit) anything :=
    (tidy_node hb hid).bind fun _ _ _ hi => tidy_emit hi
  unfold bodyNode
  dsimp only
  split
  · exact (tidy_protect _).bind fun _ _ _ _ => hr
  · exact hr

end

/-! ## Graphs -/

theorem tidy_cont (k : Continuation) : Tidy src n (cont src k) anything := by
  cases k with
  | jump e =>
    refine (tidy_edgeMoves e).bind fun _ insns _ hi => (tidy_emit hi).bind fun _ _ _ _ => ?_
    exact .pure fun _ _ => trivial
  | branch cond lhs rhs taken notTaken =>
    refine (tidy_var lhs).bind fun _ _ _ _ => (tidy_var rhs).bind fun _ _ _ _ => ?_
    refine (tidy_edgeTarget taken).bind fun _ _ _ _ => (tidy_edgeTarget notTaken).bind fun _ _ _ _ => ?_
    exact .pure fun _ _ => trivial
  | ret result =>
    cases result with
    | none => exact .pure fun _ _ => trivial
    | some id => exact (tidy_var id).bind fun _ _ _ _ => .pure fun _ _ => trivial
  | raise exception handler =>
    refine (tidy_protect handler).bind fun _ _ _ _ => (tidy_var exception).bind fun _ v _ _ => ?_
    have hc : ∀ {n bci : Nat}, Insn.Lowered src.graph n
        (.call (.direct Support.throwException) [v] none true bci) :=
      ⟨trivial, fun _ => (by decide : 1 ≤ Convention.arguments.length)⟩
    exact (tidy_emit (allLowered_singleton hc)).bind fun _ _ _ _ => .pure fun _ _ => trivial

theorem tidy_forM {α : Type} {f} : ∀ {n : Nat} (items : List α),
    (∀ {n : Nat}, ∀ a ∈ items, Tidy src n (f a) anything) → Tidy src n (items.forM f) anything
  | _, [], _ => .pure fun _ _ => trivial
  | _, a :: rest, h => (h a mem_cons_self).bind fun _ _ _ _ =>
    tidy_forM rest fun b hb => h b (mem_cons_of_mem _ hb)

theorem tidy_block {id} (hid : id ∈ src.graph.reachable) : Tidy src n (block src id) anything := by
  unfold block
  refine (tidy_enter _ fun _ h => by cases h).bind fun _ _ _ _ => ?_
  refine (tidy_forM _ fun _ => tidy_bodyNode hid).bind fun _ _ _ _ => ?_
  exact (tidy_cont _).bind fun _ term _ _ => tidy_close term

end
end Lower

theorem exists_pooled (g : Graph) : ∃ s : Lowering, s.Pooled (.of g) ∧
    (lower g).literals = s.literals ∧ (lower g).blocks = s.blocks := by
  have hs : (Lowering.initial g).Pooled (.of g) := by
    refine ⟨nodup_nil, fun l hl => absurd hl (Array.not_mem_empty _),
      fun i hi => absurd hi (Array.not_mem_empty _), fun _ h => (by cases h), fun b hb => ?_⟩
    obtain ⟨id, -, rfl⟩ := mem_map.mp (mem_toArray.mp hb)
    exact ⟨fun i hi => absurd hi not_mem_nil, fun _ h => by cases h⟩
  obtain ⟨hp, -⟩ := Lower.tidy_forM (f := Lower.block (.of g)) g.reachable
    (fun _ hid => Lower.tidy_block hid) _ hs (Nat.le_refl _)
  exact ⟨_, hp, rfl, rfl⟩

/-- Equal constants are one literal, and no load misses its literal. -/
theorem pooled_lower (g : Graph) : (lower g).literals.toList.Nodup ∧
    (∀ l ∈ (lower g).literals, ∃ v, l = .ofValue v) ∧
    ∀ b ∈ (lower g).blocks, ∀ i ∈ b.insns, i.Within (lower g).literals.size := by
  obtain ⟨s, hs, hli, hbl⟩ := exists_pooled g
  rw [hli, hbl]
  refine ⟨hs.distinct, fun l hl => ?_, fun b hb i hi => ((hs.blocks b hb).insns i hi).1⟩
  obtain ⟨v, -, hv⟩ := hs.proper l hl
  exact ⟨v, hv⟩

/-- Nothing is refused if the nodes of the graph have machine code. -/
theorem codable_lower {g} (hg : g.Codable g.reachable) :
    (∀ l ∈ (lower g).literals, ∃ v, v ≠ .null ∧ l = .ofValue v) ∧
    ∀ b ∈ (lower g).blocks, (∀ i ∈ b.insns, i.Codable) ∧
      Source.Starts (.of g) b.handler := by
  obtain ⟨s, hs, hl, hbl⟩ := exists_pooled g
  rw [hl, hbl]
  exact ⟨hs.proper, fun b hb => ⟨fun i hi => ((hs.blocks b hb).insns i hi).2 hg, (hs.blocks b hb).handler⟩⟩

end StackCompiler.Linear
