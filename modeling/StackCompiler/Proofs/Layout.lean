/-
How linear code is laid out, without mentioning the order in which it was made.
`Follows` says that the code from some point on is that of the remaining nodes
of a block and of its continuation. Variables are mentioned through the state at
the end, in which every node that is mentioned has its variable.
-/
import StackCompiler.Proofs.Moves
import StackCompiler.Proofs.WellFormed

namespace StackCompiler.Linear

open List Support Store

/-- A graph and where its blocks start. -/
abbrev Source.of (g : Graph) : Source := ⟨g, starts g g.reachable⟩

/-! ## Names -/

namespace Lowering

def var? (s : Lowering) (n : NodeId) : Option Var := (s.varOf[n]?).join

/-- The same for a node that has one. -/
def name (s : Lowering) (n : NodeId) : Var := (s.var? n).getD 0

theorem name_eq {s : Lowering} {n v} (h : s.var? n = some v) : s.name n = v := by
  rw [name, h, Option.getD_some]

theorem map_name {s : Lowering} {ns : List NodeId} {vs} (h : ns.map s.var? = vs.map some) :
    ns.map s.name = vs := by
  have hg := congrArg (List.map (Option.getD · 0)) h
  simp only [map_map, Function.comp_def, Option.getD_some, map_id'] at hg
  exact hg

/-- Every node has its own variable. -/
structure Named (size : Nat) (s : Lowering) : Prop where
  size : s.varOf.size = size
  lt : ∀ {n v}, s.var? n = some v → v < s.vars.size
  inj : ∀ {n n' v}, s.var? n = some v → s.var? n' = some v → n = n'

theorem Named.keep {size s blocks current code handler} (h : Named size s) {literals} :
    Named size { s with blocks, current, code, handler, literals } := ⟨h.size, h.lt, h.inj⟩

/-- The state that lowering starts from. -/
abbrev initial (g : Graph) : Lowering where
  vars := #[]
  varOf := Array.replicate g.nodes.size none
  literals := #[]
  blocks := (g.reachable.map fun id => ({ isCatch := (g.block id).isHandler } : Block)).toArray
  current := 0
  code := #[]
  handler := none

theorem named_initial (g : Graph) : (initial g).Named g.nodes.size := by
  have hn : ∀ n : Nat, (initial g).var? n = none := by
    intro n
    rw [var?, Array.getElem?_replicate]
    split <;> rfl
  refine ⟨by simp, fun hv => ?_, fun hv _ => ?_⟩ <;> cases (hn _).symm.trans hv

/-- A variable of no node. -/
def Temp (s : Lowering) (v : Var) : Prop := v < s.vars.size ∧ ∀ n, s.var? n ≠ some v

/-- Later states have more variables and literals. -/
structure Grows (s s' : Lowering) : Prop where
  size : s.vars.size ≤ s'.vars.size
  var : ∀ {n v}, s.var? n = some v → s'.var? n = some v
  fresh : ∀ {n v}, s'.var? n = some v → s.var? n = some v ∨ s.vars.size ≤ v
  literal : ∀ {i : Nat} {l : Literal}, s.literals[i]? = some l → s'.literals[i]? = some l

namespace Grows

variable {s s' s'' : Lowering}

theorem refl (s : Lowering) : s.Grows s := ⟨Nat.le_refl _, id, .inl, id⟩

theorem keep {blocks current code handler}
    (h : Grows { s with blocks, current, code, handler } s') : s.Grows s' := ⟨h.size, h.var, h.fresh, h.literal⟩

theorem trans (h : s.Grows s') (h' : s'.Grows s'') : s.Grows s'' where
  size := Nat.le_trans h.size h'.size
  var hv := h'.var (h.var hv)
  fresh hv := by
    rcases h'.fresh hv with hv | hle
    · exact h.fresh hv
    · exact .inr (Nat.le_trans h.size hle)
  literal hl := h'.literal (h.literal hl)

theorem temp (h : s.Grows s') {v} (hv : s.Temp v) : s'.Temp v := by
  refine ⟨Nat.lt_of_lt_of_le hv.1 h.size, fun n hn => ?_⟩
  rcases h.fresh hn with hn | hle
  · exact hv.2 n hn
  · exact Nat.not_lt_of_le hle hv.1

theorem vars (h : s.Grows s') {ns : List NodeId} {vs : List Var} (hv : ns.map s.var? = vs.map some) :
    ns.map s'.var? = vs.map some := by
  induction ns generalizing vs with
  | nil => exact hv
  | cons n ns ih =>
    cases vs with
    | nil => cases hv
    | cons v vs =>
      simp only [map_cons, List.cons.injEq] at hv ⊢
      exact ⟨h.var hv.1, ih hv.2⟩

end Grows

/-- Only variables and literals have been added. -/
structure Adds (size : Nat) (s s' : Lowering) : Prop where
  grows : s.Grows s'
  named : s'.Named size
  blocks : s'.blocks = s.blocks
  current : s'.current = s.current
  code : s'.code = s.code
  handler : s'.handler = s.handler

namespace Adds

variable {size : Nat} {s s' s'' : Lowering}

theorem refl (h : s.Named size) : Adds size s s := ⟨.refl s, h, rfl, rfl, rfl, rfl⟩

theorem trans (h : Adds size s s') (h' : Adds size s' s'') : Adds size s s'' where
  grows := h.grows.trans h'.grows
  named := h'.named
  blocks := h'.blocks.trans h.blocks
  current := h'.current.trans h.current
  code := h'.code.trans h.code
  handler := h'.handler.trans h.handler

end Adds
end Lowering

/-! ## Code -/

/-- An instruction that gives a variable a constant. -/
inductive ConstantCode (s : Lowering) (dst : Var) (v : Value) : Insn → Prop
  | const : ConstantCode s dst v (.const dst v)
  | literal {id : LiteralId} (h : s.literals[id]? = some (.ofValue v)) :
      ConstantCode s dst v (.literal dst id)

/-- The variable for the value of a call, if it has one. -/
inductive CallResult (s : Lowering) (g : Graph) (n : NodeId) : Option Var → Prop
  | void (h : (g.node n).kind = .void) : CallResult s g n none
  | value {dst : Var} (h : (g.node n).kind ≠ .void) (hdst : s.var? n = some dst) :
      CallResult s g n (some dst)

/-- The routine that an operator calls with its inputs. -/
def routine? : Operator → Option (CallTarget × List NodeId)
  | .arrayLength array => some (.direct arrayLength, [array])
  | .arrayLoad element array index => some (.direct (arrayLoad element), [array, index])
  | .arrayStore element array index value =>
    some (.direct (arrayStore element), [array, index, value])
  | .callStatic callee args => some (.direct callee, args)
  | .callNative callee args => some (.native callee, args)
  | _ => none

theorem routine?_eq_some {op target ids} (h : routine? op = some (target, ids)) :
    op.canThrow = true ∧ ids = op.inputs ∧ ∀ a, target ≠ .indirect a := by
  unfold routine? at h
  split at h <;> cases h <;> exact ⟨rfl, rfl, fun _ => by simp⟩

/-- The instructions of a node. -/
inductive NodeCode (s : Lowering) (g : Graph) (n : NodeId) : List Insn → Prop
  | constant {v : Value} {dst : Var} {insn : Insn} (op : (g.node n).op = .constant v)
      (hdst : s.var? n = some dst) (code : ConstantCode s dst v insn) : NodeCode s g n [insn]
  | binary {o : BinaryOp} {lhs rhs : NodeId} {dst a b : Var} (op : (g.node n).op = .binary o lhs rhs)
      (hdst : s.var? n = some dst) (ha : s.var? lhs = some a) (hb : s.var? rhs = some b) :
      NodeCode s g n [.arith o (g.node n).kind dst a b]
  | negate {x : NodeId} {dst a : Var} (op : (g.node n).op = .negate x)
      (hdst : s.var? n = some dst) (ha : s.var? x = some a) :
      NodeCode s g n [.negate (g.node n).kind dst a]
  | convert {c : Conversion} {x : NodeId} {dst a : Var} (op : (g.node n).op = .convert c x)
      (hdst : s.var? n = some dst) (ha : s.var? x = some a) : NodeCode s g n [.convert c dst a]
  | parameter {index : Nat} {dst : Var} (op : (g.node n).op = .parameter index)
      (hdst : s.var? n = some dst) : NodeCode s g n [.parameter dst index]
  | blockParam {b : BlockId} {i : UInt16} (op : (g.node n).op = .blockParam b i) : NodeCode s g n []
  | safepoint (op : (g.node n).op = .safepoint) : NodeCode s g n [.safepoint (g.node n).bci]
  | caught {dst : Var} (op : (g.node n).op = .caught) (hdst : s.var? n = some dst) :
      NodeCode s g n [.caught dst]
  | newArray {element : Kind} {length : NodeId} {tag a : Var} {result : Option Var}
      (op : (g.node n).op = .newArray element length) (htag : s.Temp tag)
      (ha : s.var? length = some a) (hr : CallResult s g n result) :
      NodeCode s g n [.const tag (.int element.tag),
        .call (.direct newArray) [tag, a] result false (g.node n).bci]
  | newInstance {cls : ObjectRef} {hub : Var} {load : Insn} {result : Option Var}
      (op : (g.node n).op = .newInstance cls) (hhub : s.Temp hub)
      (code : ConstantCode s hub (.reference cls) load) (hr : CallResult s g n result) :
      NodeCode s g n [load, .call (.direct newInstance) [hub] result false (g.node n).bci]
  | routine {target : CallTarget} {ids : List NodeId} {args : List Var} {result : Option Var}
      (op : routine? (g.node n).op = some (target, ids)) (hargs : ids.map s.var? = args.map some)
      (hr : CallResult s g n result) :
      NodeCode s g n [.call target args result false (g.node n).bci]
  | indirect {address : NodeId} {signature : Signature} {ids : List NodeId} {a : Var}
      {args : List Var} {result : Option Var} (op : (g.node n).op = .callIndirect address signature ids)
      (hargs : ids.map s.var? = args.map some) (ha : s.var? address = some a)
      (hr : CallResult s g n result) :
      NodeCode s g n [.call (.indirect a) args result false (g.node n).bci]

/-- The moves that pass the arguments of an edge, with the variables of parameters and
arguments. -/
structure Passes (s : Lowering) (g : Graph) (e : Edge) (dsts srcs : List Var) (fresh : Var)
    (insns : List Insn) : Prop where
  params : (g.block e.target).params.map s.var? = dsts.map some
  args : e.args.map s.var? = srcs.map some
  dsts_lt : ∀ v ∈ dsts, v < fresh
  srcs_lt : ∀ v ∈ srcs, v < fresh
  temp : ∀ v ∈ temps fresh (assignments dsts srcs), s.Temp v
  eq : insns = moves fresh (assignments dsts srcs)

def EdgeCode (s : Lowering) (g : Graph) (e : Edge) (insns : List Insn) : Prop :=
  ∃ dsts srcs fresh, Passes s g e dsts srcs fresh insns

/-- Calls that throw into the target of an edge, if there is one, behind the moves of its arguments. -/
def Protects (s : Lowering) (g : Graph) (start : BlockId → Nat) (edge : Option Edge)
    (handler : Option Nat) (insns : List Insn) : Prop :=
  match edge with
  | none => handler = none ∧ insns = []
  | some e => handler = some (start e.target) ∧ EdgeCode s g e insns

/-- Where a branch goes along an edge. -/
def EdgeTarget (blocks : Array Block) (reserved : Nat) (s : Lowering) (g : Graph)
    (start : BlockId → Nat) (e : Edge) (target : Nat) : Prop :=
  ∃ insns, EdgeCode s g e insns ∧ (insns = [] ∧ target = start e.target ∨
    insns ≠ [] ∧ reserved ≤ target ∧
      blocks[target]? = some { insns, term := .jump (start e.target) })

/-- A block under a handler has a call. -/
def Block.Calls (b : Block) : Prop := b.handler = none ∨ b.insns.any (·.isCall) = true

/-- Code that does what is left of a block: the instructions `rest` and the terminator, under the
given handler. Blocks from `reserved` on go on under another handler or pass arguments of a branch.
-/
inductive Follows (blocks : Array Block) (reserved : Nat) (s : Lowering) (g : Graph)
    (start : BlockId → Nat) : Option Nat → List Insn → Terminator → List NodeId → Continuation → Prop
  | node {handler n nodes k code rest term} (quiet : (g.node n).op.canThrow = false) (hcode : NodeCode s g n code)
      (hrest : Follows blocks reserved s g start handler rest term nodes k) :
      Follows blocks reserved s g start handler (code ++ rest) term (n :: nodes) k
  | call {handler n nodes k insns code rest term} (throws : (g.node n).op.canThrow = true)
      (hprotects : Protects s g start (g.node n).handler handler insns) (hcode : NodeCode s g n code)
      (hrest : Follows blocks reserved s g start handler rest term nodes k) :
      Follows blocks reserved s g start handler (insns ++ code ++ rest) term (n :: nodes) k
  | split {handler i} {b} {nodes k} (hi : reserved ≤ i) (hb : blocks[i]? = some b) (hcatch : b.isCatch = false)
      (hcalls : b.Calls) (hrest : Follows blocks reserved s g start b.handler b.insns b.term nodes k) :
      Follows blocks reserved s g start handler [] (.jump i) nodes k
  | jump {handler} {e} {insns} (hedge : EdgeCode s g e insns) :
      Follows blocks reserved s g start handler insns (.jump (start e.target)) [] (.jump e)
  | branch {handler cond lhs rhs taken notTaken a b t t'} (ha : s.var? lhs = some a) (hb : s.var? rhs = some b)
      (ht : EdgeTarget blocks reserved s g start taken t)
      (ht' : EdgeTarget blocks reserved s g start notTaken t') :
      Follows blocks reserved s g start handler [] (.branch cond (g.kindOf lhs) a b t t') []
        (.branch cond lhs rhs taken notTaken)
  | ret {handler} : Follows blocks reserved s g start handler [] (.ret none) [] (.ret none)
  | retValue {handler x v} (hx : s.var? x = some v) :
      Follows blocks reserved s g start handler [] (.ret (some v)) [] (.ret (some x))
  | raise {handler x edge v insns} (hprotects : Protects s g start edge handler insns) (hx : s.var? x = some v) :
      Follows blocks reserved s g start handler
        (insns ++ [.call (.direct throwException) [v] none true (g.node x).bci]) .unreachable
        [] (.raise x edge)

/-- The code of a block goes on in another one, made when the handler changed. -/
inductive Continues (blocks : Array Block) (reserved : Nat) : Nat → Nat → Prop
  | refl (i : Nat) : Continues blocks reserved i i
  | next {i j k : Nat} {b : Block} (hb : blocks[i]? = some b) (hterm : b.term = .jump j) (hj : reserved ≤ j)
      (h : Continues blocks reserved j k) : Continues blocks reserved i k

section
variable {s s' : Lowering} {g : Graph}

variable {insns : List Insn} {e : Edge} {size : Nat} {env cells : Store} {n : NodeId}
  {start : BlockId → Nat} {handler : Option Nat}

theorem Continues.mono {blocks blocks' made reserved i j} (h : Continues blocks made i j) (hle : reserved ≤ made)
    (hb : ∀ (k : Nat) (b : Block), k = i ∨ made ≤ k → blocks[k]? = some b → blocks'[k]? = some b) :
    Continues blocks' reserved i j := by
  induction h with
  | refl i => exact .refl i
  | next hi ht hj _ ih =>
    refine .next (hb _ _ (.inl rfl) hi) ht (Nat.le_trans hle hj) (ih fun k b hk => hb k b (.inr ?_))
    exact hk.elim (fun heq => heq ▸ hj) id

section
variable {blocks : Array Block} {reserved : Nat} {start : BlockId → Nat} {k : Continuation}

/-- Where a block jumps to one that was made later, the rest of its code is there. -/
theorem Follows.jump_made (hk : ∀ e, k = .jump e → start e.target < reserved) {handler rest term nodes}
    (h : Follows blocks reserved s g start handler rest term nodes k) {j} (ht : term = .jump j) (hj : reserved ≤ j) :
    ∃ b nodes', blocks[j]? = some b ∧ nodes' <:+ nodes ∧
      Follows blocks reserved s g start b.handler b.insns b.term nodes' k := by
  induction h with
  | node _ _ _ ih =>
    obtain ⟨b, nodes', hb, hs, hr⟩ := ih hk ht
    exact ⟨b, nodes', hb, hs.trans (suffix_cons _ _), hr⟩
  | call _ _ _ _ ih =>
    obtain ⟨b, nodes', hb, hs, hr⟩ := ih hk ht
    exact ⟨b, nodes', hb, hs.trans (suffix_cons _ _), hr⟩
  | split _ hb _ _ hr =>
    cases ht
    exact ⟨_, _, hb, suffix_rfl, hr⟩
  | @jump _ e _ _ =>
    cases ht
    exact absurd (hk e rfl) (Nat.not_lt_of_le hj)
  | branch | ret | retValue | raise => cases ht

/-- The blocks in which a block goes on do the rest of it. -/
theorem Follows.continues (hk : ∀ e, k = .jump e → start e.target < reserved) {i j b b' nodes}
    (hi : blocks[i]? = some b) (h : Follows blocks reserved s g start b.handler b.insns b.term nodes k)
    (hc : Continues blocks reserved i j) (hj : blocks[j]? = some b') :
    ∃ nodes', nodes' <:+ nodes ∧ Follows blocks reserved s g start b'.handler b'.insns b'.term nodes' k := by
  induction hc generalizing b nodes with
  | refl =>
    cases hi.symm.trans hj
    exact ⟨nodes, suffix_rfl, h⟩
  | next hb ht hle _ ih =>
    cases hi.symm.trans hb
    obtain ⟨b₁, nodes₁, hb₁, hs₁, hr⟩ := h.jump_made hk ht hle
    obtain ⟨nodes', hs, hf⟩ := ih hb₁ hr hj
    exact ⟨nodes', hs.trans hs₁, hf⟩

end

/-! ## Variables hold the values of their nodes -/

/-- The variable of each node holds what the node has computed. -/
def Holds (s : Lowering) (env cells : Store) : Prop := ∀ {n v}, s.var? n = some v → cells v = env n

theorem Holds.set (h : Holds s env cells) (hn : s.Named size) {q d} (hq : s.var? q = some d) (x : Option Value) :
    Holds s (env.set q x) (cells.set d x) := by
  intro n v hv
  by_cases hnq : n = q
  · subst hnq
    cases hq.symm.trans hv
    rw [set_self, set_self]
  · have hvd : v ≠ d := fun hvd => hnq (hn.inj hv (hvd ▸ hq))
    rw [set_ne _ _ hnq, set_ne _ _ hvd, h hv]

theorem Holds.setAll (hn : s.Named size) : ∀ {params : List NodeId} {dsts : List Var}
    {env cells : Store}, Holds s env cells → params.map s.var? = dsts.map some →
    ∀ xs : List (Option Value), Holds s (env.setAll params xs) (cells.setAll dsts xs)
  | [], [], _, _, h, _, _ => h
  | _ :: _, _ :: _, _, _, h, _, [] => h
  | q :: params, d :: dsts, _, _, h, hd, x :: xs => by
    simp only [map_cons, List.cons.injEq] at hd
    exact Holds.setAll hn (h.set hn hd.1 x) hd.2 xs

theorem Holds.map (h : Holds s env cells) : ∀ {ns : List NodeId} {vs : List Var},
    ns.map s.var? = vs.map some → vs.map cells = ns.map env
  | [], [], _ => rfl
  | n :: ns, v :: vs, hv => by
    simp only [map_cons, List.cons.injEq] at hv ⊢
    exact ⟨h hv.1, h.map hv.2⟩

theorem Holds.set_temp (h : Holds s env cells) {t} (ht : s.Temp t) (x : Option Value) :
    Holds s env (cells.set t x) := by
  intro n v hv
  have hvt : v ≠ t := fun hvt => ht.2 n (hvt ▸ hv)
  rw [set_ne _ _ hvt, h hv]

theorem nodup_vars (hn : s.Named size) : ∀ {ns : List NodeId} {vs : List Var},
    ns.map s.var? = vs.map some → ns.Nodup → vs.Nodup
  | [], [], _, _ => nodup_nil
  | n :: ns, v :: vs, hv, hno => by
    simp only [map_cons, List.cons.injEq] at hv
    rw [nodup_cons] at hno ⊢
    refine ⟨fun hm => hno.1 ?_, nodup_vars hn hv.2 hno.2⟩
    have hme : some v ∈ ns.map s.var? := hv.2 ▸ mem_map_of_mem hm
    obtain ⟨n', hn', heq⟩ := mem_map.mp hme
    exact hn.inj hv.1 heq ▸ hn'

section
variable {dsts srcs : List Var} {fresh : Var} (h : Passes s g e dsts srcs fresh insns)
include h

theorem Passes.holds (hn : s.Named size) (hpa : (g.block e.target).params.Nodup) (ho : Holds s env cells) :
    Holds s (env.setAll (g.block e.target).params (e.args.map env)) (afterMoves cells insns) := by
  intro n v hv
  have hlt : ∀ pair ∈ assignments dsts srcs, pair.1 < fresh ∧ pair.2 < fresh := fun pair hp =>
    have hm := of_mem_zip (mem_assignments.mp hp).1
    ⟨h.dsts_lt _ hm.1, h.srcs_lt _ hm.2⟩
  rw [h.eq, afterMoves_moves cells (nodup_vars hn h.params hpa) hlt fun ht => (h.temp v ht).2 n hv,
    ho.map h.args]
  exact ho.setAll hn h.params _ hv

theorem Passes.zip : ((g.block e.target).params.zip e.args).map (Prod.map s.var? s.var?) =
    (dsts.zip srcs).map (Prod.map some some) := by
  rw [← zip_map, ← zip_map, h.params, h.args]

/-- The moves of an edge assign new temporary variables, and those of parameters that get another value. -/
theorem Passes.assigned {insn} (hi : insn ∈ insns) {v} (hv : insn.def? = some v) :
    fresh ≤ v ∧ s.Temp v ∨ ∃ q a, (q, a) ∈ (g.block e.target).params.zip e.args ∧ q ≠ a ∧ s.var? q = some v := by
  rw [h.eq] at hi
  rcases def_of_mem_moves hi hv with ht | ⟨u, hp⟩
  · exact .inl ⟨le_of_mem_temps ht, h.temp v ht⟩
  · obtain ⟨hz, hne⟩ := mem_assignments.mp hp
    have hm : (some v, some u) ∈ (dsts.zip srcs).map (Prod.map some some) :=
      mem_map.mpr ⟨(v, u), hz, rfl⟩
    rw [← h.zip] at hm
    obtain ⟨⟨q, a⟩, hqa, heq⟩ := mem_map.mp hm
    injection heq with hq ha
    refine .inr ⟨q, a, hqa, fun hc => hne ?_, hq⟩
    subst hc
    exact Option.some.inj (hq.symm.trans ha)

/-- The moves give a parameter the value of its argument. -/
theorem Passes.after (hn : s.Named size) (hp : (g.block e.target).params.Nodup) {q a}
    (hqa : (q, a) ∈ (g.block e.target).params.zip e.args) (cells : Store) :
    ∃ v u, s.var? q = some v ∧ s.var? a = some u ∧ afterMoves cells insns v = cells u := by
  have hm := mem_map_of_mem (f := Prod.map s.var? s.var?) hqa
  rw [h.zip] at hm
  obtain ⟨⟨v, u⟩, _, heq⟩ := mem_map.mp hm
  injection heq with hq ha
  refine ⟨v, u, hq.symm, ha.symm, ?_⟩
  let env : Store := fun n => (s.var? n).bind cells
  have ho : Holds s env cells := fun {n v} hv => by
    change cells v = (s.var? n).bind cells
    rw [hv]
    rfl
  rw [h.holds hn hp ho hq.symm, ho ha.symm]
  refine setAll_of_mem_zip _ _ _ hp ?_
  rw [zip_map_right]
  exact mem_map.mpr ⟨(q, a), hqa, rfl⟩

end

theorem EdgeCode.eq_move (h : EdgeCode s g e insns) :
    ∀ insn ∈ insns, ∃ dst src, insn = .move dst src := by
  obtain ⟨dsts, srcs, fresh, h⟩ := h
  intro insn hi
  rw [h.eq] at hi
  exact exists_of_mem_moves hi

theorem Protects.eq_move {edge} (h : Protects s g start edge handler insns) :
    ∀ insn ∈ insns, ∃ dst src, insn = .move dst src := by
  cases edge with
  | none => simp [h.2]
  | some e => exact h.2.eq_move

/-- A block of moves. -/
def Block.Moves (b : Block) : Prop := ∀ insn ∈ b.insns, ∃ dst src, insn = .move dst src

/-- A block that only passes arguments on their way to a block of the graph. -/
def Block.Passing (start : BlockId → Nat) (b : Block) : Prop :=
  b.Moves ∧ ∃ c, b.term = .jump (start c)

theorem NodeCode.isCall {code} (h : NodeCode s g n code) (ht : (g.node n).op.canThrow = true) :
    code.any (·.isCall) = true := by
  cases h with
  | newArray | routine | indirect => rfl
  | newInstance => simp [Insn.isCall]
  | _ => simp_all [Operator.canThrow]

end

/-- How the linear code `M` of a graph is laid out: the names of nodes and the literals are those
of `S`, and reachable blocks start in their order. -/
structure Layout (g : Graph) (M : Method) (S : Lowering) (start : BlockId → Nat) : Prop where
  named : S.Named g.nodes.size
  literals : M.literals = S.literals
  start_eq : ∀ {b}, b ∈ g.reachable → start b = g.reachable.idxOf b
  block : ∀ {b}, b ∈ g.reachable → ∃ blk, M.blocks[start b]? = some blk ∧
    blk.isCatch = (g.block b).isHandler ∧
    Follows M.blocks g.reachable.length S g start blk.handler blk.insns blk.term
      (g.block b).body (g.block b).cont
  calls : ∀ {b blk}, b ∈ g.reachable → M.blocks[start b]? = some blk → blk.Calls
  /-- Every block passes arguments on, or some block of the graph goes on in it. -/
  linked : ∀ {i : Nat} {blk : Block}, M.blocks[i]? = some blk → blk.Passing start ∨
    ∃ b ∈ g.reachable, Continues M.blocks g.reachable.length (start b) i
  /-- There it does the rest of that block. -/
  rest : ∀ {i : Nat} {blk : Block}, M.blocks[i]? = some blk →
    (blk.Moves ∧ ∃ c ∈ g.reachable, blk.term = .jump (start c)) ∨ ∃ b ∈ g.reachable, ∃ nodes,
      nodes <:+ (g.block b).body ∧ Follows M.blocks g.reachable.length S g start blk.handler blk.insns
        blk.term nodes (g.block b).cont

end StackCompiler.Linear
