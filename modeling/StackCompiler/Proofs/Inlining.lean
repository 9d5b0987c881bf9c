/-
Inlining keeps a graph in order. Blocks can get out of reach while the pass is
still to visit them, so what holds is said of a fixed list of blocks that no edge
leaves (`InOrder`). The pass is taken apart into steps that fill the body of one
block anew (`Refills`).
-/
import StackCompiler.Graph.Optimize
import StackCompiler.Proofs.TrivialParams

namespace StackCompiler

open List Node

/-! ## New names for nodes -/

theorem Operator.isPure_mapInputs (f : NodeId → NodeId) (op : Operator) :
    (op.mapInputs f).isPure = op.isPure := by
  cases op <;> rfl

theorem Node.mapNodes_id (n : Node) : n.mapNodes id = n := by
  obtain ⟨op, kind, bci, handler⟩ := n
  have hop : op.mapInputs id = op := Operator.mapInputs_eq_self fun _ _ => rfl
  cases handler <;> simp [mapNodes, Edge.mapArgs, hop]

namespace Continuation

theorem mapNodes_id (k : Continuation) : k.mapNodes id = k := by
  cases k with
  | raise _ handler => cases handler <;> simp [mapNodes, Edge.mapArgs]
  | _ => simp [mapNodes, Edge.mapArgs]

theorem inputs_mapNodes (f : NodeId → NodeId) (k : Continuation) :
    (k.mapNodes f).inputs = k.inputs.map f := by
  rw [mapNodes_eq, inputs_mapWith]

theorem edges_mapNodes (f : NodeId → NodeId) (k : Continuation) :
    (k.mapNodes f).edges = k.edges.map (·.mapArgs f) := by
  rw [mapNodes_eq, edges_mapWith]

theorem exists_raise_of_mapNodes {k : Continuation} {f x handler} (h : k.mapNodes f = .raise x handler) :
    ∃ x' ha', k = .raise x' ha' ∧ handler = ha'.map (·.mapArgs f) := by
  cases k with
  | raise x' ha' => exact ⟨x', ha', rfl, (Continuation.raise.inj h).2.symm⟩
  | _ => cases h

end Continuation

namespace Graph

/-! ## Blocks that no edge leaves -/

/-- Numbers and places are in order in the given blocks, and no edge leads out of them. -/
structure InOrder (g : Graph) (blocks : List BlockId) : Prop where
  entry : Graph.entry ∈ blocks
  lt : ∀ {b}, b ∈ blocks → b < g.blocks.size
  params : ∀ {b}, b ∈ blocks → g.Numbered b
  body : ∀ {b n}, b ∈ blocks → n ∈ (g.block b).body → n < g.nodes.size
  inputs : ∀ {b n x}, b ∈ blocks → n ∈ (g.block b).body → x ∈ (g.node n).op.inputs → x < g.nodes.size
  op : ∀ {b n}, b ∈ blocks → n ∈ (g.block b).body → ∀ c i, (g.node n).op ≠ .blockParam c i
  nodup : ∀ {b}, b ∈ blocks → (g.block b).body.Nodup
  apart : ∀ {b b' n}, b ∈ blocks → b' ∈ blocks → n ∈ (g.block b).body → n ∈ (g.block b').body → b = b'
  cont : ∀ {b x}, b ∈ blocks → x ∈ (g.block b).cont.inputs → x < g.nodes.size
  target : ∀ {b e}, b ∈ blocks → e ∈ g.edges b → e.target ∈ blocks
  arity : ∀ {b e}, b ∈ blocks → e ∈ g.edges b → e.args.length = (g.block e.target).params.length
  args : ∀ {b e a}, b ∈ blocks → e ∈ g.edges b → a ∈ e.args → a < g.nodes.size

variable {g g' : Graph} {args : List NodeId} {b : BlockId} {c : Cursor} {source target : NodeId}

theorem Proper.inOrder (hp : g.Proper) (hpl : g.Placed) : g.InOrder g.reachable where
  entry := hp.entry_reachable
  lt := lt_of_mem_reachable
  params := hp.params
  body := hp.body
  inputs := hp.inputs
  op := hpl.op
  nodup := hpl.nodup
  apart := hpl.apart
  cont := hp.cont
  target := hp.target_reachable
  arity := hp.arity
  args := hp.args

namespace InOrder

variable {g : Graph} {blocks : List BlockId}

section
variable (h : g.InOrder blocks)
include h

theorem mem_of_reachable {b} (hb : b ∈ g.reachable) : b ∈ blocks :=
  reachable_induct h.entry h.target hb

theorem proper : g.Proper where
  entry_lt := h.lt h.entry
  params hb := h.params (h.mem_of_reachable hb)
  body hb := h.body (h.mem_of_reachable hb)
  inputs hb := h.inputs (h.mem_of_reachable hb)
  cont hb := h.cont (h.mem_of_reachable hb)
  target hb he := h.lt (h.target (h.mem_of_reachable hb) he)
  arity hb := h.arity (h.mem_of_reachable hb)
  args hb := h.args (h.mem_of_reachable hb)

theorem placed : g.Placed where
  nodup hb := h.nodup (h.mem_of_reachable hb)
  apart hb hb' := h.apart (h.mem_of_reachable hb) (h.mem_of_reachable hb')
  op hb := h.op (h.mem_of_reachable hb)

end

end InOrder

/-! ## One step -/

/-- A node that computes from nodes of the graph and throws nothing. -/
structure Computes (g : Graph) (n : NodeId) : Prop where
  pure : (g.node n).op.isPure = true
  handler : (g.node n).handler = none
  inputs : ∀ x ∈ (g.node n).op.inputs, x < g.nodes.size
  codable : (g.node n).op.Codable (g.node n).kind

/-- In a body, static calls may give way to nodes that were added. -/
inductive Refilled (g : Graph) (size : Nat) : List NodeId → List NodeId → Prop
  | mk {before old new after : List NodeId} (calls : ∀ n ∈ old, ∃ callee args, (g.node n).op = .callStatic callee args)
      (nodup : new.Nodup) (fresh : ∀ n ∈ new, g.nodes.size ≤ n ∧ n < size) :
      Refilled g size (before ++ (old ++ after)) (before ++ (new ++ after))

namespace Refilled

theorem refl (g : Graph) (size : Nat) (body : List NodeId) : Refilled g size body body :=
  @mk g size [] [] [] body (by simp) nodup_nil (by simp)

variable {g : Graph} {size : Nat} {body body' : List NodeId} (h : Refilled g size body body')
include h

theorem mem {n} (hn : n ∈ body') : n ∈ body ∨ g.nodes.size ≤ n ∧ n < size := by
  cases h with
  | mk _ _ hf =>
    simp only [mem_append] at hn ⊢
    rcases hn with hn | hn | hn
    · exact .inl (.inl hn)
    · exact .inr (hf n hn)
    · exact .inl (.inr (.inr hn))

theorem keeps {n} (hn : n ∈ body) (hop : ∀ callee args, (g.node n).op ≠ .callStatic callee args) : n ∈ body' := by
  cases h with
  | mk hc _ _ =>
    simp only [mem_append] at hn ⊢
    rcases hn with hn | hn | hn
    · exact .inl hn
    · obtain ⟨callee, args, hc⟩ := hc n hn
      exact absurd hc (hop callee args)
    · exact .inr (.inr hn)

theorem nodup (hn : body.Nodup) (hlt : ∀ n ∈ body, n < g.nodes.size) : body'.Nodup := by
  cases h with
  | mk _ hno hf =>
    simp only [nodup_append, mem_append] at hn hlt ⊢
    grind

end Refilled

/-- Block `b` gets a body of its own nodes and added ones, and `f` gives nodes new names. -/
structure Refills (g g' : Graph) (b : BlockId) (f : NodeId → NodeId) : Prop where
  blocks : g'.blocks.size = g.blocks.size
  size : g.nodes.size ≤ g'.nodes.size
  rename_lt : ∀ {x}, x < g.nodes.size → f x < g'.nodes.size
  node : ∀ {n}, n < g.nodes.size → g'.node n = (g.node n).mapNodes f
  fresh : ∀ {n}, g.nodes.size ≤ n → n < g'.nodes.size → g'.Computes n
  params : ∀ c, (g'.block c).params = (g.block c).params
  cont : ∀ c, (g'.block c).cont = (g.block c).cont.mapNodes f
  other : ∀ {c}, c ≠ b → (g'.block c).body = (g.block c).body
  body : Refilled g g'.nodes.size (g.block b).body (g'.block b).body

namespace Refills

variable {g g' : Graph} {b : BlockId} {f : NodeId → NodeId} {blocks : List BlockId}

section
variable (h : Refills g g' b f) (hg : g.InOrder blocks)
include h hg

theorem mem_body {c} (hc : c ∈ blocks) {n} (hn : n ∈ (g'.block c).body) :
    n ∈ (g.block c).body ∧ g'.node n = (g.node n).mapNodes f ∨
      c = b ∧ g.nodes.size ≤ n ∧ n < g'.nodes.size := by
  have ho : n ∈ (g.block c).body → g'.node n = (g.node n).mapNodes f := fun hn => h.node (hg.body hc hn)
  by_cases hcb : c = b
  · subst hcb
    rcases h.body.mem hn with hn | hn
    · exact .inl ⟨hn, ho hn⟩
    · exact .inr ⟨rfl, hn⟩
  · rw [h.other hcb] at hn
    exact .inl ⟨hn, ho hn⟩

theorem exists_edge {c} (hc : c ∈ blocks) {e'} (he' : e' ∈ g'.edges c) :
    ∃ e ∈ g.edges c, e' = e.mapArgs f := by
  obtain ⟨before, hl⟩ := mem_edges.mp he'
  cases hl with
  | @catches _ _ n _ hbo hh =>
    have hn : n ∈ (g'.block c).body := hbo ▸ mem_append_right _ mem_cons_self
    rcases h.mem_body hg hc hn with ⟨hn, hno⟩ | ⟨_, hge, hlt⟩
    · rw [hno] at hh
      obtain ⟨e, he, rfl⟩ := Option.map_eq_some_iff.mp hh
      obtain ⟨before, after, hs⟩ := append_of_mem hn
      exact ⟨e, mem_edges.mpr ⟨before, .catches hs he⟩, rfl⟩
    · rw [(h.fresh hge hlt).handler] at hh
      cases hh
  | cont hco =>
    rw [h.cont, Continuation.edges_mapNodes] at hco
    obtain ⟨e, he, rfl⟩ := mem_map.mp hco
    exact ⟨e, mem_edges.mpr ⟨_, .cont he⟩, rfl⟩

theorem inOrder : g'.InOrder blocks where
  entry := hg.entry
  lt hc := h.blocks ▸ hg.lt hc
  params {c} hc := by
    refine ⟨by rw [h.params]; exact (hg.params hc).nodup, fun {i q} hq => ?_⟩
    rw [h.params] at hq
    rw [h.node ((hg.params hc).lt (mem_of_getElem? hq)), mapNodes, (hg.params hc).op hq]
    rfl
  body {c n} hc hn := by
    rcases h.mem_body hg hc hn with ⟨hn, _⟩ | ⟨_, _, hlt⟩
    · exact Nat.lt_of_lt_of_le (hg.body hc hn) h.size
    · exact hlt
  inputs {c n x} hc hn hx := by
    rcases h.mem_body hg hc hn with ⟨hn, hno⟩ | ⟨_, hge, hlt⟩
    · rw [hno, mapNodes, Operator.inputs_mapInputs] at hx
      obtain ⟨y, hy, rfl⟩ := mem_map.mp hx
      exact h.rename_lt (hg.inputs hc hn hy)
    · exact (h.fresh hge hlt).inputs x hx
  op {c n} hc hn k i hop := by
    rcases h.mem_body hg hc hn with ⟨hn, hno⟩ | ⟨_, hge, hlt⟩
    · rw [hno] at hop
      exact hg.op hc hn k i (Operator.mapInputs_eq_blockParam hop)
    · have hpu := (h.fresh hge hlt).pure
      rw [hop] at hpu
      cases hpu
  nodup {c} hc := by
    by_cases hcb : c = b
    · subst hcb
      exact h.body.nodup (hg.nodup hc) fun _ => hg.body hc
    · rw [h.other hcb]
      exact hg.nodup hc
  apart {c c' n} hc hc' hn hn' := by
    rcases h.mem_body hg hc hn with ⟨hn, _⟩ | ⟨hcb, hge, _⟩ <;>
      rcases h.mem_body hg hc' hn' with ⟨hn', _⟩ | ⟨hcb', hg', _⟩
    · exact hg.apart hc hc' hn hn'
    · exact absurd (hg.body hc hn) (Nat.not_lt_of_le hg')
    · exact absurd (hg.body hc' hn') (Nat.not_lt_of_le hge)
    · exact hcb.trans hcb'.symm
  cont {c x} hc hx := by
    rw [h.cont, Continuation.inputs_mapNodes] at hx
    obtain ⟨y, hy, rfl⟩ := mem_map.mp hx
    exact h.rename_lt (hg.cont hc hy)
  target hc he' := by
    obtain ⟨e, he, rfl⟩ := h.exists_edge hg hc he'
    exact (hg.target hc he : e.target ∈ blocks)
  arity hc he' := by
    obtain ⟨e, he, rfl⟩ := h.exists_edge hg hc he'
    rw [h.params, Edge.mapArgs, length_map]
    exact hg.arity hc he
  args hc he' ha' := by
    obtain ⟨e, he, rfl⟩ := h.exists_edge hg hc he'
    obtain ⟨a, ha, rfl⟩ := mem_map.mp ha'
    exact h.rename_lt (hg.args hc he ha)

theorem handlerFree (hf : g.HandlerFree blocks) : g'.HandlerFree blocks where
  body {c n} hc hn := by
    rcases h.mem_body hg hc hn with ⟨hn, hno⟩ | ⟨_, hge, hlt⟩
    · rw [hno, mapNodes, hf.body hc hn]
      rfl
    · exact (h.fresh hge hlt).handler
  raise {c x handler} hc hco := by
    rw [h.cont] at hco
    obtain ⟨x', ha', hr, rfl⟩ := Continuation.exists_raise_of_mapNodes hco
    rw [hf.raise hc hr]
    rfl

end

end Refills

/-- `g'` comes from `g` by steps of inlining. -/
inductive Inlined (g : Graph) : Graph → Prop
  | refl : Inlined g g
  | refill {g' g'' b f} (h : Inlined g g')
      (step : Refills g' g'' b f) : Inlined g g''

namespace Inlined

variable {g g' g'' : Graph} {blocks : List BlockId}

theorem trans (h : Inlined g g') (h' : Inlined g' g'') : Inlined g g'' := by
  induction h' with
  | refl => exact h
  | refill _ step ih => exact ih.refill step

theorem inOrder (h : Inlined g g') (hg : g.InOrder blocks) : g'.InOrder blocks := by
  induction h with
  | refl => exact hg
  | refill _ step ih => exact step.inOrder ih

/-- What one step keeps, all steps keep. -/
theorem keeps {P : Graph → Prop} (h : Inlined g g') (hg : g.InOrder blocks)
    (hs : ∀ {g g'} {b} {f : NodeId → NodeId}, Refills g g' b f → g.InOrder blocks → P g → P g')
    (hP : P g) : P g' := by
  induction h with
  | refl => exact hP
  | refill h step ih => exact hs step (h.inOrder hg) ih

end Inlined

/-! ## The nodes of a callee -/

/-- Only nodes have been added, all of which compute. -/
structure Adds (g g' : Graph) : Prop where
  graph : Extends g g'
  blocks : g'.blocks = g.blocks
  fresh : ∀ {n}, g.nodes.size ≤ n → n < g'.nodes.size → g'.Computes n

theorem Adds.refl (g : Graph) : Adds g g :=
  ⟨.refl g, rfl, fun hge hlt => absurd hlt (Nat.not_lt_of_le hge)⟩

theorem Adds.addNode (h : Adds g g') {n} (hpu : n.op.isPure = true) (hh : n.handler = none)
    (hi : ∀ x ∈ n.op.inputs, x < g'.nodes.size) (hc : n.op.Codable n.kind) : Adds g (g'.addNode n).2 where
  graph := h.graph.trans (.addNode g' n)
  blocks := h.blocks
  fresh {m} hge hlt := by
    rw [addNode_size] at hlt
    by_cases hm : m = g'.nodes.size
    · have hn : (g'.addNode n).2.node m = n := by rw [node_addNode, if_pos hm]
      refine ⟨by rw [hn, hpu], by rw [hn, hh], fun x hx => ?_, by rwa [hn]⟩
      rw [hn] at hx
      rw [addNode_size]
      exact Nat.lt_succ_of_lt (hi x hx)
    · have hn : (g'.addNode n).2.node m = g'.node m := by rw [node_addNode, if_neg hm]
      have ho := h.fresh hge (Nat.lt_of_le_of_ne (Nat.le_of_lt_succ hlt) hm)
      refine ⟨by rw [hn, ho.pure], by rw [hn, ho.handler], fun x hx => ?_, hn ▸ ho.codable⟩
      rw [hn] at hx
      rw [addNode_size]
      exact Nat.lt_succ_of_lt (ho.inputs x hx)

/-- Inside a callee, whatever is held or read is an input of the call or was computed before. -/
structure Cursor.Expands (g : Graph) (args : List NodeId) (c : Cursor) : Prop where
  adds : Adds g c.graph
  args_lt : ∀ a ∈ args, a < g.nodes.size
  held : ∀ x ∈ c.held, x ∈ args ∨ x ∈ c.body.toList
  body : ∀ n ∈ c.body.toList, g.nodes.size ≤ n ∧ n < c.graph.nodes.size
  nodup : c.body.toList.Nodup
  reads : ∀ before y after, c.body.toList = before ++ y :: after →
    ∀ x ∈ (c.graph.node y).op.inputs, x ∈ args ∨ x ∈ before

namespace Cursor.Expands

variable {g : Graph} {c c' : Cursor}

theorem lt (h : c.Expands g args) {x} (hx : x ∈ args ∨ x ∈ c.body.toList) : x < c.graph.nodes.size := by
  rcases hx with hx | hx
  · exact Nat.lt_of_lt_of_le (h.args_lt x hx) h.adds.graph.size
  · exact (h.body x hx).2

theorem reframe (h : c.Expands g args) {frame}
    (hh : ∀ x ∈ frame.locals ++ frame.stack, x ∈ args ∨ x ∈ c.body.toList) :
    Cursor.Expands g args { c with frame } :=
  { h with held := hh }

theorem withStack (h : c.Expands g args) {stack} (hh : stack <:+ c.frame.stack) :
    (c.withStack stack).Expands g args :=
  h.reframe fun x hx => h.held x (Valid.mem_held_of_withStack hh hx)

/-- The node that was added last may be held too. -/
theorem reframe_append {n frame} (h : (c.append n).2.Expands g args)
    (hh : ∀ x ∈ frame.locals ++ frame.stack, x = c.graph.nodes.size ∨ x ∈ c.held) :
    Cursor.Expands g args { (c.append n).2 with frame } := by
  refine h.reframe fun x hx => ?_
  rcases hh x hx with rfl | hx
  · rw [c.append_body]
    exact .inr (mem_append_right _ mem_cons_self)
  · exact h.held x hx

theorem append (h : c.Expands g args) {n} (hpu : n.op.isPure = true) (hh : n.handler = none)
    (hi : ∀ x ∈ n.op.inputs, x ∈ args ∨ x ∈ c.body.toList) (hc : n.op.Codable n.kind) :
    (c.append n).2.Expands g args := by
  have hsi := c.append_size n
  have had := h.adds.addNode hpu hh (fun x hx => h.lt (hi x hx)) hc
  refine ⟨had, h.args_lt, fun x hx => ?_, fun m hm => ?_, ?_, ?_⟩
  · rw [c.append_body]
    exact (h.held x hx).imp_right (mem_append_left _)
  · rw [c.append_body, mem_append, mem_singleton] at hm
    rw [hsi]
    rcases hm with hm | rfl
    · exact ⟨(h.body m hm).1, Nat.lt_succ_of_lt (h.body m hm).2⟩
    · exact ⟨h.adds.graph.size, Nat.lt_succ_self _⟩
  · rw [c.append_body]
    refine nodup_append.mpr ⟨h.nodup, by simp, fun a ha b hb hab => ?_⟩
    rw [mem_singleton] at hb
    exact Nat.lt_irrefl _ (hab.trans hb ▸ (h.body a ha).2)
  · rw [c.append_body]
    refine forall_split_concat (fun before y after hs => ?_) ?_
    · have hy : y ∈ c.body.toList := hs ▸ mem_append_right _ mem_cons_self
      rw [c.append_node_lt n (h.body y hy).2]
      exact h.reads before y after hs
    · rw [c.append_node_self n]
      exact hi

/-- An expansion stays one after each step of the callee. -/
theorem step (h : c.Expands g args) {kinds bci op} (hs : StackStep c kinds bci op c') : c'.Expands g args := by
  cases hs with
  | frame locals stack hh _ _ => exact h.reframe fun x hx => h.held x (hh x hx)
  | node operator kind stack hh hi hpu _ _ hc =>
    have hn := (h.withStack hh).append (n := ⟨operator, kind, bci, none⟩) hpu rfl
      (fun x hx => h.held x (mem_append_right _ (hi x hx))) hc
    exact hn.reframe_append fun x hx => mem_cons.mp (perm_middle.mem_iff.mp hx)

end Cursor.Expands

/-- The nodes that take the place of a call are new ones, each once, and the value is a node. -/
structure Expansion.Fits (g g' : Graph) (e : Expansion) : Prop where
  body : ∀ n ∈ e.body, g.nodes.size ≤ n ∧ n < g'.nodes.size
  nodup : e.body.Nodup
  value : ∀ v, e.value = some v → v < g'.nodes.size

/-- What an expansion leaves, whether the callee fits or not. -/
structure Expanded (g : Graph) (r : Graph × Option Expansion) : Prop where
  adds : Adds g r.1
  fits : ∀ e, r.2 = some e → e.Fits g r.1

theorem Cursor.Expands.refused (h : c.Expands g args) : Expanded g (c.graph, none) :=
  ⟨h.adds, fun _ he => nomatch he⟩

theorem Cursor.Expands.accepted (h : c.Expands g args) {value} (hv : ∀ v, value = some v → v < c.graph.nodes.size) :
    Expanded g (c.graph, some ⟨c.body.toList, value⟩) := by
  refine ⟨h.adds, fun e he => ?_⟩
  cases he
  exact ⟨h.body, h.nodup, hv⟩

theorem expandFrom_expanded (ctx : Context) (result : Kind) (bci : Nat) :
    ∀ (insns : List Instruction) (pc : Nat) (c : Cursor), c.Expands g args →
      Expanded g (expandFrom ctx result bci pc insns c)
  | [], _, _, h => h.refused
  | insn :: insns, pc, c, h => by
    cases insn with
    | ret => exact h.accepted fun _ hv => nomatch hv
    | retValue =>
      rw [expandFrom]
      split
      · next value stack hs =>
        split
        · refine h.accepted fun v hv => ?_
          cases hv
          exact h.lt (h.held value (mem_append_right _ (hs ▸ mem_cons_self)))
        · exact h.refused
      · exact h.refused
    | stack op =>
      rw [expandFrom]
      split
      · next c' hst =>
        exact expandFrom_expanded ctx result bci insns (pc + 1) c'
          (h.step (Cursor.step_stackStep hst))
      · exact h.refused
    | _ => exact h.refused

/-- The next local of a callee starts with zero. -/
def Cursor.addZero (bci : Nat) (c : Cursor) (kind : Kind) : Cursor :=
  let (id, c) := c.append { op := .constant kind.zero, kind, bci }
  { c with frame := { c.frame with locals := c.frame.locals ++ [id] } }

/-- The cursor before the first instruction of a callee. -/
def Cursor.entering (g : Graph) (args : List NodeId) (kinds : List Kind) (bci : Nat) : Cursor :=
  (kinds.drop args.length).foldl (Cursor.addZero bci) ⟨g, ⟨args, []⟩, #[]⟩

theorem Cursor.Expands.addZero (h : c.Expands g args) (bci : Nat) (kind : Kind) :
    (c.addZero bci kind).Expands g args := by
  have hn : (c.append { op := .constant kind.zero, kind, bci }).2.Expands g args :=
    h.append rfl rfl (by simp [Operator.inputs]) trivial
  refine hn.reframe_append fun x hx => ?_
  rw [append_assoc] at hx
  exact mem_cons.mp (perm_middle.mem_iff.mp hx)

theorem Cursor.Expands.start (ha : ∀ a ∈ args, a < g.nodes.size) :
    Cursor.Expands g args ⟨g, ⟨args, []⟩, #[]⟩ :=
  ⟨.refl g, ha, fun x hx => .inl (by simpa [Cursor.held] using hx), by simp, by simp, by simp⟩

theorem expand_expanded (callee : Method) (bci : Nat) (ha : ∀ a ∈ args, a < g.nodes.size) :
    Expanded g (g.expand callee args bci) := by
  have hr : Expanded g (g, none) := ⟨.refl g, fun _ he => nomatch he⟩
  rw [expand]
  split
  · exact hr
  · next signature _ =>
    dsimp only
    split
    · exact hr
    · have hs := List.foldlRecOn (motive := Cursor.Expands g args) ((callee.localKinds signature).drop args.length)
        (Cursor.addZero bci) (.start ha) fun c h kind _ => h.addZero bci kind
      exact expandFrom_expanded _ _ _ _ _ _ hs

/-! ## The pass -/

def withBody (g : Graph) (b : BlockId) (body : List NodeId) : Graph := g.setBlock b { g.block b with body }

theorem block_withBody (hb : b < g.blocks.size) (body : List NodeId) (c : BlockId) :
    (g.withBody b body).block c = { g.block c with body := if c = b then body else (g.block c).body } := by
  rw [withBody, block_setBlock]
  by_cases hc : c = b
  · subst hc
    simp [hb]
  · simp [hc, show ¬ b = c from fun h => hc h.symm]

theorem withBody_self (g : Graph) (b : BlockId) : g.withBody b (g.block b).body = g := by
  have hbl : g.blocks.setIfInBounds b (g.block b) = g.blocks := by
    by_cases hb : b < g.blocks.size
    · have hs : g.block b = g.blocks[b] := by simp [block, hb]
      rw [hs, Array.setIfInBounds_def, dif_pos hb, Array.set_getElem_self]
    · exact Array.setIfInBounds_eq_of_size_le (Nat.le_of_not_lt hb)
  exact congrArg (fun blocks => { g with blocks }) hbl

theorem redirect_withBody (g : Graph) (b : BlockId) (body : List NodeId) (source target : NodeId) :
    (g.withBody b body).redirect source target = (g.redirect source target).withBody b body := by
  simp only [withBody, setBlock, block_redirect]
  simp only [redirect, Array.map_setIfInBounds]
  rfl

theorem Adds.refills (h : Adds g g') (hb : b < g.blocks.size) {old body}
    (hr : Refilled g g'.nodes.size old body) :
    Refills (g.withBody b old) (g'.withBody b body) b id := by
  have hb' : b < g'.blocks.size := h.blocks ▸ hb
  have hbl := block_congr h.blocks
  refine
    { blocks := by rw [withBody, withBody, setBlock_size, setBlock_size, h.blocks]
      size := h.graph.size
      rename_lt := fun hx => Nat.lt_of_lt_of_le hx h.graph.size
      node := fun hn => ?_
      fresh := fun hge hlt => { h.fresh hge hlt with }
      params := fun c => ?_
      cont := fun c => ?_
      other := fun hc => ?_
      body := ?_ }
  · rw [mapNodes_id]
    exact h.graph.node _ hn
  · rw [block_withBody hb', block_withBody hb, hbl]
  · rw [block_withBody hb', block_withBody hb, hbl, Continuation.mapNodes_id]
  · rw [block_withBody hb', block_withBody hb, hbl, if_neg hc, if_neg hc]
  · rw [block_withBody hb', block_withBody hb, if_pos rfl, if_pos rfl]
    obtain ⟨hc, hno, hf⟩ := hr
    exact ⟨hc, hno, hf⟩

theorem swap_lt {x} (ht : target < g.nodes.size) (hx : x < g.nodes.size) :
    swap source target x < g.nodes.size := by
  rw [swap]
  split
  · exact ht
  · exact hx

theorem size_redirect (g : Graph) (source target : NodeId) :
    (g.redirect source target).nodes.size = g.nodes.size := by
  rw [redirect, Array.size_map]

theorem Computes.redirect {n} (h : g.Computes n) (ht : target < g.nodes.size) :
    (g.redirect source target).Computes n := by
  refine ⟨?_, ?_, fun x hx => ?_, ?_⟩
  · rw [node_redirect, mapNodes, Operator.isPure_mapInputs]
    exact h.pure
  · rw [node_redirect, mapNodes, h.handler]
    rfl
  · rw [node_redirect, mapNodes, Operator.inputs_mapInputs] at hx
    obtain ⟨y, hy, rfl⟩ := mem_map.mp hx
    rw [size_redirect]
    exact swap_lt ht (h.inputs y hy)
  · rw [node_redirect]
    exact h.codable.mapInputs _

theorem Refills.redirect (h : Refills g g' b id) (ht : target < g'.nodes.size) :
    Refills g (g'.redirect source target) b (swap source target) := by
  have hs := size_redirect g' source target
  refine
    { blocks := by rw [Graph.redirect, Array.size_map, h.blocks]
      size := hs ▸ h.size
      rename_lt := fun hx => hs ▸ swap_lt ht (h.rename_lt hx)
      node := fun hn => ?_
      fresh := fun hge hlt => (h.fresh hge (hs ▸ hlt)).redirect ht
      params := fun c => ?_
      cont := fun c => ?_
      other := fun hc => ?_
      body := ?_ }
  · rw [node_redirect, h.node hn, mapNodes_id]
  · rw [block_redirect, h.params]
  · rw [block_redirect, h.cont, Continuation.mapNodes_id]
  · rw [block_redirect, h.other hc]
  · rw [block_redirect, hs]
    exact h.body

/-- The name under which a node is read after an expansion has taken the place of `n`. -/
def Expansion.rename (e : Expansion) (n : NodeId) : NodeId → NodeId :=
  match e.value with
  | some v => swap n v
  | none => id

/-- Where the expansion has a value, it is read in place of `n`. -/
def Expansion.redirect (e : Expansion) (n : NodeId) (g : Graph) : Graph :=
  match e.value with
  | some v => g.redirect n v
  | none => g

/-- The graph in which the nodes `todo` are still in their places. -/
def Inlining.view (s : Inlining) (b : BlockId) (todo : List NodeId) : Graph :=
  s.graph.withBody b (s.body.toList ++ todo)

theorem inlinee?_eq_some {provider limit n callee} (h : g.inlinee? provider limit n = some (callee, args)) :
    ∃ key, (g.node n).op = .callStatic key args ∧ key ≠ g.key ∧ provider key = some callee ∧
      isInlinable callee limit = true := by
  unfold inlinee? at h
  split at h
  · next key args' hop =>
    split at h
    · cases h
    · next hk =>
      split at h
      · next m hm =>
        split at h
        · next hi =>
          cases h
          exact ⟨key, hop, hk, hm, hi⟩
        · cases h
      · cases h
  · cases h

section
variable {provider : MethodProvider} {limit : Nat} {blocks : List BlockId} {b : BlockId} {n : NodeId}
  {todo : List NodeId} {s : Inlining}

/-- What passing a node can lead to: a graph, and the number of calls that were replaced. -/
inductive Passed (provider : MethodProvider) (limit : Nat) (s : Inlining) (b : BlockId) (n : NodeId)
    (todo : List NodeId) : Graph × Nat → Prop
  | stays (inlinee : s.graph.inlinee? provider limit n = none) :
      Passed provider limit s b n todo (s.view b (n :: todo), s.count)
  /-- The callee did not fit; some of its nodes have been made. -/
  | refused {callee args graph}
      (inlinee : s.graph.inlinee? provider limit n = some (callee, args))
      (adds : Adds s.graph graph)
      (expand : s.graph.expand callee args (s.graph.node n).bci = (graph, none)) :
      Passed provider limit s b n todo (graph.withBody b (s.body.toList ++ n :: todo), s.count)
  | replaced {callee args graph e}
      (inlinee : s.graph.inlinee? provider limit n = some (callee, args))
      (bound : ∀ a ∈ args, a < s.graph.nodes.size)
      (expand : s.graph.expand callee args (s.graph.node n).bci = (graph, some e)) :
      Passed provider limit s b n todo
        ((e.redirect n graph).withBody b (s.body.toList ++ e.body ++ todo), s.count + 1)

theorem inlineNode_passed (hin : ∀ x ∈ (s.graph.node n).op.inputs, x < s.graph.nodes.size) :
    Passed provider limit s b n todo
      ((inlineNode provider limit s n).view b todo, (inlineNode provider limit s n).count) := by
  have hs : (s.body.push n).toList ++ todo = s.body.toList ++ n :: todo := by simp
  unfold inlineNode
  split
  · next hi =>
    rw [Inlining.view, hs]
    exact .stays hi
  · next callee args hi =>
    have ha : ∀ a ∈ args, a < s.graph.nodes.size := by
      obtain ⟨key, hop, _⟩ := inlinee?_eq_some hi
      rw [hop] at hin
      exact hin
    have hexp := expand_expanded callee (s.graph.node n).bci ha
    split
    · next graph he =>
      rw [he] at hexp
      rw [Inlining.view, hs]
      exact .refused hi hexp.adds he
    · next graph e he =>
      have hv : ∀ g' : Graph, Inlining.view ⟨g', s.body ++ e.body, s.count + 1⟩ b todo =
          g'.withBody b (s.body.toList ++ e.body ++ todo) := fun g' => by
        simp [Inlining.view]
      rw [hv]
      exact .replaced hi ha he

section
variable (hb : b ∈ blocks)
include hb

theorem view_lt {body} (hg : (g.withBody b body).InOrder blocks) : b < g.blocks.size := by
  have := hg.lt hb
  rwa [withBody, setBlock_size] at this

theorem body_withBody {body} (hg : (g.withBody b body).InOrder blocks) :
    ((g.withBody b body).block b).body = body := by
  rw [block_withBody (view_lt hb hg), if_pos rfl]

theorem view_body (hg : (s.view b todo).InOrder blocks) :
    ((s.view b todo).block b).body = s.body.toList ++ todo :=
  body_withBody hb hg

theorem refused_refills (hg : (s.view b todo).InOrder blocks) {graph} (ha : Adds s.graph graph) :
    Refills (s.view b todo) (graph.withBody b (s.body.toList ++ todo)) b id :=
  ha.refills (view_lt hb hg) (.refl _ _ _)

theorem view_inputs (hg : (s.view b (n :: todo)).InOrder blocks) :
    ∀ x ∈ (s.graph.node n).op.inputs, x < s.graph.nodes.size := fun _ hx =>
  hg.inputs hb (view_body hb hg ▸ mem_append_right _ mem_cons_self) hx

/-- Other nodes take the place of one. -/
theorem replaced_refills (hg : (s.view b (n :: todo)).InOrder blocks) {e : Expansion}
    {graph callee args} (hop : (s.graph.node n).op = .callStatic callee args) (ha : Adds s.graph graph)
    (hf : e.Fits s.graph graph) :
    Refills (s.view b (n :: todo)) ((e.redirect n graph).withBody b (s.body.toList ++ e.body ++ todo)) b
      (e.rename n) := by
  have hr : Refills (s.view b (n :: todo)) (graph.withBody b (s.body.toList ++ e.body ++ todo)) b id := by
    rw [append_assoc]
    exact ha.refills (view_lt hb hg) (.mk (forall_mem_singleton.mpr ⟨callee, args, hop⟩) hf.nodup hf.body)
  rw [Expansion.redirect, Expansion.rename]
  cases hv : e.value with
  | none => exact hr
  | some v =>
    simp only [← redirect_withBody]
    exact hr.redirect (hf.value v hv)

end

/-- What holds before the pass, and is kept on the way into a block and past each node, holds behind
it; it may depend on what is still to be passed. -/
theorem foldl_inlineBlock_induct {P : Graph × Nat → List BlockId → List NodeId → Prop}
    (ho : ∀ {r bs todo}, P r bs todo → r.1.InOrder blocks)
    (he : ∀ {r b bs}, P r (b :: bs) [] → P r bs (r.1.block b).body)
    (hpa : ∀ {s b n bs todo r}, b ∈ blocks → P (s.view b (n :: todo), s.count) bs (n :: todo) →
      Passed provider limit s b n todo r → P r bs todo) :
    ∀ bs r, (∀ b ∈ bs, b ∈ blocks) → P r bs [] → P (bs.foldl (inlineBlock provider limit) r) [] []
  | [], _, _, h => h
  | b :: bs, r, hbl, h => by
    have hn : ∀ (todo : List NodeId) (s : Inlining), P (s.view b todo, s.count) bs todo →
        P ((todo.foldl (inlineNode provider limit) s).view b [],
          (todo.foldl (inlineNode provider limit) s).count) bs [] := by
      intro todo
      induction todo with
      | nil => exact fun s hs => hs
      | cons n todo ih =>
        intro s hs
        have hb := hbl b mem_cons_self
        exact ih _ (hpa hb hs (inlineNode_passed (view_inputs hb (ho hs))))
    have hst : Inlining.view ⟨r.1, #[], r.2⟩ b (r.1.block b).body = r.1 := withBody_self r.1 b
    have hd := hn (r.1.block b).body ⟨r.1, #[], r.2⟩ (by rw [hst]; exact he h)
    rw [Inlining.view, append_nil] at hd
    exact foldl_inlineBlock_induct (P := P) ho he hpa bs _ (fun c hc => hbl c (mem_cons_of_mem _ hc)) hd

end

/-- **Inlining is a sequence of steps**, whatever the provider answers. -/
theorem inlineCalls_inlined (hg : g.InOrder g.reachable) (provider : MethodProvider) (limit : Nat) :
    Inlined g (g.inlineCalls provider limit).1 := by
  refine (foldl_inlineBlock_induct (P := fun r _ _ => r.1.InOrder g.reachable ∧ Inlined g r.1) (·.1) id
    (fun hb h hpa => ?_) _ _ (fun _ hb => hb) ⟨hg, .refl⟩).2
  obtain ⟨hg', h⟩ := h
  suffices hs : Inlined _ _ from ⟨hs.inOrder hg', h.trans hs⟩
  cases hpa with
  | stays => exact .refl
  | refused _ ha => exact .refill .refl (refused_refills hb hg' ha)
  | @replaced callee args graph e hi har hexp =>
    obtain ⟨key, hop, -⟩ := inlinee?_eq_some hi
    have he := hexp ▸ expand_expanded callee _ har
    exact .refill .refl (replaced_refills hb hg' hop he.adds (he.fits e rfl))

theorem Inlined.plain (h : Inlined g g') (hg : g.Plain) : g'.Plain := by
  have ho := hg.proper.inOrder hg.placed
  have ho' := h.inOrder ho
  have hf := h.keeps ho (fun step hg => step.handlerFree hg) hg.free
  exact ⟨ho'.proper, ho'.placed, fun hb => hf.body (ho'.mem_of_reachable hb),
    fun hb => hf.raise (ho'.mem_of_reachable hb)⟩

/-! ## All passes -/

theorem simplifyWithin_cleaned : ∀ (fuel : Nat) {g : Graph} (stats : OptimizerStats), g.Proper → g.Placed →
    Cleaned g (simplifyWithin fuel (g, stats)).1
  | 0, _, _, _, _ => .refl
  | fuel + 1, g, stats, hp, hpl => by
    have h₁ := foldConstants_cleaned hp hpl
    rcases hf : g.foldConstants with ⟨g₁, folded⟩
    rw [hf] at h₁
    obtain ⟨hp₁, hpl₁⟩ := h₁.ordered hp hpl
    have h₂ := h₁.trans (foldBranches_cleaned hp₁ hpl₁)
    rcases hbr : g₁.foldBranches with ⟨g₂, branches⟩
    rw [hbr] at h₂
    obtain ⟨hp₂, hpl₂⟩ := h₂.ordered hp hpl
    have h₃ := h₂.trans (removeTrivialParams_cleaned hp₂ hpl₂)
    rcases hpa : g₂.removeTrivialParams with ⟨g₃, params⟩
    rw [hpa] at h₃
    obtain ⟨hp₃, hpl₃⟩ := h₃.ordered hp hpl
    simp only [simplifyWithin, hf, hbr, hpa]
    split
    · exact h₃
    · exact h₃.trans (simplifyWithin_cleaned fuel _ hp₃ hpl₃)

/-- Inlining, if it is asked for. -/
def inlineAsked (options : OptimizerOptions) (provider : MethodProvider) (g : Graph) : Graph × Nat :=
  if options.inlines then g.inlineCalls provider options.inlineLimit else (g, 0)

section
variable (hp : g.Proper) (hpl : g.Placed) (options : OptimizerOptions) (provider : MethodProvider)
include hp hpl

/-- All passes, with any options and provider: inlining, if it is asked for, then clean-up. -/
theorem optimize_steps : Inlined g (inlineAsked options provider g).1 ∧
    Cleaned (inlineAsked options provider g).1 (g.optimize options provider).1 := by
  have ho := hp.inOrder hpl
  have hi : Inlined g (inlineAsked options provider g).1 := by
    rw [inlineAsked]
    split
    · exact inlineCalls_inlined ho provider _
    · exact .refl
  refine ⟨hi, ?_⟩
  have ho₁ := hi.inOrder ho
  have hpr : ∀ {g₂ : Graph}, Cleaned (inlineAsked options provider g).1 g₂ →
      Cleaned (inlineAsked options provider g).1 g₂.prune.1 := fun h =>
    h.trans (prune_cleaned (h.ordered ho₁.proper ho₁.placed).1)
  simp only [optimize]
  split
  · exact hpr (simplifyWithin_cleaned _ _ ho₁.proper ho₁.placed)
  · exact hpr (removeTrivialParams_cleaned ho₁.proper ho₁.placed)

theorem optimize_ordered : (g.optimize options provider).1.Proper ∧ (g.optimize options provider).1.Placed := by
  obtain ⟨hi, hc⟩ := optimize_steps hp hpl options provider
  have ho := hi.inOrder (hp.inOrder hpl)
  exact hc.ordered ho.proper ho.placed

/-- What single steps of inlining and single changes keep, all passes keep. -/
theorem optimize_keeps {P : Graph → List BlockId → Prop}
    (hf : ∀ {g} {blocks blocks'}, (∀ b ∈ blocks', b ∈ blocks) → P g blocks → P g blocks')
    (hr : ∀ {g g'} {b} {f : NodeId → NodeId} {blocks}, Refills g g' b f →
      g.InOrder blocks → P g blocks → P g' blocks)
    (ht : ∀ {c : Change} {g g'}, c.Turns g g' → g.Proper → P g g.reachable → P g' g'.reachable)
    (h : P g g.reachable) : P (g.optimize options provider).1 (g.optimize options provider).1.reachable := by
  obtain ⟨hi, hc⟩ := optimize_steps hp hpl options provider
  have ho := hp.inOrder hpl
  have ho₁ := hi.inOrder ho
  refine hc.keeps ho₁.proper ho₁.placed ht ?_
  exact hf (fun _ => ho₁.mem_of_reachable) (hi.keeps ho hr h)

end

theorem optimize_plain (hg : g.Plain) (options : OptimizerOptions) (provider : MethodProvider) :
    (g.optimize options provider).1.Plain := by
  obtain ⟨hi, hc⟩ := optimize_steps hg.proper hg.placed options provider
  exact hc.plain (hi.plain hg)

end Graph
end StackCompiler
