/-
Reading a block, from its first instruction to its exit. At every point the
nodes in the frame are parameters or earlier nodes with a value, and locals have
their declared kinds (`Cursor.Valid`).
-/
import StackCompiler.Graph.Prune
import StackCompiler.Proofs.BuildStep

namespace StackCompiler

open List

/-- Whether the evaluation of a node leaves a value: polls and calls of kind void do not. -/
def Node.hasValue (n : Node) : Bool :=
  match n.op with
  | .safepoint => false
  | op => !(op.canThrow && n.kind = .void)

theorem Node.hasValue_of_isPure {n : Node} (h : n.op.isPure = true) : n.hasValue = true := by
  obtain ⟨op, kind, bci, handler⟩ := n
  cases op <;> simp_all [Node.hasValue, Operator.isPure, Operator.canThrow]

theorem Node.hasValue_of_service {n : Node} {service} (h : n.op.service? = some service) (hk : n.kind ≠ .void) :
    n.hasValue = true := by
  obtain ⟨op, kind, bci, handler⟩ := n
  cases op <;> cases h <;> simpa [Node.hasValue, Operator.canThrow] using hk

theorem Node.hasValue_of_void {n : Node} {service} (h : n.op.service? = some service) (hk : n.kind = .void) :
    n.hasValue = false := by
  obtain ⟨op, kind, bci, handler⟩ := n
  cases op <;> cases h <;> simpa [Node.hasValue, Operator.canThrow] using hk

theorem forall_split_concat {α : Type} {P : List α → α → Prop} {xs} {x}
    (h : ∀ before y after, xs = before ++ y :: after → P before y) (hx : P xs x) :
    ∀ before y after, xs ++ [x] = before ++ y :: after → P before y := by
  intro before y after heq
  rcases eq_nil_or_concat after with rfl | ⟨after, z, rfl⟩
  · obtain ⟨rfl, hy⟩ := append_inj' heq rfl
    cases hy
    exact hx
  · rw [concat_eq_append, ← cons_append, ← append_assoc] at heq
    obtain ⟨hxs, _⟩ := append_inj' heq rfl
    exact h before y after hxs

namespace Graph

/-- Everything is as it was, perhaps with more nodes. -/
structure Extends (g g' : Graph) : Prop where
  size : g.nodes.size ≤ g'.nodes.size
  node : ∀ n, n < g.nodes.size → g'.node n = g.node n
  signature : g'.signature = g.signature
  key : g'.key = g.key

namespace Extends

variable {g g' g'' : Graph}

theorem refl (g : Graph) : Extends g g := ⟨Nat.le_refl _, fun _ _ => rfl, rfl, rfl⟩

theorem trans (h : Extends g g') (h' : Extends g' g'') : Extends g g'' where
  size := Nat.le_trans h.size h'.size
  node n hn := by rw [h'.node n (Nat.lt_of_lt_of_le hn h.size), h.node n hn]
  signature := by rw [h'.signature, h.signature]
  key := by rw [h'.key, h.key]

theorem kindOf (h : Extends g g') {n} (hn : n < g.nodes.size) : g'.kindOf n = g.kindOf n := by
  rw [Graph.kindOf, h.node n hn, Graph.kindOf]

theorem map_kindOf (h : Extends g g') {ns : List NodeId} (hn : ∀ n ∈ ns, n < g.nodes.size) :
    ns.map g'.kindOf = ns.map g.kindOf :=
  map_congr_left fun n hm => h.kindOf (hn n hm)

theorem addNode (g : Graph) (n : Node) : Extends g (g.addNode n).2 where
  size := by rw [addNode_size]; exact Nat.le_succ _
  node id hid := by rw [node_addNode, if_neg (Nat.ne_of_lt hid)]
  signature := rfl
  key := rfl

theorem setBlock (g : Graph) (i : BlockId) (b : Block) : Extends g (g.setBlock i b) :=
  ⟨Nat.le_refl _, fun _ _ => rfl, rfl, rfl⟩

theorem hasKind (h : Extends g g') {op : Operator} {k} (hop : op.HasKind g.kindOf g.signature k)
    (hr : ∀ n ∈ op.inputs, n < g.nodes.size) :
    op.HasKind g'.kindOf g'.signature k := by
  cases op with
  | callStatic callee args =>
    have ha : args.map g'.kindOf = args.map g.kindOf := h.map_kindOf hr
    simpa only [Operator.HasKind, ha] using hop
  | _ => simp_all [Operator.HasKind, Operator.inputs, h.kindOf, h.signature]

end Extends

theorem node_append {g} {c : Cursor} {n} (h : Extends (c.append n).2.graph g) :
    g.node c.graph.nodes.size = n :=
  (h.node _ (c.append_fst_lt n)).trans (c.append_node_self n)

/-- What a place in a block may read: the block's parameters and earlier nodes with a value. -/
def Visible (g : Graph) (params before : List NodeId) (n : NodeId) : Prop :=
  n ∈ params ∨ n ∈ before ∧ (g.node n).hasValue = true

variable {before params : List NodeId} {g g' : Graph}

theorem Visible.mono {before' n} (h : Visible g params before n) (hg : Extends g g')
    (hr : ∀ n ∈ before, n < g.nodes.size) (hb : ∀ n ∈ before, n ∈ before') :
    Visible g' params before' n := by
  rcases h with h | ⟨hm, hv⟩
  · exact .inl h
  · exact .inr ⟨hb n hm, by rw [hg.node n (hr n hm)]; exact hv⟩

theorem Visible.of_concat {x y} (h : Visible g params (before ++ [y]) x) :
    x = y ∧ (g.node y).hasValue = true ∨ Visible g params before x := by
  rcases h with h | ⟨h, hv⟩
  · exact .inr (.inl h)
  · rcases mem_append.mp h with h | h
    · exact .inr (.inr ⟨h, hv⟩)
    · obtain rfl := mem_singleton.mp h
      exact .inl ⟨rfl, hv⟩

/-- An edge that an exception may take: to a handler of the method, with values for the locals. -/
structure Plan.Catches (p : Plan) (g : Graph) (params before : List NodeId) (e : Edge) : Prop where
  handler : ∃ h ∈ p.method.handlers, p.outline.block? h.entry = some e.target
  kinds : e.args.map g.kindOf = p.context.localKinds
  visible : ∀ a ∈ e.args, Visible g params before a

/-- What holds of a node in the body of a block. -/
structure Plan.NodeValid (p : Plan) (g : Graph) (params before : List NodeId) (n : NodeId) : Prop where
  inputs : ∀ x ∈ (g.node n).op.inputs, Visible g params before x
  hasKind : (g.node n).op.HasKind g.kindOf g.signature (g.node n).kind
  catches : ∀ e, (g.node n).handler = some e →
    (g.node n).op.canThrow = true ∧ p.Catches g params before e
  codable : (g.node n).op.Codable (g.node n).kind

theorem Plan.Catches.extend {p : Plan} {e} (h : p.Catches g params before e) (hg : Extends g g')
    (hlt : ∀ n, Visible g params before n → n < g.nodes.size) (hb : ∀ n ∈ before, n < g.nodes.size) :
    p.Catches g' params before e where
  handler := h.handler
  kinds := by
    rw [hg.map_kindOf fun a ha => hlt a (h.visible a ha)]
    exact h.kinds
  visible a ha := (h.visible a ha).mono hg hb fun _ h => h

theorem Plan.NodeValid.extend {p : Plan} {n} (h : p.NodeValid g params before n) (hg : Extends g g')
    (hlt : ∀ n, Visible g params before n → n < g.nodes.size)
    (hb : ∀ n ∈ before, n < g.nodes.size) (hn : n < g.nodes.size) : p.NodeValid g' params before n := by
  refine ⟨?_, ?_, ?_, ?_⟩ <;> rw [hg.node n hn]
  · exact fun x hx => (h.inputs x hx).mono hg hb fun _ h => h
  · exact hg.hasKind h.hasKind fun x hx => hlt x (h.inputs x hx)
  · exact fun e he => (h.catches e he).imp (fun h => h) fun h => h.extend hg hlt hb
  · exact h.codable

/-- The block under construction has grown; no other has changed. -/
structure Cursor.Grown (c c' : Cursor) : Prop where
  graph : Extends c.graph c'.graph
  blocks : c'.graph.blocks = c.graph.blocks
  body : c.body.toList <+: c'.body.toList

namespace Cursor.Grown

variable {c c' c'' : Cursor}

theorem refl (c : Cursor) : Grown c c := ⟨.refl _, rfl, prefix_rfl⟩

theorem trans (h : Grown c c') (h' : Grown c' c'') : Grown c c'' where
  graph := h.graph.trans h'.graph
  blocks := h'.blocks.trans h.blocks
  body := h.body.trans h'.body

theorem append (c : Cursor) (n : Node) : Grown c (c.append n).2 where
  graph := .addNode _ _
  blocks := rfl
  body := by simp [Cursor.append]

theorem push (h : Grown c c') (id : NodeId) : Grown c (c'.push id) := { h with }

theorem call (p : Plan) (c : Cursor) (op : Operator) (k : Kind) (pc : Nat) : Grown c (p.call c op k pc) := by
  unfold Plan.call
  dsimp only
  split
  · exact append c _
  · exact (append c _).push _

theorem poll (c : Cursor) (pc target : Nat) : Grown c (Plan.poll c pc target) :=
  Plan.poll_cases (fun _ => append c _) fun _ => refl c

theorem of_stepSpec {p pc insn x} (hs : Plan.StepSpec p c pc insn c' x) : Grown c c' := by
  cases hs with
  | stack hst =>
    cases hst with
    | frame locals stack _ _ _ => exact { refl c with }
    | node operator kind stack _ _ _ _ _ =>
      have h := (append (c.withStack stack) ⟨operator, kind, pc, none⟩).push c.graph.nodes.size
      exact { h with }
  | ask operator service stack _ _ _ _ =>
    have h := call p (c.withStack stack) operator service.result pc
    exact { h with }
  | poll => exact append c _
  | jump target => exact poll c pc target
  | branchConst cond v lhs stack target _ _ _ =>
    have h := (append (c.withStack stack) ⟨.constant v, v.kind, pc, none⟩).trans (poll _ pc target)
    exact { h with }
  | branchCompare cond lhs rhs stack target _ _ =>
    have h := poll (c.withStack stack) pc target
    exact { h with }
  | raise _ _ _ _ | retValue _ _ _ => exact { refl c with }
  | ret => exact refl c

end Cursor.Grown

/-- What holds at every point inside a block. The nodes of its body are numbered from `base` on. -/
structure Cursor.Valid (p : Plan) (params : List NodeId) (base : Nat) (c : Cursor) : Prop where
  locals : c.frame.locals.map c.graph.kindOf = p.context.localKinds
  held : ∀ n ∈ c.held, Visible c.graph params c.body.toList n
  params_lt : ∀ n ∈ params, n < base
  body_mem : ∀ n ∈ c.body.toList, base ≤ n ∧ n < c.graph.nodes.size
  base_le : base ≤ c.graph.nodes.size
  nodup : c.body.toList.Nodup
  nodes : ∀ before n after, c.body.toList = before ++ n :: after →
    p.NodeValid c.graph params before n

namespace Cursor.Valid

variable {p : Plan} {params : List NodeId} {base : Nat} {c : Cursor}

variable {n : NodeId}

theorem visible_lt (h : c.Valid p params base)
    (hn : Visible c.graph params c.body.toList n) : n < c.graph.nodes.size := by
  rcases hn with hn | ⟨hn, _⟩
  · exact Nat.lt_of_lt_of_le (h.params_lt n hn) h.base_le
  · exact (h.body_mem n hn).2

theorem visible_grown (h : c.Valid p params base) {c'} (hg : c.Grown c')
    (hn : Visible c.graph params c.body.toList n) : Visible c'.graph params c'.body.toList n :=
  hn.mono hg.graph (fun x hx => (h.body_mem x hx).2) hg.body.subset

theorem held_lt (h : c.Valid p params base) (hn : n ∈ c.held) : n < c.graph.nodes.size :=
  h.visible_lt (h.held n hn)

theorem mem_held_of_stack (h : n ∈ c.frame.stack) : n ∈ c.held :=
  mem_append_right _ h

theorem mem_held_of_locals (h : n ∈ c.frame.locals) : n ∈ c.held :=
  mem_append_left _ h

theorem mem_held_of_values (h : n ∈ c.frame.values) : n ∈ c.held := by
  rcases mem_append.mp h with h | h
  · exact mem_held_of_locals h
  · exact mem_held_of_stack (mem_reverse.mp h)

theorem mem_held_of_withStack {stack} (hs : stack <:+ c.frame.stack) (h : n ∈ (c.withStack stack).held) :
    n ∈ c.held := by
  rcases mem_append.mp h with h | h
  · exact mem_held_of_locals h
  · exact mem_held_of_stack (hs.subset h)

section
variable (h : c.Valid p params base)
include h

theorem values_lt : ∀ n ∈ c.frame.values, n < c.graph.nodes.size :=
  fun _ hn => h.held_lt (mem_held_of_values hn)

theorem stack_lt : ∀ n ∈ c.frame.stack, n < c.graph.nodes.size :=
  fun _ hn => h.held_lt (mem_held_of_stack hn)

theorem length_locals : c.frame.locals.length = p.context.localKinds.length := by
  rw [← h.locals, length_map]

theorem kinds_locals {g} (hg : Extends c.graph g) : c.frame.locals.map g.kindOf = p.context.localKinds := by
  rw [hg.map_kindOf fun n hn => h.held_lt (mem_held_of_locals hn)]
  exact h.locals

theorem reframe {locals stack} (hh : ∀ n ∈ locals ++ stack, n ∈ c.held)
    (hk : locals.map c.graph.kindOf = p.context.localKinds) :
    Cursor.Valid p params base { c with frame := ⟨locals, stack⟩ } :=
  { h with locals := hk, held := fun n hn => h.held n (hh n hn) }

theorem withStack {stack} (hs : stack <:+ c.frame.stack) :
    (c.withStack stack).Valid p params base :=
  h.reframe (fun _ hn => mem_held_of_withStack hs hn) h.locals

theorem append {n} (hi : ∀ x ∈ n.op.inputs, Visible c.graph params c.body.toList x)
    (hk : n.op.HasKind c.graph.kindOf c.graph.signature n.kind)
    (hc : ∀ e, n.handler = some e → n.op.canThrow = true ∧ p.Catches c.graph params c.body.toList e)
    (hco : n.op.Codable n.kind) :
    (c.append n).2.Valid p params base := by
  have hext := Extends.addNode c.graph n
  have hbo := c.append_body n
  have hlt : ∀ x ∈ c.body.toList, x < c.graph.nodes.size := fun x hx => (h.body_mem x hx).2
  have hv : ∀ before, (∀ x ∈ before, x ∈ c.body.toList) → ∀ x,
      Visible c.graph params before x → x < c.graph.nodes.size := fun before hb x hx =>
    h.visible_lt (hx.mono (.refl _) (fun y hy => hlt y (hb y hy)) hb)
  refine
    { locals := ?_, held := ?_, params_lt := h.params_lt, body_mem := ?_, base_le := ?_,
      nodup := ?_, nodes := ?_ }
  · exact h.kinds_locals hext
  · exact fun x hx => h.visible_grown (.append c n) (h.held x hx)
  · intro x hx
    rw [hbo, mem_append, mem_singleton] at hx
    rw [append_size]
    rcases hx with hx | rfl
    · exact ⟨(h.body_mem x hx).1, Nat.lt_succ_of_lt (h.body_mem x hx).2⟩
    · exact ⟨h.base_le, Nat.lt_succ_self _⟩
  · exact Nat.le_trans h.base_le hext.size
  · rw [hbo]
    refine nodup_append.mpr ⟨h.nodup, by simp, fun a ha b hb hab => ?_⟩
    rw [mem_singleton] at hb
    exact Nat.lt_irrefl _ (hab.trans hb ▸ hlt a ha)
  · rw [hbo]
    refine forall_split_concat (fun before y after heq => ?_) ?_
    · have hme : ∀ x ∈ before, x ∈ c.body.toList := fun x hx => by
        rw [heq]
        exact mem_append_left _ hx
      exact (h.nodes before y after heq).extend hext (hv before hme)
        (fun x hx => hlt x (hme x hx)) (hlt y (by rw [heq]; simp))
    · refine ⟨?_, ?_, ?_, ?_⟩ <;> rw [append_node_self]
      · exact fun x hx => (hi x hx).mono hext hlt fun _ h => h
      · exact hext.hasKind hk fun x hx => h.visible_lt (hi x hx)
      · exact fun e he => (hc e he).imp (fun h => h) fun hx =>
          hx.extend hext (hv c.body.toList fun _ h => h) hlt
      · exact hco

theorem push {id} (hid : Visible c.graph params c.body.toList id) :
    (c.push id).Valid p params base :=
  { h with
    held := fun n hn => by
      rcases mem_append.mp hn with hn | hn
      · exact h.held n (mem_held_of_locals hn)
      · rcases mem_cons.mp hn with rfl | hn
        · exact hid
        · exact h.held n (mem_held_of_stack hn) }

end

theorem visible_append (c : Cursor) (params : List NodeId) {n} (hv : n.hasValue = true) :
    Visible (c.append n).2.graph params (c.append n).2.body.toList c.graph.nodes.size := by
  refine .inr ⟨by simp [append_body], ?_⟩
  rw [append_node_self]
  exact hv

theorem pushNew (h : c.Valid p params base) {op k bci}
    (hi : ∀ x ∈ op.inputs, Visible c.graph params c.body.toList x)
    (hk : op.HasKind c.graph.kindOf c.graph.signature k) (hv : ({ op, kind := k, bci } : Node).hasValue = true)
    (hc : op.Codable k) :
    (c.pushNew op k bci).Valid p params base :=
  (h.append hi hk (by simp) hc).push (visible_append c params hv)

end Cursor.Valid

/-! ## One step -/

namespace Plan

variable {p : Plan} {params : List NodeId} {base pc : Nat} {c c' : Cursor}

theorem handlerEdge_eq_some {frame e} (h : p.handlerEdge pc frame = some e) :
    ∃ x, p.method.handlerFor? pc = some x ∧ p.outline.block? x.entry = some e.target ∧
      e.args = frame.locals := by
  unfold handlerEdge at h
  split at h
  · cases h
  · next x hx =>
    obtain ⟨b, hb, rfl⟩ := Option.map_eq_some_iff.mp h
    exact ⟨x, hx, hb, rfl⟩

theorem catches_handlerEdge (h : c.Valid p params base) {e} (he : p.handlerEdge pc c.frame = some e) :
    p.Catches c.graph params c.body.toList e := by
  obtain ⟨x, hx, hb, har⟩ := handlerEdge_eq_some he
  refine ⟨⟨x, mem_of_find?_eq_some hx, hb⟩, ?_, fun a ha => ?_⟩
  · rw [har]
    exact h.locals
  · rw [har] at ha
    exact h.held a (Cursor.Valid.mem_held_of_locals ha)

/-- What an exit reads is visible. -/
def ExitValid (p : Plan) (g : Graph) (params body : List NodeId) : Exit → Prop
  | .jump _ | .ret none => True
  | .branch _ lhs rhs _ _ => Visible g params body lhs ∧ Visible g params body rhs
  | .ret (some x) => Visible g params body x
  | .raise x handler =>
    Visible g params body x ∧ g.kindOf x = .reference ∧
      ∀ e, handler = some e → p.Catches g params body e

section
variable (h : c.Valid p params base)
include h

theorem call_valid {operator service} (hs : operator.service? = some service) {stack}
    (hst : stack <:+ c.frame.stack) (hin : ∀ n ∈ operator.inputs, n ∈ c.frame.stack)
    (hki : operator.HasKind c.graph.kindOf c.graph.signature service.result) (hc : operator.Codable service.result) :
    (p.call (c.withStack stack) operator service.result pc).Valid p params base := by
  have ht : operator.canThrow = true := by
    rw [← operator.isSome_service?, hs]
    rfl
  have ha := (h.withStack hst).append
    (n := ⟨operator, service.result, pc, p.handlerEdge pc (c.withStack stack).frame⟩)
    (fun x hx => h.held x (Cursor.Valid.mem_held_of_stack (hin x hx)))
    hki
    (fun e he => ⟨ht, catches_handlerEdge (h.withStack hst) he⟩)
    hc
  unfold call
  dsimp only
  split
  · exact ha
  · next hk =>
    exact ha.push (Cursor.Valid.visible_append _ params (Node.hasValue_of_service hs hk))

theorem addPoll_valid : (c.addPoll pc).Valid p params base :=
  h.append (by simp [Operator.inputs]) rfl (by simp) trivial

theorem poll_valid (target : Nat) : (poll c pc target).Valid p params base :=
  poll_cases (fun _ => addPoll_valid h) fun _ => h

/-- One step keeps what holds inside a block. -/
theorem StepSpec.valid {insn x} (hs : StepSpec p c pc insn c' x) :
    c'.Valid p params base ∧
      ∀ exit, x = some exit → p.ExitValid c'.graph params c'.body.toList exit := by
  have hv : ∀ {n}, n ∈ c.frame.stack → Visible c.graph params c.body.toList n :=
    fun hn => h.held _ (Cursor.Valid.mem_held_of_stack hn)
  have hst : ∀ {n}, n ∈ c.frame.stack → Visible c'.graph params c'.body.toList n :=
    fun hn => h.visible_grown (.of_stepSpec hs) (hv hn)
  cases hs with
  | stack hste =>
    refine ⟨?_, by simp⟩
    cases hste with
    | frame locals stack hh hkin _ => exact h.reframe hh (hkin h.locals)
    | node operator kind stack hh hin hp hki _ hc =>
      exact (h.withStack hh).pushNew (fun x hx => hv (hin x hx)) hki
        (Node.hasValue_of_isPure hp) hc
  | ask operator service stack hse hh hin _ hki hc =>
    exact ⟨call_valid h hse hh hin hki hc, by simp⟩
  | poll => exact ⟨addPoll_valid h, by simp⟩
  | jump target =>
    refine ⟨poll_valid h target, ?_⟩
    rintro _ ⟨⟩
    trivial
  | branchConst cond v lhs stack target hs _ _ =>
    have hco : ((c.withStack stack).addConstant v pc).Valid p params base :=
      (h.withStack ⟨[lhs], hs.symm⟩).append (by simp [Operator.inputs]) (by cases v <;> rfl) (by simp) trivial
    refine ⟨poll_valid hco target, ?_⟩
    rintro _ ⟨⟩
    exact ⟨hst (by rw [hs]; exact mem_cons_self), hco.visible_grown (.poll _ _ _)
      (Cursor.Valid.visible_append (c.withStack stack) params (Node.hasValue_of_isPure rfl))⟩
  | branchCompare cond lhs rhs stack target hs _ =>
    refine ⟨poll_valid (h.withStack ⟨[rhs, lhs], hs.symm⟩) target, ?_⟩
    rintro _ ⟨⟩
    exact ⟨hst (by rw [hs]; simp), hst (by rw [hs]; simp)⟩
  | raise x stack hs hk =>
    refine ⟨h.withStack ⟨[x], hs.symm⟩, ?_⟩
    rintro _ ⟨⟩
    exact ⟨hst (by rw [hs]; exact mem_cons_self), hk, fun e he => catches_handlerEdge h he⟩
  | ret =>
    refine ⟨h, ?_⟩
    rintro _ ⟨⟩
    trivial
  | retValue x stack hs =>
    refine ⟨h.withStack ⟨[x], hs.symm⟩, ?_⟩
    rintro _ ⟨⟩
    exact hst (by rw [hs]; exact mem_cons_self)

end

end Plan

/-! ## The whole block -/

namespace Plan

/-- A block is read from `pc` on, up to the start of another block or an instruction that ends it. -/
inductive Runs (p : Plan) (start : Nat) : Nat → Cursor → Cursor → Exit → Prop
  | leader {pc c} (ne : pc ≠ start) (isLeader : p.outline.isLeader pc = true) : Runs p start pc c c (.jump pc)
  | exit {pc insn c c' x} (inside : ¬ (pc ≠ start ∧ p.outline.isLeader pc = true))
      (code : p.method.code[pc]? = some insn) (step : p.StepSpec c pc insn c' (some x)) : Runs p start pc c c' x
  | next {pc insn c c₁ c' x} (inside : ¬ (pc ≠ start ∧ p.outline.isLeader pc = true))
      (code : p.method.code[pc]? = some insn) (step : p.StepSpec c pc insn c₁ none)
      (rest : Runs p start (pc + 1) c₁ c' x) : Runs p start pc c c' x

theorem runs_of_run {p : Plan} {start} : ∀ {insns : List Instruction} {pc : Nat} {c c' : Cursor} {exit : Exit},
    insns = p.method.code.drop pc → p.run start pc insns c = .ok (c', exit) → p.Runs start pc c c' exit
  | [], _, _, _, _, _, h => by cases h
  | insn :: rest, pc, c, c', exit, hi, h => by
    have hco : p.method.code[pc]? = some insn := by rw [← head?_drop, ← hi, head?_cons]
    rw [Plan.run] at h
    split at h
    · next hl =>
      cases h
      exact .leader hl.1 hl.2
    · next hn =>
      split at h
      · cases h
      · next hs =>
        cases h
        exact .exit hn hco (step_stepSpec hs)
      · next hs =>
        exact .next hn hco (step_stepSpec hs) (runs_of_run (by rw [← tail_drop, ← hi, tail_cons]) h)

/-- Reading a block keeps what holds inside it, and its exit reads only what is visible. -/
theorem Runs.valid {p : Plan} {base start pc c c' exit} (h : p.Runs start pc c c' exit) (hv : c.Valid p params base) :
    c'.Valid p params base ∧ p.ExitValid c'.graph params c'.body.toList exit ∧ c.Grown c' := by
  induction h with
  | leader => exact ⟨hv, trivial, .refl _⟩
  | exit _ _ hs =>
    obtain ⟨hv', he⟩ := hs.valid hv
    exact ⟨hv', he _ rfl, .of_stepSpec hs⟩
  | next _ _ hs _ ih =>
    obtain ⟨hv', he, hg⟩ := ih (hs.valid hv).1
    exact ⟨hv', he, (Cursor.Grown.of_stepSpec hs).trans hg⟩

end Plan

end Graph
end StackCompiler
