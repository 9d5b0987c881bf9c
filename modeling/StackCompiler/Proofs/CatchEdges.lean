/-
Where stops and exceptions of a graph come from: one instruction each, and the
edge for exceptions leads to the handler that the exception table has for it
(`Catching`).
-/
import Mathlib.Data.List.Basic
import StackCompiler.Proofs.BuildWellFormed
import StackCompiler.Proofs.Inlining

namespace StackCompiler

open List Node

/-- Whether an instruction is a call of a method or of a routine, which may throw. -/
def Instruction.isCall : Instruction → Bool
  | newArray _ | newInstance _ | arrayLength | arrayLoad _ | arrayStore _ | invokeStatic _
  | invokeNative _ | invokeIndirect _ => true
  | _ => false

/-- The stop that an instruction at `pc` gives: a call or a poll. A branch polls if it leads backwards. -/
def Instruction.stop? (pc : Nat) : Instruction → Option StopKind
  | newArray _ => some (.direct Support.newArray false)
  | newInstance _ => some (.direct Support.newInstance false)
  | arrayLength => some (.direct Support.arrayLength false)
  | arrayLoad element => some (.direct (Support.arrayLoad element) false)
  | arrayStore element => some (.direct (Support.arrayStore element) false)
  | invokeStatic callee => some (.direct callee false)
  | invokeNative callee => some (.direct callee true)
  | invokeIndirect _ => some .indirect
  | safepoint => some .safepoint
  | insn => if insn.target?.any (· ≤ pc) then some .safepoint else none

/-- The stop at which a service is asked for. -/
def Service.stop : Service → StopKind
  | newArray _ => .direct Support.newArray false
  | newInstance _ => .direct Support.newInstance false
  | arrayLength => .direct Support.arrayLength false
  | arrayLoad element => .direct (Support.arrayLoad element) false
  | arrayStore element => .direct (Support.arrayStore element) false
  | callStatic callee => .direct callee false
  | callNative callee => .direct callee true
  | callIndirect _ => .indirect

/-- The stop that an operator gives. -/
def Operator.stop? : Operator → Option StopKind
  | safepoint => some .safepoint
  | op => op.service?.map Service.stop

/-- The stop of a node: its kind, its position, and the block that gets its exceptions. -/
def Node.stop? (n : Node) : Option (StopKind × Nat × Option BlockId) :=
  n.op.stop?.map (·, n.bci, n.handler.map (·.target))

section
variable {insn : Instruction} {op : Operator} {kind : StopKind} {pc : Nat}

theorem Instruction.stop?_of_request? {stack service args rest}
    (h : insn.request? stack = some (⟨service, args⟩, rest)) : insn.stop? pc = some service.stop := by
  cases insn with
  | newArray | newInstance | arrayLength | arrayLoad | arrayStore =>
    simp only [request?, request?.ask] at h
    split at h <;> cases h
    rfl
  | invokeStatic | invokeNative =>
    simp only [request?, request?.ask] at h
    split at h
    · split at h <;> cases h
      rfl
    · cases h
  | invokeIndirect =>
    simp only [request?] at h
    split at h
    · split at h <;> cases h
      rfl
    · cases h
  | _ => cases h

theorem Instruction.isCall_of_stop? (h : insn.stop? pc = some kind) (hk : kind ≠ .safepoint) : insn.isCall = true := by
  cases insn <;> simp_all [stop?, isCall]

theorem Operator.canThrow_of_stop? (h : op.stop? = some kind) (hk : kind ≠ .safepoint) : op.canThrow = true := by
  cases op <;> simp_all [stop?, service?, canThrow]

theorem Service.stop_ne_safepoint (service : Service) : service.stop ≠ .safepoint := by
  cases service <;> exact nofun

theorem Instruction.stop?_of_target? {target} (h : insn.target? = some target) (hle : target ≤ pc) :
    insn.stop? pc = some .safepoint := by
  cases insn <;> simp_all [stop?, target?]

theorem Operator.stop?_of_service? {service} (h : op.service? = some service) : op.stop? = some service.stop := by
  cases op <;> simp_all [stop?, service?]

theorem stop?_of_isPure (h : op.isPure = true) : op.stop? = none := by
  cases op <;> first | rfl | cases h

theorem stop?_mapInputs (f : NodeId → NodeId) (op : Operator) : (op.mapInputs f).stop? = op.stop? := by
  cases op <;> rfl

end

namespace Graph

/-! ## Instructions of a block -/

/-- The position `pc` belongs to the block that starts at `start`. -/
def InBlock (m : Method) (start pc : Nat) : Prop :=
  start ≤ pc ∧ ∀ q, start < q → q ≤ pc → (Outline.of m).block? q = none

/-- One of the instructions that block `b` is made from is `insn`, at position `pc`. -/
def Reads (m : Method) (b : BlockId) (pc : Nat) (insn : Instruction) : Prop :=
  ∃ start, (Outline.of m).block? start = some b ∧ InBlock m start pc ∧ m.code[pc]? = some insn

namespace Reads

variable {m : Method} {b : BlockId} {pc pc' : Nat} {insn insn' : Instruction}

theorem not_lt (h : Reads m b pc insn) (he : insn.endsFlow = true) (h' : Reads m b pc' insn') :
    ¬ pc < pc' := by
  intro hlt
  obtain ⟨start, hb, hin, hc⟩ := h
  obtain ⟨start', hb', hi', hc'⟩ := h'
  cases Outline.block?_inj hb hb'
  have hsi : pc' < m.code.length := (List.getElem?_eq_some_iff.mp hc').1
  have hm : pc + 1 ∈ Outline.marksOf pc [insn] := by
    unfold Outline.marksOf
    split <;> simp [he]
  have hl := Outline.mem_leaders_of_mark hc hm (by omega)
  have hs := Outline.block?_eq_some.mpr ⟨hl, rfl⟩
  have hle := hin.1
  have hn := hi'.2 (pc + 1) (by omega) (by omega)
  rw [hs] at hn
  cases hn

theorem raise_unique (h : Reads m b pc .raise) (h' : Reads m b pc' .raise) : pc = pc' := by
  have h₁ := h.not_lt rfl h'
  have h₂ := h'.not_lt rfl h
  omega

end Reads

/-! ## Edges of exceptions -/

/-- The block of the handler that the exception table has for a position. -/
def catchBlock? (m : Method) (pc : Nat) : Option BlockId :=
  (m.handlerFor? pc).bind fun h => (Outline.of m).block? h.entry

def stops (g : Graph) (nodes : List NodeId) : List (StopKind × Nat × Option BlockId) :=
  nodes.filterMap fun n => (g.node n).stop?

/-- The stop that the instruction at a position gives, with the block of the handler for a call. -/
def stopAt? (m : Method) (pc : Nat) : Option (StopKind × Nat × Option BlockId) :=
  (m.code[pc]?.bind (·.stop? pc)).map fun kind => (kind, pc, if kind = .safepoint then none else catchBlock? m pc)

/-- In the given blocks, stops come from the instructions at their positions, in their order, and
exceptions go where the exception table sends them. -/
structure Catching (m : Method) (g : Graph) (blocks : List BlockId) : Prop where
  stops : ∀ {b}, b ∈ blocks → ∃ pcs : List Nat, pcs.Pairwise (· < ·) ∧
    (∀ pc ∈ pcs, ∃ start, (Outline.of m).block? start = some b ∧ InBlock m start pc) ∧
      g.stops (g.block b).body <+ pcs.filterMap (stopAt? m)
  raise : ∀ {b x handler}, b ∈ blocks → (g.block b).cont = .raise x handler →
    ∃ pc, Reads m b pc .raise ∧ handler.map (·.target) = catchBlock? m pc

namespace Catching

variable {m : Method} {g : Graph} {blocks : List BlockId} {b : BlockId} (hc : Catching m g blocks) (hb : b ∈ blocks)
include hc hb

theorem of_stop {kind pc target} (hs : (kind, pc, target) ∈ g.stops (g.block b).body) :
    (∃ insn, insn.stop? pc = some kind ∧ Reads m b pc insn) ∧ (kind ≠ .safepoint → target = catchBlock? m pc) := by
  obtain ⟨pcs, -, hin, hsu⟩ := hc.stops hb
  obtain ⟨q, hq, hst⟩ := mem_filterMap.mp (hsu.subset hs)
  obtain ⟨k, hk, heq⟩ := Option.map_eq_some_iff.mp hst
  cases heq
  obtain ⟨insn, hi, hk⟩ := Option.bind_eq_some_iff.mp hk
  obtain ⟨start, hb, hin⟩ := hin _ hq
  exact ⟨⟨insn, hk, start, hb, hin, hi⟩, fun hne => if_neg hne⟩

theorem rising : (g.stops (g.block b).body).Pairwise (·.2.1 < ·.2.1) := by
  obtain ⟨pcs, hr, -, hsu⟩ := hc.stops hb
  refine (pairwise_filterMap.mpr (hr.imp fun hlt x hx y hy => ?_)).sublist hsu
  obtain ⟨_, -, rfl⟩ := Option.map_eq_some_iff.mp hx
  obtain ⟨_, -, rfl⟩ := Option.map_eq_some_iff.mp hy
  exact hlt

end Catching

/-! ## Building -/

namespace Plan

variable {p : Plan} {start pc : Nat} {c c' : Cursor}

theorem target_handlerEdge (ho : p.outline = Outline.of p.method) (pc : Nat) (frame : Frame) :
    (p.handlerEdge pc frame).map (·.target) = catchBlock? p.method pc := by
  unfold handlerEdge catchBlock?
  cases p.method.handlerFor? pc with
  | none => rfl
  | some h =>
    simp only [Option.bind_some, Option.map_map, ho]
    exact Option.map_id'

/-- The stops of a block so far come from its first `k` instructions, in their order. -/
def AllTraced (p : Plan) (start k : Nat) (c : Cursor) : Prop :=
  (∀ n ∈ c.body.toList, n < c.graph.nodes.size) ∧
    c.graph.stops c.body.toList <+ (List.range' start k).filterMap (stopAt? p.method)

namespace AllTraced

variable {k : Nat} (h : p.AllTraced start k c)
include h

theorem append {n} {k'} (hn : (List.range' start k).filterMap (stopAt? p.method) ++ n.stop?.toList <+
    (List.range' start k').filterMap (stopAt? p.method)) : p.AllTraced start k' (c.append n).2 := by
  unfold AllTraced
  rw [c.append_body, c.append_size, stops, filterMap_append, forall_mem_append, forall_mem_singleton,
    filterMap_congr fun x hx => by rw [c.append_node_lt n (h.1 x hx)]]
  refine ⟨⟨fun x hx => Nat.lt_succ_of_lt (h.1 x hx), Nat.lt_succ_self _⟩, .trans (h.2.append ?_) hn⟩
  rw [filterMap_cons, c.append_node_self]
  cases n.stop? <;> exact .refl _

theorem later : p.AllTraced start (k + 1) c := by
  refine ⟨h.1, h.2.trans ?_⟩
  rw [range'_1_concat, filterMap_append]
  exact sublist_append_left _ _

theorem quiet {n} (hn : n.op.stop? = none) : p.AllTraced start k (c.append n).2 :=
  h.append (by simp [stop?, hn])

theorem give {n} (hn : stopAt? p.method (start + k) = n.stop?) : p.AllTraced start (k + 1) (c.append n).2 := by
  refine h.append ?_
  rw [range'_1_concat, filterMap_append, filterMap_cons, ← hn]
  cases stopAt? p.method (start + k) <;> exact .refl _

/-- An instruction adds no stop but its own. -/
theorem step {insn x} (ho : p.outline = Outline.of p.method) (hpc : pc = start + k)
    (hco : p.method.code[pc]? = some insn) (hs : StepSpec p c pc insn c' x) : p.AllTraced start (k + 1) c' := by
  have hst : ∀ {kind}, insn.stop? pc = some kind → stopAt? p.method (start + k) =
      some (kind, pc, if kind = .safepoint then none else catchBlock? p.method pc) := fun hk => by
    rw [← hpc, stopAt?, hco, Option.bind_some, hk]
    rfl
  have hp : ∀ {c : Cursor}, insn.stop? pc = some .safepoint → p.AllTraced start k c →
      p.AllTraced start (k + 1) (c.append ⟨.safepoint, .void, pc, none⟩).2 := fun hk hc => hc.give (hst hk)
  have hb : ∀ {c : Cursor} {target}, insn.target? = some target → p.AllTraced start k c →
      p.AllTraced start (k + 1) (Plan.poll c pc target) := fun ht hc =>
    poll_cases (fun hle => hp (Instruction.stop?_of_target? ht hle) hc) fun _ => hc.later
  have hw : ∀ stack, p.AllTraced start k (c.withStack stack) := fun _ => h
  cases hs with
  | stack hste =>
    cases hste with
    | frame => exact h.later
    | node operator kind stack _ _ hpu => exact ((hw stack).quiet (stop?_of_isPure hpu)).later
  | ask operator service stack hse _ _ hr =>
    have ha := @give _ _ _ _ (hw stack) ⟨operator, service.result, pc, p.handlerEdge pc (c.withStack stack).frame⟩ (by
      rw [hst (Instruction.stop?_of_request? (hr fun _ => .null)), if_neg service.stop_ne_safepoint, stop?,
        Operator.stop?_of_service? hse, target_handlerEdge ho]
      rfl)
    unfold Plan.call
    dsimp only
    split
    · exact ha
    · exact ha
  | poll => exact hp rfl h
  | jump target => exact hb rfl h
  | branchConst cond v lhs stack target _ _ _ _ hbr => exact hb hbr.target ((hw stack).quiet rfl)
  | branchCompare cond lhs rhs stack target => exact hb rfl (hw stack)
  | raise | ret | retValue => exact h.later

end AllTraced

/-- Reading a block traces its nodes, and a throw at its end goes to the handler as well. -/
theorem Runs.traced {exit k} (h : p.Runs start pc c c' exit) (ho : p.outline = Outline.of p.method)
    (hpc : pc = start + k) (hb : ∀ q, start < q → q < pc → (Outline.of p.method).block? q = none)
    (hc : p.AllTraced start k c) :
    (∃ k', (∀ q, start < q → q < start + k' → (Outline.of p.method).block? q = none) ∧ p.AllTraced start k' c') ∧
      ∀ x handler, exit = .raise x handler → ∃ pc', InBlock p.method start pc' ∧
        p.method.code[pc']? = some .raise ∧ handler.map (·.target) = catchBlock? p.method pc' := by
  -- where the block goes on, no other one starts
  have hin : ∀ {pc}, ¬ (pc ≠ start ∧ p.outline.isLeader pc = true) → start ≤ pc →
      (∀ q, start < q → q < pc → (Outline.of p.method).block? q = none) → InBlock p.method start pc := by
    refine fun {pc} hg hle hb => ⟨hle, fun q hq hqp => ?_⟩
    by_cases heq : q = pc
    · rw [heq, ← ho]
      have hne : pc ≠ start := by omega
      simpa [Outline.isLeader, hne] using hg
    · exact hb q hq (by omega)
  induction h generalizing k with
  | leader => exact ⟨⟨k, hpc ▸ hb, hc⟩, fun x handler he => by cases he⟩
  | exit hg hco hs =>
    have hi := hin hg (by omega) hb
    refine ⟨⟨k + 1, fun q hq hlt => hi.2 q hq (by omega), hc.step ho hpc hco hs⟩, fun y handler he => ?_⟩
    subst he
    cases hs
    exact ⟨_, hi, hco, target_handlerEdge ho _ _⟩
  | next hg hco hs _ ih =>
    have hi := hin hg (by omega) hb
    exact ih (by omega) (fun q hq hlt => hi.2 q hq (Nat.le_of_lt_succ hlt)) (hc.step ho hpc hco hs)

end Plan

namespace Translation

variable {m : Method} {entries live : List Nat} {g : Graph} {p : Plan} {s : Signature}

theorem cursor_traced (d : Draft) (p : Plan) (b : BlockId) (start : Nat) :
    p.AllTraced start 0 (d.cursor p b start) := by
  have he : p.AllTraced start 0 ⟨d.graph, ⟨(d.graph.block b).params.take p.context.localKinds.length,
      ((d.graph.block b).params.drop p.context.localKinds.length).reverse⟩, #[]⟩ :=
    ⟨by simp, nil_sublist _⟩
  cases hh : (d.graph.block b).isHandler with
  | false =>
    rw [Draft.cursor_of_plain p start hh]
    exact he
  | true =>
    rw [Draft.cursor_of_handler p start hh]
    exact he.quiet rfl

section
variable (T : Translation m entries g p s live)
include T

theorem catching_of_live {pc} (hpc : pc ∈ live) {b} (hb : p.outline.block? pc = some b) : Catching m g [b] := by
  obtain ⟨⟨d, base, c, exit, hr⟩, -⟩ := T.built hpc hb
  obtain ⟨⟨k, hno, hlt, hst⟩, hra⟩ := hr.run.traced (T.method ▸ T.outline) rfl (fun q hq hlt => by omega)
    (cursor_traced d p b pc)
  rw [T.outline] at hb
  rw [T.method] at hra hno hst
  refine ⟨fun {b'} hb' => ⟨List.range' pc k, pairwise_lt_range', fun q hq => ⟨pc, ?_, ?_⟩, ?_⟩, ?_⟩
  · rw [mem_singleton.mp hb']
    exact hb
  · obtain ⟨hle, hq⟩ := mem_range'_1.mp hq
    exact ⟨hle, fun q' h₁ h₂ => hno q' h₁ (Nat.lt_of_le_of_lt h₂ hq)⟩
  · rw [mem_singleton.mp hb', hr.body, stops, filterMap_congr fun n hn => by rw [hr.graph.node n (hlt n hn)]]
    exact hst
  · intro b' x handler hb' hco
    rw [mem_singleton.mp hb'] at hco ⊢
    have hcl := hr.cont
    rw [hco] at hcl
    cases hcl
    obtain ⟨pc', hin, hc, ht⟩ := hra x handler rfl
    exact ⟨pc', ⟨pc, hb, hin, hc⟩, ht⟩

theorem catching_entry : Catching m g [entry] := by
  obtain ⟨base, e, he⟩ := T.entered
  have hs : g.stops (g.block entry).body = [] := by
    refine filterMap_eq_nil_iff.mpr fun n hn => ?_
    rw [he.body] at hn
    obtain ⟨hle, hlt⟩ := mem_range'_1.mp hn
    have hi : n - base < p.context.localKinds.length := Nat.sub_lt_left_of_lt_add hle hlt
    have hnod := he.node (n - base) _ (getElem?_eq_getElem hi)
    rw [Nat.add_sub_cancel' hle] at hnod
    rw [hnod]
    unfold stop?
    dsimp only
    split <;> rfl
  refine ⟨fun {b} hb => ⟨[], .nil, by simp, ?_⟩, fun {b x handler} hb hc => ?_⟩
  · rw [mem_singleton.mp hb, hs]
    exact .refl _
  · rw [mem_singleton.mp hb, he.cont] at hc
    cases hc

/-- Building sends exceptions where the exception table sends them. -/
theorem catching : Catching m g g.reachable := by
  have hbl : ∀ {b}, b ∈ g.reachable → Catching m g [b] := by
    intro b hb
    rcases (T.blockValid hb).2 with he | ⟨pc, hpc, hbl⟩
    · rw [he]
      exact T.catching_entry
    · exact T.catching_of_live hpc hbl
  exact ⟨fun hb => (hbl hb).stops mem_cons_self, fun hb => (hbl hb).raise mem_cons_self⟩

end

end Translation

/-! ## Passes -/

section
variable {m : Method} {g g' : Graph}

theorem filterMap_sublist {α β : Type} {f f' : α → Option β} {xs : List α} (h : ∀ x ∈ xs, f' x = none ∨ f' x = f x) :
    xs.filterMap f' <+ xs.filterMap f := by
  induction xs with
  | nil => exact .slnil
  | cons x xs ih =>
    obtain ⟨hx, h⟩ := forall_mem_cons.mp h
    rw [← singleton_append, filterMap_append, filterMap_append]
    refine .append ?_ (ih h)
    rcases hx with hx | hx
    · rw [filterMap_cons_none hx]
      exact nil_sublist _
    · rw [filterMap_cons, filterMap_cons, hx]
      exact .refl _

theorem Change.Turns.stops {c : Change} (h : c.Turns g g') {b} (hb : b ∈ g.reachable) :
    g'.stops (g'.block b).body <+ g.stops (g.block b).body := by
  rw [Graph.stops, h.body hb, filterMap_filter]
  refine filterMap_sublist fun n hn => ?_
  by_cases hk : c.kept n = true
  · have hno := h.node hb hn hk
    rw [if_pos hk]
    generalize g'.node n = n' at hno ⊢
    cases hno with
    | same => exact .inr (by rw [Change.node, stop?, stop?_mapInputs, Option.map_map]; rfl)
    | folded => exact .inl rfl
  · exact .inl (if_neg hk)

theorem Refills.stops {b f blocks} (h : Refills g g' b f) (hg : g.InOrder blocks) {k} (hk : k ∈ blocks) :
    g'.stops (g'.block k).body <+ g.stops (g.block k).body := by
  have hs : ∀ n ∈ (g.block k).body, (g'.node n).stop? = (g.node n).stop? := fun n hn => by
    rw [h.node (hg.body hk hn), mapNodes, stop?, stop?_mapInputs, Option.map_map]
    rfl
  by_cases hkb : k = b
  · subst hkb
    have hbo := h.body
    generalize (g.block k).body = body at hbo hs ⊢
    generalize (g'.block k).body = body' at hbo ⊢
    obtain @⟨_, _, new, _, -, -, hf⟩ := hbo
    simp only [forall_mem_append] at hs
    obtain ⟨hbe, -, haf⟩ := hs
    have hn : g'.stops new = [] := filterMap_eq_nil_iff.mpr fun n hn => by
      rw [stop?, stop?_of_isPure (h.fresh (hf n hn).1 (hf n hn).2).pure]
      rfl
    simp only [Graph.stops, filterMap_append] at hn ⊢
    rw [filterMap_congr hbe, filterMap_congr haf, hn]
    exact .append (.refl _) (sublist_append_right _ _)
  · rw [h.other hkb, Graph.stops, filterMap_congr hs]
    exact .refl _

theorem Change.Turns.catching {c : Change} (h : c.Turns g g') (hp : g.Proper)
    (hc : Catching m g g.reachable) : Catching m g' g'.reachable where
  stops hb := by
    obtain ⟨pcs, hr, hin, hs⟩ := hc.stops (h.reachable hp hb)
    exact ⟨pcs, hr, hin, (h.stops (h.reachable hp hb)).trans hs⟩
  raise {b x handler} hb hco := by
    have hb := h.reachable hp hb
    have htu := h.cont hb
    rw [hco] at htu
    obtain ⟨x', ha', hr, -, rfl⟩ := htu.of_raise
    obtain ⟨pc, hre, hta⟩ := hc.raise hb hr
    exact ⟨pc, hre, (Option.map_map _ _ _).trans hta⟩

theorem Refills.catching {b f blocks} (h : Refills g g' b f) (hg : g.InOrder blocks) (hc : Catching m g blocks) :
    Catching m g' blocks where
  stops hk := by
    obtain ⟨pcs, hr, hin, hs⟩ := hc.stops hk
    exact ⟨pcs, hr, hin, (h.stops hg hk).trans hs⟩
  raise {k x handler} hk hco := by
    rw [h.cont] at hco
    obtain ⟨x', ha', hr, rfl⟩ := Continuation.exists_raise_of_mapNodes hco
    obtain ⟨pc, hre, hta⟩ := hc.raise hk hr
    exact ⟨pc, hre, (Option.map_map _ _ _).trans hta⟩

/-- No pass changes where stops and exceptions come from. -/
theorem optimize_catching (hp : g.Proper) (hpl : g.Placed) (hc : Catching m g g.reachable)
    (options : OptimizerOptions) (provider : MethodProvider) :
    (g.optimize options provider).1.Proper ∧
      Catching m (g.optimize options provider).1 (g.optimize options provider).1.reachable := by
  refine ⟨(optimize_ordered hp hpl options provider).1, ?_⟩
  refine optimize_keeps hp hpl options provider (fun hs hc => ?_) Refills.catching Change.Turns.catching hc
  exact ⟨fun hb => hc.stops (hs _ hb), fun hb => hc.raise (hs _ hb)⟩

end

end Graph
end StackCompiler
