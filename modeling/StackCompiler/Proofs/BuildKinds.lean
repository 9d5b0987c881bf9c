/-
Reading an instruction and running it on kinds are the same check: a cursor can
read it exactly when the kind machine is not stuck at it, and the stacks agree
afterwards (`StepSpec.kinds`, `step_progress`).
-/
import StackCompiler.Proofs.BuildBlock

namespace StackCompiler

open Graph.Cursor Instruction

namespace Graph

/-- Where an exit leads, exceptions apart. -/
def Exit.targets : Exit → List Nat
  | .jump target => [target]
  | .branch _ _ _ target next => [target, next]
  | .ret _ | .raise _ _ => []

/-- Where control goes on behind the instruction at `pc`, by the exit that it made. -/
def Exit.behind (pc : Nat) : Option Exit → List Nat
  | none => [pc + 1]
  | some exit => exit.targets

namespace Cursor

variable {c : Cursor} {ctx : Context} {pc : Nat}

theorem kinds_append (n : Node) (hlt : ∀ x ∈ c.frame.stack, x < c.graph.nodes.size) :
    (c.append n).2.kinds = c.kinds :=
  (Extends.addNode c.graph n).map_kindOf hlt

theorem kindOf_append (c : Cursor) (n : Node) : (c.append n).2.graph.kindOf c.graph.nodes.size = n.kind :=
  congrArg Node.kind (c.append_node_self n)

theorem kinds_pushNew (op : Operator) (k : Kind) (bci : Nat)
    (hlt : ∀ x ∈ c.frame.stack, x < c.graph.nodes.size) :
    (c.pushNew op k bci).kinds = k :: c.kinds :=
  congr (congrArg List.cons (kindOf_append c ⟨op, k, bci, none⟩)) (kinds_append _ hlt)

theorem kinds_call (p : Plan) (op : Operator) (k : Kind)
    (hlt : ∀ x ∈ c.frame.stack, x < c.graph.nodes.size) :
    (p.call c op k pc).kinds = k.pushOn c.kinds := by
  unfold Plan.call Kind.pushOn
  dsimp only
  split
  · exact kinds_append _ hlt
  · exact congr (congrArg List.cons (kindOf_append c _)) (kinds_append _ hlt)

theorem kinds_poll (target : Nat) (hlt : ∀ x ∈ c.frame.stack, x < c.graph.nodes.size) :
    (Plan.poll c pc target).kinds = c.kinds :=
  Plan.poll_cases (P := fun c' => c'.kinds = c.kinds) (fun _ => kinds_append _ hlt) fun _ => rfl

section
variable {k : Kind} {ks rest : List Kind} (ctx : Context) (pc : Nat)

theorem exists_popAny (h : Kind.take? (k :: ks) c.kinds = some rest) : ∃ id c', c.popAny ctx pc = .ok (id, c') ∧
    c'.graph.kindOf id = k ∧ Kind.take? ks c'.kinds = some rest := by
  rcases hs : c.frame.stack with _ | ⟨id, stack⟩ <;> simp only [Cursor.kinds, hs, List.map, Kind.take?] at h
  · cases h
  · split at h
    · next hk => exact ⟨id, c.withStack stack, by simp only [popAny, hs, withStack], hk, h⟩
    · cases h

theorem exists_pop (h : Kind.take? (k :: ks) c.kinds = some rest) :
    ∃ id c', c.pop ctx pc k = .ok (id, c') ∧ Kind.take? ks c'.kinds = some rest := by
  obtain ⟨id, c', hp, hk, ht⟩ := exists_popAny ctx pc h
  refine ⟨id, c', ?_, ht⟩
  rw [pop, hp]
  exact if_pos hk

theorem exists_popReversed : ∀ {ks : List Kind} {c : Cursor} (found : List NodeId),
    Kind.take? ks c.kinds = some rest → ∃ args c', popReversed ctx pc ks c found = .ok (args, c')
  | [], c, found, _ => ⟨found, c, rfl⟩
  | k :: ks, c, found, h => by
    obtain ⟨id, c₁, hp, ht⟩ := exists_pop ctx pc h
    rw [popReversed, hp]
    exact exists_popReversed (id :: found) ht

end

end Cursor

namespace Plan

variable {p : Plan} {params : List NodeId} {base pc : Nat} {c c' : Cursor}

/-! ## What is read can be run -/

section
variable (hv : c.Valid p params base)
include hv

/-- **An instruction that is read is one that the kind machine runs**, with the same effect. -/
theorem StepSpec.kinds {insn x} (h : p.StepSpec c pc insn c' x) :
    insn.kinds? p.context.localKinds c.graph.signature.result c.kinds = some c'.kinds ∧
      insn.next pc = Exit.behind pc x ∧ x.isSome = (insn.target?.isSome || insn.endsFlow) := by
  have hlt := hv.stack_lt
  have hsu : ∀ {stack}, stack <:+ c.frame.stack → ∀ n ∈ stack, n < c.graph.nodes.size := fun hs n hn =>
    hlt n (hs.subset hn)
  cases h with
  | stack hs =>
    refine ⟨?_, rfl, rfl⟩
    cases hs with
    | frame locals stack _ _ _ hki => exact hki hv.locals
    | node operator kind stack hh _ _ _ _ _ hki =>
      exact hki.trans (congrArg some (@kinds_pushNew (c.withStack stack) operator kind pc (hsu hh)).symm)
  | ask operator service stack _ hh _ hr _ _ hki =>
    obtain ⟨ht, he⟩ := next_of_request? (hr fun _ => .null)
    have hc := @kinds_call (c.withStack stack) pc p operator service.result (hsu hh)
    refine ⟨hki.trans (congrArg some hc.symm), ?_, ?_⟩
    · rw [next, ht, he]
      rfl
    · rw [ht, he]
      rfl
  | poll => exact ⟨(congrArg some (Cursor.kinds_append _ hlt)).symm, rfl, rfl⟩
  | jump target => exact ⟨(congrArg some (kinds_poll target hlt)).symm, rfl, rfl⟩
  | branchConst cond v lhs stack target hs _ _ hk hb =>
    have hl' := hsu ⟨[lhs], hs.symm⟩
    have hp := @kinds_poll ((c.withStack stack).addConstant v pc) pc target fun n hn =>
      Nat.lt_of_lt_of_le (hl' n hn) (Extends.addNode c.graph _).size
    refine ⟨(hb.kinds _ _ _).trans ?_, hb.next, by rw [hb.target]; rfl⟩
    refine (@take?_kinds c [lhs] stack _ hs (congrArg (fun k => [k]) hk)).trans ?_
    exact congrArg some (hp.trans (Cursor.kinds_append _ hl')).symm
  | branchCompare cond lhs rhs stack target hs _ hk =>
    have hl' := hsu ⟨[rhs, lhs], hs.symm⟩
    have hhe : c.kinds.head? = some (c.graph.kindOf rhs) := by simp [Cursor.kinds, hs]
    refine ⟨?_, rfl, rfl⟩
    simp only [kinds?, hhe, Option.bind_some]
    refine (@take?_kinds c [rhs, lhs] stack _ hs (congrArg (fun k => [c.graph.kindOf rhs, k]) hk)).trans ?_
    exact congrArg some (@kinds_poll (c.withStack stack) pc target hl').symm
  | raise x stack hs hk | retValue x stack hs hk =>
    exact ⟨@take?_kinds c [x] stack _ hs (congrArg (fun k => [k]) hk), rfl, rfl⟩
  | ret hvo => exact ⟨if_pos hvo, rfl, rfl⟩

end

/-! ## What can be run is read -/

theorem stackOp_progress (ctx : Context) (hl : c.frame.locals.map c.graph.kindOf = ctx.localKinds) (pc bci : Nat)
    {op stack}
    (h : op.kinds? ctx.localKinds c.kinds = some stack) : ∃ c', c.step ctx pc bci op = .ok c' := by
  cases op with
  | constInt v | constLong v | constDouble v | constNull | constObject v => exact ⟨_, rfl⟩
  | load index =>
    obtain ⟨k, hk, _⟩ := Option.map_eq_some_iff.mp h
    rw [← hl, List.getElem?_map] at hk
    obtain ⟨id, hid, _⟩ := Option.map_eq_some_iff.mp hk
    exact ⟨c.push id, by simp only [Cursor.step, hid]⟩
  | store index =>
    obtain ⟨k, hk, ht⟩ := Option.bind_eq_some_iff.mp h
    obtain ⟨id, c₁, hp, -⟩ := exists_pop ctx pc ht
    simp only [Cursor.step, hk, hp]
    exact ⟨_, rfl⟩
  | pop | dup =>
    rcases hs : c.frame.stack with _ | ⟨id, rest⟩
    · simp [StackOp.kinds?, Cursor.kinds, hs] at h
    · simp only [Cursor.step, Cursor.popAny, hs]
      exact ⟨_, rfl⟩
  | intOp bop | longOp bop | doubleOp bop =>
    obtain ⟨rest, ht, _⟩ := Option.map_eq_some_iff.mp h
    obtain ⟨rhs, c₁, hp₁, ht⟩ := exists_pop ctx pc ht
    obtain ⟨lhs, c₂, hp₂, -⟩ := exists_pop ctx pc ht
    simp only [Cursor.step, binary, bind_eq_ok]
    exact ⟨_, _, hp₁, _, hp₂, rfl⟩
  | negInt | negLong | convert conv =>
    obtain ⟨rest, ht, _⟩ := Option.map_eq_some_iff.mp h
    obtain ⟨id, c₁, hp, -⟩ := exists_pop ctx pc ht
    simp only [Cursor.step, negate, hp]
    exact ⟨_, rfl⟩

theorem calleeSignature_of_callable {name descriptor s} (h : Signature.callable? descriptor = some s) :
    calleeSignature name descriptor = .ok s := by
  obtain ⟨hs, hle⟩ := Signature.callable?_eq_some.mp h
  simp only [calleeSignature, Signature.parse, hs]
  exact if_neg (Nat.not_lt_of_le hle)

theorem branch_of_next {cond lhs rhs target} (h : pc + 1 < p.method.code.length) :
    p.branch c cond lhs rhs pc target =
      .ok (poll c pc target, some (.branch cond lhs rhs target (pc + 1))) :=
  if_neg (Nat.not_le_of_lt h)

theorem branchConst_progress {cond v target stack} (h : Kind.take? [v.kind] c.kinds = some stack)
    (hn : pc + 1 < p.method.code.length) :
    ∃ c' x, p.branchConst c cond v pc target = .ok (c', x) := by
  obtain ⟨id, c₁, hp, -⟩ := exists_pop p.context pc h
  simp only [branchConst, hp]
  exact ⟨_, _, branch_of_next hn⟩

/-- **An instruction that the kind machine runs is read**, unless it is a branch at the end. -/
theorem step_progress (hl : c.frame.locals.map c.graph.kindOf = p.context.localKinds) {insn stack}
    (h : insn.kinds? p.context.localKinds c.graph.signature.result c.kinds = some stack)
    (hn : ∀ t ∈ insn.next pc, t < p.method.code.length) :
    ∃ c' x, p.step c pc insn = .ok (c', x) := by
  cases insn with
  | stack op =>
    obtain ⟨c', hst⟩ := stackOp_progress _ hl pc pc h
    exact ⟨c', none, by rw [step, hst]; rfl⟩
  | newInstance cls | safepoint | goto target => exact ⟨_, _, rfl⟩
  | newArray element | arrayLength =>
    obtain ⟨rest, ht, _⟩ := Option.map_eq_some_iff.mp h
    obtain ⟨id, c₁, hp, -⟩ := exists_pop p.context pc ht
    simp only [step, hp]
    exact ⟨_, _, rfl⟩
  | raise | retValue =>
    obtain ⟨id, c₁, hp, -⟩ := exists_pop p.context pc h
    simp only [step, hp]
    exact ⟨_, _, rfl⟩
  | arrayLoad element =>
    obtain ⟨rest, ht, _⟩ := Option.map_eq_some_iff.mp h
    obtain ⟨index, c₁, hp₁, ht⟩ := exists_pop p.context pc ht
    obtain ⟨array, c₂, hp₂, -⟩ := exists_pop p.context pc ht
    simp only [step, bind_eq_ok]
    exact ⟨_, _, _, hp₁, _, hp₂, rfl⟩
  | arrayStore element =>
    obtain ⟨value, c₁, hp₁, ht⟩ := exists_pop p.context pc h
    obtain ⟨index, c₂, hp₂, ht⟩ := exists_pop p.context pc ht
    obtain ⟨array, c₃, hp₃, -⟩ := exists_pop p.context pc ht
    simp only [step, bind_eq_ok]
    exact ⟨_, _, _, hp₁, _, hp₂, _, hp₃, rfl⟩
  | invokeStatic callee | invokeNative callee =>
    obtain ⟨s, hs, hc⟩ := Option.bind_eq_some_iff.mp h
    obtain ⟨rest, ht, _⟩ := Option.map_eq_some_iff.mp hc
    obtain ⟨args, c₁, hp⟩ := exists_popReversed p.context pc [] ht
    simp only [step, bind_eq_ok]
    exact ⟨_, _, _, calleeSignature_of_callable hs, _, hp, rfl⟩
  | invokeIndirect descriptor =>
    obtain ⟨s, hs, hc⟩ := Option.bind_eq_some_iff.mp h
    obtain ⟨rest, ht, _⟩ := Option.map_eq_some_iff.mp hc
    obtain ⟨target, c₁, hp₁, ht⟩ := exists_pop p.context pc ht
    obtain ⟨args, c₂, hp₂⟩ := exists_popReversed p.context pc [] ht
    simp only [step, bind_eq_ok]
    exact ⟨_, _, _, calleeSignature_of_callable hs, _, hp₁, _, hp₂, rfl⟩
  | ret =>
    simp only [kinds?] at h
    split at h
    · next hr => exact ⟨c, some (.ret none), by simp only [step, hr]⟩
    · cases h
  | ifZero cond target | ifNull target | ifNonNull target =>
    exact branchConst_progress h (hn (pc + 1) (by simp [next, endsFlow]))
  | ifCompare cond target =>
    obtain ⟨k, hh, ht⟩ := Option.bind_eq_some_iff.mp h
    obtain ⟨rhs, c₁, hp₁, rfl, ht⟩ := exists_popAny p.context pc ht
    obtain ⟨lhs, c₂, hp₂, -⟩ := exists_pop p.context pc ht
    simp only [step, bind_eq_ok]
    exact ⟨_, _, _, hp₁, _, hp₂,
      branch_of_next (hn (pc + 1) (by simp [next, endsFlow]))⟩

end Plan
end Graph
end StackCompiler
