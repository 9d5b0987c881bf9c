/-
Runs that carry out calls. In `Graph.calling` a plan names methods for call
nodes, and a `Runner` says how they are run. Two runs may differ where the first
reads a value that is missing, since a call reads all its arguments; `Refines`
compares runs up to that point.
-/
import StackCompiler.Graph.Build
import StackCompiler.Proofs.GraphMachine
import StackCompiler.Proofs.StackMachine

namespace StackCompiler

open List

/-- The same progress, with the states in another form. -/
def Progress.map {σ τ ω : Type} (f : σ → τ) : Progress σ ω → Progress τ ω
  | going s => going (f s)
  | ended o => ended o

namespace Machine

variable {ε σ τ ω : Type}

/-! ## Runs without events -/

/-- From `s` the run ends with `o` after `n` more states, and nobody sees anything of it. -/
inductive Completes (M : Machine ε σ ω) : σ → ω → Nat → Prop
  | last {s o} (h : ∀ past, M.step past s = ([], .ended o)) : Completes M s o 0
  | step {s s' o n} (h : ∀ past, M.step past s = ([], .going s'))
      (rest : Completes M s' o n) : Completes M s o (n + 1)

namespace Completes

variable {M : Machine ε σ ω} {s : σ} {o o' : ω} {n n' : Nat}

/-- A completion is a run that ends. -/
theorem run (h : M.Completes s o n) (past : List ε) : M.run (n + 1) past s = (past, .ended o) := by
  induction h with
  | last h => rw [run_step_ended (h past), append_nil]
  | step h _ ih => rw [run_step_going (h past), append_nil, ih]

theorem unique (h : M.Completes s o n) (h' : M.Completes s o' n') : o = o' ∧ n = n' := by
  induction h generalizing n' with
  | last h =>
    cases h' with
    | last h' =>
      have := (h []).symm.trans (h' [])
      cases this
      exact ⟨rfl, rfl⟩
    | step h' _ =>
      have := (h []).symm.trans (h' [])
      cases this
  | step h _ ih =>
    cases h' with
    | last h' =>
      have := (h []).symm.trans (h' [])
      cases this
    | step h' rest' =>
      have := (h []).symm.trans (h' [])
      cases this
      obtain ⟨ho, hn⟩ := ih rest'
      exact ⟨ho, congrArg Nat.succ hn⟩

end Completes

/-- A step without an event does not depend on what happened before. -/
def Steady (M : Machine ε σ ω) : Prop :=
  ∀ past s q, M.step past s = ([], q) → ∀ past', M.step past' s = ([], q)

theorem Steady.completes {M : Machine ε σ ω} (hM : M.Steady) {o} :
    ∀ {n : Nat} {s : σ}, M.run n [] s = ([], .ended o) → ∃ k, M.Completes s o k
  | 0, _, h => by cases h
  | n + 1, s, h => by
    rcases hs : M.step [] s with ⟨new, s' | o'⟩
    · rw [run_step_going hs] at h
      -- Events are never taken back, so there was none.
      have hn : new = [] := by
        have hp := past_prefix_run (M := M) n ([] ++ new) s'
        rw [h] at hp
        simpa using hp
      subst hn
      obtain ⟨k, hk⟩ := hM.completes h
      exact ⟨k + 1, .step (hM [] s _ hs) hk⟩
    · rw [run_step_ended hs] at h
      cases h
      exact ⟨0, .last (hM [] s _ hs)⟩

open Classical in
/-- How many more states a run that completes goes through. -/
noncomputable def stepsLeft (M : Machine ε σ ω) (s : σ) : Nat :=
  if h : ∃ n o, M.Completes s o n then h.choose else 0

theorem Completes.stepsLeft_eq {M : Machine ε σ ω} {s o n} (h : M.Completes s o n) :
    M.stepsLeft s = n := by
  have hex : ∃ n o, M.Completes s o n := ⟨n, o, h⟩
  rw [stepsLeft, dif_pos hex]
  obtain ⟨o', h'⟩ := hex.choose_spec
  exact (h'.unique h).2

/-! ## Refinement -/

/-- `B` does what `A` does, up to where `A` ends with the outcome `wrong`. -/
structure Refines (wrong : ω) (A : Machine ε σ ω) (a : σ) (B : Machine ε τ ω) (b : τ) : Prop where
  ends : ∀ t o, o ≠ wrong → A.Ends a t o → B.Ends b t o
  shows : ∀ t, A.Shows a t → B.Shows b t

namespace Refines

variable {ρ : Type} {wrong : ω} {A : Machine ε σ ω} {a : σ} {B : Machine ε τ ω} {b : τ}
  {C : Machine ε ρ ω} {c : ρ}

theorem trans (h : Refines wrong A a B b) (h' : Refines wrong B b C c) : Refines wrong A a C c :=
  ⟨fun t o ho ha => h'.ends t o ho (h.ends t o ho ha), fun t ha => h'.shows t (h.shows t ha)⟩

theorem of_equivalent (h : Equivalent A a B b) : Refines wrong A a B b :=
  ⟨fun t o _ => (h.ends t o).mp, fun t => (h.shows t).mp⟩

variable {R : σ → τ → Prop}

section
variable (h : ∀ {a b} (past : List ε), R a b → Simulation.Performs id B R past b (A.step past a) ∨
  (∃ a', A.step past a = ([], .going a') ∧ R a' b) ∨ A.step past a = ([], .ended wrong))
include h

/-- `B` keeps up with `A`, or `A` has gone wrong and `B` stands where it was then. -/
theorem follow (n : Nat) :
    ∀ {a b} (past : List ε), R a b →
      (∃ k t a' b', A.run n past a = (t, .going a') ∧ B.run k past b = (t, .going b') ∧ R a' b') ∨
        (∃ k t o, A.run n past a = (t, .ended o) ∧ B.run k past b = (t, .ended o)) ∨
          ∃ k t b', A.run n past a = (t, .ended wrong) ∧ B.run k past b = (t, .going b') := by
  induction n with
  | zero => exact fun {a b} past hR => .inl ⟨0, past, a, b, rfl, rfl, hR⟩
  | succ n ih =>
    intro a b past hR
    rcases h past hR with hp | ⟨a', hst, hR'⟩ | hst
    · rcases hs : A.step past a with ⟨new, a' | o⟩ <;> rw [hs] at hp
      · obtain ⟨b', ⟨m, hm⟩, hR'⟩ := hp
        rw [map_id, map_id] at hm
        rw [run_step_going hs]
        rcases ih (past ++ new) hR' with ⟨k, t, a₁, b₁, ha, hb, hR₁⟩ | ⟨k, t, o, ha, hb⟩ | ⟨k, t, b₁, ha, hb⟩
        · exact .inl ⟨m + 1 + k, t, a₁, b₁, ha, by rw [run_add hm, hb], hR₁⟩
        · exact .inr (.inl ⟨m + 1 + k, t, o, ha, by rw [run_add hm, hb]⟩)
        · exact .inr (.inr ⟨m + 1 + k, t, b₁, ha, by rw [run_add hm, hb]⟩)
      · obtain ⟨m, hm⟩ := hp
        rw [map_id, map_id] at hm
        exact .inr (.inl ⟨m + 1, past ++ new, o, run_step_ended hs n, hm⟩)
    · rw [run_step_going hst, append_nil]
      exact ih past hR'
    · exact .inr (.inr ⟨0, past, b, by rw [run_step_ended hst, append_nil], rfl⟩)

theorem of_performs (hR : R a b) : Refines wrong A a B b where
  ends t o ho hA := by
    obtain ⟨n, hn⟩ := hA
    rcases follow h n [] hR with ⟨k, t', a', b', ha, _⟩ | ⟨k, t', o', ha, hb⟩ | ⟨k, t', b', ha, _⟩
    · cases hn.symm.trans ha
    · cases hn.symm.trans ha
      exact ⟨k, hb⟩
    · cases hn.symm.trans ha
      exact absurd rfl ho
  shows t hA := by
    obtain ⟨n, hn⟩ := hA
    rcases follow h n [] hR with ⟨k, t', a', b', ha, hb, _⟩ | ⟨k, t', o', ha, hb⟩ | ⟨k, t', b', ha, hb⟩ <;>
      rw [ha] at hn <;> exact ⟨k, by rw [hb]; exact hn⟩

end
end Refines

theorem StepsAlike.mono {R R' : σ → τ → Prop} (hR : ∀ {a b}, R a b → R' a b)
    {p} {q : List ε × Progress τ ω} (h : StepsAlike R p q) : StepsAlike R' p q := by
  obtain ⟨new, a | o⟩ := p <;> obtain ⟨new', b | o'⟩ := q
  · exact ⟨h.1, hR h.2⟩
  · exact h.elim
  · exact h.elim
  · exact h

/-- A step of `A`: `B` makes it as well, or `B` is ahead and `A` comes closer, or `A` ends with
`wrong`, which does not happen if the comparison is `strict`. -/
def Advances (wrong : ω) (strict : Prop) (A : Machine ε σ ω) (B : Machine ε τ ω) (R : σ → τ → Prop)
    (rank : σ → Nat) (past : List ε) (a : σ) (b : τ) : Prop :=
  StepsAlike R (A.step past a) (B.step past b) ∨
    (∃ a', A.step past a = ([], .going a') ∧ rank a' < rank a ∧ ∃ b', B.Silent b b' ∧ R a' b') ∨
      (A.step past a = ([], .ended wrong) ∧ ¬ strict)

section
variable {wrong : ω} {strict : Prop} {A : Machine ε σ ω} {B : Machine ε τ ω} {R : σ → τ → Prop}
  {rank : σ → Nat} {a : σ} {b : τ}

section
variable (h : ∀ past {a b}, R a b → Advances wrong strict A B R rank past a b)
include h

theorem Refines.of_advances (hR : R a b) :
    Refines wrong A a B b := by
  -- `B` may still have to make the steps that it is ahead in the relation.
  refine of_performs (R := fun a b => ∃ b', B.Silent b b' ∧ R a b') (fun past hab => ?_) ⟨b, .refl B b, hR⟩
  obtain ⟨b', hs, hR⟩ := hab
  rcases h past hR with ha | ⟨a', hst, _, b'', hs', hR'⟩ | ⟨hst, _⟩
  · exact .inl (.silent hs (Simulation.performs_of_alike (ha.mono fun hR => ⟨_, .refl B _, hR⟩)))
  · exact .inr (.inl ⟨a', hst, b'', hs.trans hs', hR'⟩)
  · exact .inr (.inr hst)

theorem Equivalent.of_advances (hst : strict) (hR : R a b) : Equivalent A a B b := by
  have S : Simulation id A B (fun a b => ∃ b', B.Silent b b' ∧ R a b') rank := .of_performs fun past hab => by
    obtain ⟨b', hs, hR⟩ := hab
    rcases h past hR with ha | ⟨a', hste, hr, b'', hs', hR'⟩ | ⟨_, hn⟩
    · exact .inl (.silent hs (Simulation.performs_of_alike (ha.mono fun hR => ⟨_, .refl B _, hR⟩)))
    · exact .inr ⟨a', hste, hr, b'', hs.trans hs', hR'⟩
    · exact absurd hst hn
  exact (S.sameBehaviour ⟨b, .refl B b, hR⟩).equivalent

end

theorem Equivalent.of_stepsAlike (h : ∀ past {a b}, R a b → StepsAlike R (A.step past a) (B.step past b))
    (hR : R a b) : Equivalent A a B b := by
  have S : Simulation id A B R fun _ => 0 := .of_performs fun past hab =>
    .inl (Simulation.performs_of_alike (h past hab))
  exact (S.sameBehaviour hR).equivalent

end
end Machine

/-! ## Runners -/

/-- How the methods of calls are run. -/
structure Runner (σ : Type) where
  machine : Method → World → Machine Event σ Outcome
  start : Method → World → σ

/-- The world with other arguments. -/
def World.withArgs (w : World) (args : List Value) : World := { w with args }

/-- The kinds of all locals; there are no parameters if the descriptor cannot be read. -/
def Method.frameKinds (m : Method) : List Kind :=
  match m.key.signature? with
  | some s => m.localKinds s
  | none => m.locals

/-- The first state of a method with any number of arguments: locals that get none start with zero. -/
def Method.entered (m : Method) (w : World) : StackState :=
  ⟨0, w.args ++ (m.frameKinds.drop w.args.length).map (·.zero), []⟩

def Method.runner : Runner StackState where
  machine m w := m.machine w
  start m w := m.entered w

namespace Graph

/-- The graph of a method that has one. -/
def ofMethod (m : Method) : Graph := (build m).toOption.getD default

def runner : Runner State where
  machine m w := (ofMethod m).machine w
  start m _ := (ofMethod m).start

/-! ## Machines that carry out calls -/

/-- A run that carries out calls is in the graph, or in the method `m` of the call `n` with `args`. -/
inductive Nested (σ : Type) where
  | caller (s : State)
  | callee (s : State) (n : NodeId) (m : Method) (args : List Value) (t : σ)

/-- How the caller goes on when the method of a call has ended. -/
def resume (g : Graph) (s : State) (n : NodeId) : Outcome → Progress State Outcome
  | .returned (some v) => .going (if (g.node n).kind = .void then s else s.give n v)
  | .returned none => .going s
  | .thrown x => g.throwTo (g.node n).handler s.env x
  | .wrong => .ended .wrong

/-- The machine of a graph that carries out the calls for which there is a plan. -/
def calling {σ : Type} (g : Graph) (r : Runner σ) (plan : NodeId → Option Method) (w : World) :
    Machine Event (Nested σ) Outcome where
  step past
    | .caller s =>
      match s.rest with
      | n :: rest =>
        match plan n with
        | some m =>
          match s.env.read (g.node n).op.inputs with
          | some args => ([], .going (.callee { s with rest } n m args (r.start m (w.withArgs args))))
          | none => ([], .ended .wrong)
        | none => Prod.map id (.map .caller) (g.stepNode w past { s with rest } n)
      | [] => Prod.map id (.map .caller) (g.stepCont w s (g.block s.block).cont)
    | .callee s n m args t =>
      match (r.machine m (w.withArgs args)).step past t with
      | (new, .going t) => (new, .going (.callee s n m args t))
      | (new, .ended o) => (new, (g.resume s n o).map .caller)

section
variable {σ : Type} {g : Graph} {r : Runner σ} {plan : NodeId → Option Method} {w : World}
  {past : List Event} {s : State} {b : BlockId} {n : NodeId} {rest : List NodeId} {env : Store}
  {caught : Option Value} {m : Method} {args : List Value} {t : σ}

theorem calling_ordinary (h : ∀ n, s.rest.head? = some n → plan n = none) :
    (g.calling r plan w).step past (.caller s) = Prod.map id (.map .caller) ((g.machine w).step past s) := by
  obtain ⟨b, rest, env, caught⟩ := s
  cases rest with
  | nil => rfl
  | cons n rest => simp only [calling, machine, h n rfl]

theorem calling_call (hn : plan n = some m) (ha : env.read (g.node n).op.inputs = some args) :
    (g.calling r plan w).step past (.caller ⟨b, n :: rest, env, caught⟩) =
      ([], .going (.callee ⟨b, rest, env, caught⟩ n m args (r.start m (w.withArgs args)))) := by
  simp only [calling, hn, ha]

theorem calling_missing (hn : plan n = some m) (ha : env.read (g.node n).op.inputs = none) :
    (g.calling r plan w).step past (.caller ⟨b, n :: rest, env, caught⟩) = ([], .ended .wrong) := by
  simp only [calling, hn, ha]

theorem calling_going {t' new} (h : (r.machine m (w.withArgs args)).step past t = (new, .going t')) :
    (g.calling r plan w).step past (.callee s n m args t) = (new, .going (.callee s n m args t')) := by
  simp only [calling, h]

theorem calling_ended {o new} (h : (r.machine m (w.withArgs args)).step past t = (new, .ended o)) :
    (g.calling r plan w).step past (.callee s n m args t) = (new, (g.resume s n o).map .caller) := by
  simp only [calling, h]

end

end Graph
end StackCompiler
