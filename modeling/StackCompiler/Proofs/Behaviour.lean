/-
Machines that take one step after another and record events, and the simulation
argument. Machines are functions: if every step of the first is matched by the
second (by some steps, or by none while a rank goes down), both end alike and
show the same events.
-/

namespace StackCompiler

open List

/-- Where a step leads: to another state, or to the end of the run. -/
inductive Progress (σ ω : Type) where
  | going (state : σ)
  | ended (outcome : ω)
deriving DecidableEq, Repr

/-- A machine: from the events so far and a state to the events of one step and where it leads. -/
structure Machine (ε σ ω : Type) where
  step : List ε → σ → List ε × Progress σ ω

namespace Machine

variable {ε ε' σ τ ω : Type}

/-- At most `n` steps, with all events since the beginning. -/
def run (M : Machine ε σ ω) : Nat → List ε → σ → List ε × Progress σ ω
  | 0, past, s => (past, .going s)
  | n + 1, past, s =>
    match M.step past s with
    | (new, .going s') => M.run n (past ++ new) s'
    | (new, .ended o) => (past ++ new, .ended o)

/-- The run from `s` ends with outcome `o` after the events `t`. -/
def Ends (M : Machine ε σ ω) (s : σ) (t : List ε) (o : ω) : Prop :=
  ∃ n, M.run n [] s = (t, .ended o)

/-- The run from `s` begins with the events `t`. -/
def Shows (M : Machine ε σ ω) (s : σ) (t : List ε) : Prop :=
  ∃ n, t <+: (M.run n [] s).1

/-- The run from `s` never ends. -/
def RunsForever (M : Machine ε σ ω) (s : σ) : Prop := ∀ t o, ¬ M.Ends s t o

/-- The second machine does what the first does, with the events renamed by `f`. -/
structure SameBehaviour (f : ε → ε') (A : Machine ε σ ω) (a : σ) (B : Machine ε' τ ω) (b : τ) :
    Prop where
  ends : ∀ t o, B.Ends b t o ↔ ∃ u, t = u.map f ∧ A.Ends a u o
  shows : ∀ t, B.Shows b t ↔ ∃ u, t = u.map f ∧ A.Shows a u

/-- Two machines with the same events end alike and show the same events. -/
structure Equivalent (A : Machine ε σ ω) (a : σ) (B : Machine ε τ ω) (b : τ) : Prop where
  ends : ∀ t o, A.Ends a t o ↔ B.Ends b t o
  shows : ∀ t, A.Shows a t ↔ B.Shows b t

/-! ## Runs -/

variable {A M : Machine ε σ ω} {B : Machine ε τ ω}

theorem run_step_going {past new s s'} (h : M.step past s = (new, .going s')) (n : Nat) :
    M.run (n + 1) past s = M.run n (past ++ new) s' := by
  simp only [run, h]

theorem run_step_ended {past new s o} (h : M.step past s = (new, .ended o)) (n : Nat) :
    M.run (n + 1) past s = (past ++ new, .ended o) := by
  simp only [run, h]

theorem run_one_going {past new s s'} (h : M.step past s = (new, .going s')) :
    M.run 1 past s = (past ++ new, .going s') := by
  rw [run_step_going h]; rfl

theorem run_add {past s} {m} :
    ∀ {t s'}, M.run m past s = (t, .going s') → ∀ n, M.run (m + n) past s = M.run n t s' := by
  induction m generalizing past s with
  | zero =>
    intro t s' h n
    cases h
    rw [Nat.zero_add]
  | succ m ih =>
    intro t s' h n
    rw [Nat.add_right_comm]
    simp only [run] at h ⊢
    split at h
    · exact ih h n
    · cases h

theorem run_ended_add {past s} {m} :
    ∀ {t o}, M.run m past s = (t, .ended o) → ∀ n, M.run (m + n) past s = (t, .ended o) := by
  induction m generalizing past s with
  | zero => intro t o h; cases h
  | succ m ih =>
    intro t o h n
    rw [Nat.add_right_comm]
    simp only [run] at h ⊢
    split at h
    · exact ih h n
    · exact h

theorem past_prefix_run (n : Nat) (past : List ε) (s : σ) : past <+: (M.run n past s).1 := by
  induction n generalizing past s with
  | zero => exact prefix_rfl
  | succ n ih =>
    simp only [run]
    split
    · exact (prefix_append _ _).trans (ih _ _)
    · exact prefix_append _ _

theorem run_prefix_run {m n} (h : m ≤ n) (past : List ε) (s : σ) :
    (M.run m past s).1 <+: (M.run n past s).1 := by
  obtain ⟨k, rfl⟩ := Nat.exists_eq_add_of_le h
  rcases hr : M.run m past s with ⟨t, s' | o⟩
  · rw [run_add hr k]
    exact past_prefix_run k t s'
  · simp only [run_ended_add hr k, prefix_rfl]

theorem run_ended_unique {past s m n t t' o o'} (h : M.run m past s = (t, .ended o))
    (h' : M.run n past s = (t', .ended o')) : t = t' ∧ o = o' := by
  have h₁ := run_ended_add h n
  have h₂ := run_ended_add h' m
  rw [Nat.add_comm, h₂] at h₁
  cases h₁
  exact ⟨rfl, rfl⟩

section
variable {I : σ → Prop} {s : σ} (hg : ∀ past s new s', I s → M.step past s = (new, .going s') → I s')
include hg

theorem run_invariant {P : ω → Prop}
    (he : ∀ past s new o, I s → M.step past s = (new, .ended o) → P o) (h : I s) :
    ∀ (n : Nat) (past : List ε), match (M.run n past s).2 with
      | .going s' => I s'
      | .ended o => P o := by
  intro n
  induction n generalizing s with
  | zero => intro past; exact h
  | succ n ih =>
    intro past
    rcases hs : M.step past s with ⟨new, s' | o⟩
    · rw [run_step_going hs]
      exact ih (hg past s new s' h hs) (past ++ new)
    · rw [run_step_ended hs]
      exact he past s new o h hs

theorem Ends.of_invariant {P : ω → Prop}
    (hen : ∀ past s new o, I s → M.step past s = (new, .ended o) → P o) (h : I s) {t o}
    (he : M.Ends s t o) : P o := by
  obtain ⟨n, hn⟩ := he
  have := run_invariant hg hen h n []
  rwa [hn] at this

end

/-- Some steps without events lead from `s` to `s'`. -/
def Silent (M : Machine ε σ ω) (s s' : σ) : Prop := ∃ n, ∀ past, M.run n past s = (past, .going s')

theorem Silent.refl (M : Machine ε σ ω) (s : σ) : M.Silent s s := ⟨0, fun _ => rfl⟩

theorem Silent.trans {s s' s''} (h : M.Silent s s') (h' : M.Silent s' s'') : M.Silent s s'' := by
  obtain ⟨m, hm⟩ := h
  obtain ⟨n, hn⟩ := h'
  exact ⟨m + n, fun past => by rw [run_add (hm past), hn]⟩

theorem Silent.step {s s'} (h : ∀ past, M.step past s = ([], .going s')) : M.Silent s s' :=
  ⟨1, fun past => by rw [run_one_going (h past), append_nil]⟩

/-- At least one step is made, with the events `new`. -/
def Does (M : Machine ε σ ω) (past : List ε) (s : σ) (new : List ε) (q : Progress σ ω) : Prop :=
  ∃ n, M.run (n + 1) past s = (past ++ new, q)

theorem Does.one {past s new q} (h : M.step past s = (new, q)) : M.Does past s new q := by
  refine ⟨0, ?_⟩
  cases q with
  | going s' => exact run_one_going h
  | ended o => exact run_step_ended h 0

theorem Does.cons {past s new s' new' q} (h : M.step past s = (new, .going s'))
    (h' : M.Does (past ++ new) s' new' q) : M.Does past s (new ++ new') q := by
  obtain ⟨n, hn⟩ := h'
  exact ⟨n + 1, by rw [run_step_going h, hn, append_assoc]⟩

theorem Silent.does {past s s' new q} (h : M.Silent s s') (h' : M.Does past s' new q) :
    M.Does past s new q := by
  obtain ⟨m, hm⟩ := h
  obtain ⟨n, hn⟩ := h'
  exact ⟨m + n, by rw [Nat.add_assoc, run_add (hm past), hn]⟩

/-! ## Equivalence -/

theorem Equivalent.refl (A : Machine ε σ ω) (a : σ) : Equivalent A a A a :=
  ⟨fun _ _ => Iff.rfl, fun _ => Iff.rfl⟩

theorem Equivalent.trans {ρ : Type} {a} {b} {C : Machine ε ρ ω} {c} (h : Equivalent A a B b)
    (h' : Equivalent B b C c) : Equivalent A a C c :=
  ⟨fun t o => (h.ends t o).trans (h'.ends t o), fun t => (h.shows t).trans (h'.shows t)⟩

theorem Equivalent.runsForever {a} {b} (h : Equivalent A a B b) :
    A.RunsForever a ↔ B.RunsForever b := by
  constructor
  · intro hA t o hB
    exact hA t o ((h.ends t o).mpr hB)
  · intro hB t o hA
    exact hB t o ((h.ends t o).mp hA)

theorem SameBehaviour.runsForever {B : Machine ε' τ ω} {f a b} (h : SameBehaviour f A a B b) :
    A.RunsForever a ↔ B.RunsForever b := by
  constructor
  · intro hA t o hB
    obtain ⟨u, _, hu⟩ := (h.ends t o).mp hB
    exact hA u o hu
  · intro hB t o hA
    exact hB (t.map f) o ((h.ends _ o).mpr ⟨t, rfl, hA⟩)

theorem SameBehaviour.equivalent {a} {b} (h : SameBehaviour id A a B b) : Equivalent A a B b := by
  refine ⟨fun t o => ?_, fun t => ?_⟩
  · rw [h.ends]
    simp
  · rw [h.shows]
    simp

/-! ## Simulation -/

/-- Two steps have the same events, and go on in related states or end alike. -/
def StepsAlike (R : σ → τ → Prop) : List ε × Progress σ ω → List ε × Progress τ ω → Prop
  | (new, .going s), (new', .going t) => new = new' ∧ R s t
  | (new, .ended o), (new', .ended o') => new = new' ∧ o = o'
  | _, _ => False

/-- Every step of `A` is matched by `B`; one without events also by no step, if `rank` goes down. -/
structure Simulation (f : ε → ε') (A : Machine ε σ ω) (B : Machine ε' τ ω) (R : σ → τ → Prop)
    (rank : σ → Nat) : Prop where
  going : ∀ {a b past new a'}, R a b → A.step past a = (new, .going a') →
    (∃ n b', B.run (n + 1) (past.map f) b = ((past ++ new).map f, .going b') ∧ R a' b') ∨
      (new = [] ∧ rank a' < rank a ∧ R a' b)
  ended : ∀ {a b past new o}, R a b → A.step past a = (new, .ended o) →
    ∃ n, B.run n (past.map f) b = ((past ++ new).map f, .ended o)

namespace Simulation

variable {f : ε → ε'} {A : Machine ε σ ω} {B : Machine ε' τ ω} {R : σ → τ → Prop} {rank : σ → Nat}

/-- `B` does in at least one step what a step of `A` has done. -/
def Performs (f : ε → ε') (B : Machine ε' τ ω) (R : σ → τ → Prop) (past : List ε) (b : τ) :
    List ε × Progress σ ω → Prop
  | (new, .going a) => ∃ b', B.Does (past.map f) b (new.map f) (.going b') ∧ R a b'
  | (new, .ended o) => B.Does (past.map f) b (new.map f) (.ended o)

variable {r : List ε × Progress σ ω}

theorem Performs.silent {past b b'} (h : B.Silent b b') (hr : Performs f B R past b' r) :
    Performs f B R past b r := by
  rcases r with ⟨new, a | o⟩
  · obtain ⟨b₁, hd, hR⟩ := hr
    exact ⟨b₁, h.does hd, hR⟩
  · exact h.does hr

theorem of_performs (h : ∀ {a b} (past : List ε), R a b → Performs f B R past b (A.step past a) ∨
      ∃ a', A.step past a = ([], .going a') ∧ rank a' < rank a ∧ R a' b) :
    Simulation f A B R rank where
  going := by
    intro a b past new a' hR hst
    rcases h past hR with hp | ⟨a₁, hs, hr, hR'⟩
    · rw [hst] at hp
      obtain ⟨b', ⟨n, hn⟩, hR'⟩ := hp
      exact .inl ⟨n, b', by rw [hn, map_append], hR'⟩
    · rw [hst] at hs
      cases hs
      exact .inr ⟨rfl, hr, hR'⟩
  ended := by
    intro a b past new o hR hst
    rcases h past hR with hp | ⟨a₁, hs, _⟩
    · rw [hst] at hp
      obtain ⟨n, hn⟩ := hp
      exact ⟨n + 1, by rw [hn, map_append]⟩
    · rw [hst] at hs
      cases hs

theorem performs_of_alike {B past b} (h : StepsAlike R r (B.step past b)) : Performs id B R past b r := by
  rcases r with ⟨new, a | o⟩ <;> rcases hb : B.step past b with ⟨new', b' | o'⟩ <;> rw [hb] at h
  · obtain ⟨rfl, hR⟩ := h
    exact ⟨b', by simpa using Does.one hb, hR⟩
  · exact h.elim
  · exact h.elim
  · obtain ⟨rfl, rfl⟩ := h
    simpa [Performs] using Does.one hb

/-- What `B` has done, `k` steps from `b`, when `A` has come to `r`. -/
def Matches (f : ε → ε') (B : Machine ε' τ ω) (R : σ → τ → Prop) (k : Nat) (past : List ε') (b : τ) :
    List ε × Progress σ ω → Prop
  | (t, .going a) => ∃ b', B.run k past b = (t.map f, .going b') ∧ R a b'
  | (t, .ended o) => B.run k past b = (t.map f, .ended o)

theorem Matches.shown {k past b} (h : Matches f B R k past b r) : (B.run k past b).1 = r.1.map f := by
  obtain ⟨u, a | o⟩ := r
  · obtain ⟨b', hb, _⟩ := h
    rw [hb]
  · exact congrArg Prod.fst h

theorem Matches.add {k past b t b' m} (hb : B.run k past b = (t, .going b'))
    (h : Matches f B R m t b' r) : Matches f B R (k + m) past b r := by
  obtain ⟨u, a | o⟩ := r
  · obtain ⟨c, hc, hR⟩ := h
    exact ⟨c, by rw [run_add hb, hc], hR⟩
  · change B.run (k + m) past b = _
    rw [run_add hb]
    exact h

section
variable (S : Simulation f A B R rank)
include S

theorem follow (n : Nat) :
    ∀ {a b} (past : List ε), R a b → ∃ k, Matches f B R k (past.map f) b (A.run n past a) := by
  induction n with
  | zero => intro a b past h; exact ⟨0, b, rfl, h⟩
  | succ n ih =>
    intro a b past h
    rcases hs : A.step past a with ⟨new, a' | o⟩
    · rw [run_step_going hs]
      rcases S.going h hs with ⟨m, b', hb, hR⟩ | ⟨rfl, _, hR⟩
      · obtain ⟨k, hk⟩ := ih (past ++ new) hR
        exact ⟨_, hk.add hb⟩
      · rw [append_nil]
        exact ih past hR
    · rw [run_step_ended hs]
      obtain ⟨k, hk⟩ := S.ended h hs
      exact ⟨k, hk⟩

theorem outrun (bound : Nat) :
    ∀ {a b} (past : List ε), R a b → ∃ n k, Matches f B R k (past.map f) b (A.run n past a) ∧
      (bound ≤ k ∨ ∃ t o, A.run n past a = (t, .ended o)) := by
  induction bound with
  | zero => intro a b past h; exact ⟨0, 0, ⟨b, rfl, h⟩, .inl (Nat.le_refl 0)⟩
  | succ bound ih =>
    intro a b past h
    -- Steps that `B` does not see lower the rank, so there are finitely many of them in a row.
    induction hr : rank a using Nat.strongRecOn generalizing a with
    | ind r ihr =>
      rcases hs : A.step past a with ⟨new, a' | o⟩
      · rcases S.going h hs with ⟨m, b', hb, hR⟩ | ⟨rfl, hlt, hR⟩
        · obtain ⟨n, k, hk, he⟩ := ih (past ++ new) hR
          refine ⟨n + 1, m + 1 + k, ?_⟩
          rw [run_step_going hs]
          exact ⟨hk.add hb, he.imp (by omega) id⟩
        · obtain ⟨n, k, hk, he⟩ := ihr (rank a') (hr ▸ hlt) hR rfl
          refine ⟨n + 1, k, ?_⟩
          rw [run_step_going hs, append_nil]
          exact ⟨hk, he⟩
      · obtain ⟨k, hk⟩ := S.ended h hs
        refine ⟨1, k, ?_, .inr ⟨past ++ new, o, run_step_ended hs 0⟩⟩
        rw [run_step_ended hs]
        exact hk

theorem ends_of_ends {a b t o} (h : R a b) (hA : A.Ends a t o) : B.Ends b (t.map f) o := by
  obtain ⟨n, hn⟩ := hA
  obtain ⟨k, hk⟩ := S.follow n [] h
  rw [hn] at hk
  exact ⟨k, hk⟩

theorem exists_ends {a b t o} (h : R a b) (hB : B.Ends b t o) :
    ∃ u, t = u.map f ∧ A.Ends a u o := by
  obtain ⟨k, hk⟩ := hB
  obtain ⟨n, m, hm, he⟩ := S.outrun k [] h
  rcases hr : A.run n [] a with ⟨u, a' | o'⟩
  · -- `B` has ended, so it cannot be going after at least as many steps.
    rw [hr] at hm he
    obtain ⟨b', hb, _⟩ := hm
    rcases he with hle | ⟨t', o', heq⟩
    · obtain ⟨j, rfl⟩ := Nat.exists_eq_add_of_le hle
      have hk' := run_ended_add hk j
      rw [map_nil] at hb
      rw [hb] at hk'
      cases hk'
    · cases heq
  · rw [hr] at hm
    obtain ⟨rfl, rfl⟩ := run_ended_unique hk hm
    exact ⟨u, rfl, n, hr⟩

theorem shows_of_shows {a b t} (h : R a b) (hA : A.Shows a t) : B.Shows b (t.map f) := by
  obtain ⟨n, hn⟩ := hA
  obtain ⟨k, hk⟩ := S.follow n [] h
  refine ⟨k, ?_⟩
  rw [map_nil] at hk
  rw [hk.shown]
  exact hn.map f

theorem exists_shows {a b t} (h : R a b) (hB : B.Shows b t) : ∃ u, t = u.map f ∧ A.Shows a u := by
  obtain ⟨k, hk⟩ := hB
  obtain ⟨n, m, hm, he⟩ := S.outrun k [] h
  rw [map_nil] at hm
  have hp : t <+: (A.run n [] a).1.map f := by
    rw [← hm.shown]
    rcases he with hle | ⟨u, o, hr⟩
    · exact hk.trans (run_prefix_run hle [] b)
    · rw [hr] at hm
      have hp := hk.trans (run_prefix_run (Nat.le_add_left k m) [] b)
      rwa [run_ended_add hm, ← hm] at hp
  obtain ⟨u, hu, rfl⟩ := prefix_map_iff.mp hp
  exact ⟨u, rfl, n, hu⟩

/-- **A simulation makes two machines behave alike.** -/
theorem sameBehaviour {a b} (h : R a b) : SameBehaviour f A a B b where
  ends _ _ := ⟨S.exists_ends h, fun ⟨_, ht, hA⟩ => ht ▸ S.ends_of_ends h hA⟩
  shows _ := ⟨S.exists_shows h, fun ⟨_, ht, hA⟩ => ht ▸ S.shows_of_shows h hA⟩

end

end Simulation
end Machine
end StackCompiler
