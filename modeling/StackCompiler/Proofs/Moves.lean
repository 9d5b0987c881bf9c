/-
The moves of an edge act at once: every target gets the value that its source
had before the first move, whatever targets and sources have in common. Only
temporary variables change besides.
-/
import StackCompiler.Linear.Lower
import StackCompiler.Proofs.World

namespace StackCompiler

open List Store

namespace Store

theorem setAll_congr {s t : Store} {y} (h : s y = t y) : ∀ (xs : List Nat) (vs : List (Option Value)),
    s.setAll xs vs y = t.setAll xs vs y := by
  intro xs
  induction xs generalizing s t with
  | nil => exact fun _ => h
  | cons x xs ih =>
    intro vs
    cases vs with
    | nil => exact h
    | cons v vs =>
      refine ih ?_ vs
      by_cases hy : y = x
      · rw [hy, set_self, set_self]
      · rw [set_ne _ _ hy, set_ne _ _ hy, h]

theorem setAll_of_mem_zip {y v} : ∀ (s : Store) (xs : List Nat)
    (vs : List (Option Value)), xs.Nodup → (y, v) ∈ xs.zip vs → s.setAll xs vs y = v
  | _, [], _, _, h => by simp at h
  | _, _ :: _, [], _, h => by simp at h
  | s, x :: xs, w :: vs, hn, h => by
    rw [nodup_cons] at hn
    rcases mem_cons.mp h with heq | h
    · cases heq
      exact (setAll_of_not_mem _ xs vs hn.1).trans (set_self _ _ _)
    · exact setAll_of_mem_zip _ xs vs hn.2 h

theorem set_eq_self {s : Store} {x v} (h : s x = v) : s.set x v = s := by
  funext y
  by_cases hy : y = x
  · rw [hy, set_self, h]
  · rw [set_ne _ _ hy]

end Store

namespace Linear

/-- The variables after an instruction that is a move. -/
def Insn.moved (env : Store) : Insn → Store
  | .move dst src => env.set dst (env src)
  | _ => env

/-- The variables after some moves. -/
def afterMoves (env : Store) (insns : List Insn) : Store := insns.foldl Insn.moved env

theorem afterMoves_append (env : Store) (xs ys : List Insn) :
    afterMoves env (xs ++ ys) = afterMoves (afterMoves env xs) ys := foldl_append

theorem Insn.moved_isSome {env} (h : ∀ x, (env x).isSome) (insn : Insn) :
    ∀ x, (insn.moved env x).isSome := by
  cases insn with
  | move dst src =>
    intro x
    by_cases hx : x = dst
    · rw [hx, moved, set_self]
      exact h src
    · rw [moved, set_ne _ _ hx]
      exact h x
  | _ => exact h

/-- Where every variable has a value, moves keep it so. -/
theorem afterMoves_isSome : ∀ {insns : List Insn} {env : Store}, (∀ x, (env x).isSome) →
    ∀ x, (afterMoves env insns x).isSome
  | [], _, h => h
  | insn :: insns, _, h => @afterMoves_isSome insns _ (insn.moved_isSome h)

theorem afterMoves_direct : ∀ (pairs : List (Var × Var)) (env : Store),
    (∀ pair ∈ pairs, pair.2 ∉ pairs.map (·.1)) →
    afterMoves env (directMoves pairs) = env.setAll (pairs.map (·.1)) (pairs.map fun p => env p.2)
  | [], _, _ => rfl
  | (dst, src) :: pairs, env, h => by
    have hr : ∀ pair ∈ pairs, pair.2 ≠ dst ∧ pair.2 ∉ pairs.map (·.1) := fun pair hp => by
      have := h pair (mem_cons_of_mem _ hp)
      rwa [map_cons, mem_cons, not_or] at this
    have hs : (pairs.map fun p => (env.set dst (env src)) p.2) = pairs.map fun p => env p.2 :=
      map_congr_left fun p hp => set_ne _ _ (hr p hp).1
    have ih := afterMoves_direct pairs (env.set dst (env src)) fun p hp => (hr p hp).2
    rw [hs] at ih
    exact ih

theorem assignments_cons (dst src : Var) (dsts srcs : List Var) :
    assignments (dst :: dsts) (src :: srcs) =
      if dst = src then assignments dsts srcs else (dst, src) :: assignments dsts srcs := by
  by_cases h : dst = src <;> simp [assignments, h]

theorem mem_assignments {dsts srcs pair} :
    pair ∈ assignments dsts srcs ↔ pair ∈ dsts.zip srcs ∧ pair.1 ≠ pair.2 := by
  simp [assignments]

theorem setAll_assignments : ∀ (dsts srcs : List Var) (env val : Store), dsts.Nodup →
    (∀ pair ∈ dsts.zip srcs, pair.1 = pair.2 → env pair.1 = val pair.1) →
    env.setAll ((assignments dsts srcs).map (·.1)) ((assignments dsts srcs).map fun p => val p.2) =
      env.setAll dsts (srcs.map val)
  | [], _, _, _, _, _ => by simp [assignments, setAll]
  | _ :: _, [], _, _, _, _ => by simp [assignments, setAll]
  | dst :: dsts, src :: srcs, env, val, hn, hv => by
    rw [nodup_cons] at hn
    have hl : ∀ pair ∈ dsts.zip srcs, pair.1 = pair.2 →
        (env.set dst (val src)) pair.1 = val pair.1 := by
      intro pair hp heq
      have hne : pair.1 ≠ dst := fun hc => hn.1 (hc ▸ (of_mem_zip hp).1)
      rw [set_ne _ _ hne]
      exact hv pair (mem_cons_of_mem _ hp) heq
    have ih := setAll_assignments dsts srcs (env.set dst (val src)) val hn.2 hl
    rw [assignments_cons]
    split
    · next h =>
      have hs : env.set dst (val src) = env :=
        set_eq_self (by
          rw [← h]
          exact hv (dst, src) mem_cons_self h)
      rw [hs] at ih
      rw [ih, map_cons, setAll, hs]
    · exact ih

/-- The variables that the moves of some pairs use up besides their own. -/
def temps (fresh : Var) (pairs : List (Var × Var)) : List Var :=
  if interferes pairs then range' fresh pairs.length else []

/-- What the temporary variables are loaded from, and where they are stored to. -/
def loads (fresh : Var) (pairs : List (Var × Var)) : List (Var × Var) :=
  (pairs.zipIdx fresh).map fun x => (x.2, x.1.2)

def stores (fresh : Var) (pairs : List (Var × Var)) : List (Var × Var) :=
  (pairs.zipIdx fresh).map fun x => (x.1.1, x.2)

theorem stagedMoves_eq (fresh : Var) (pairs : List (Var × Var)) :
    stagedMoves fresh pairs = directMoves (loads fresh pairs) ++ directMoves (stores fresh pairs) := by
  simp [stagedMoves, directMoves, loads, stores, Function.comp_def]

theorem map_zipIdx_fst {α β : Type} (f : α → β) (xs : List α) (n : Nat) :
    (xs.zipIdx n).map (fun x => f x.1) = xs.map f := by
  have h := congrArg (map f) (zipIdx_map_fst n xs)
  rwa [map_map] at h

section
variable (fresh : Var) (pairs : List (Var × Var))
include fresh pairs

theorem loads_fst :
    (loads fresh pairs).map (·.1) = range' fresh pairs.length := by
  simp [loads, Function.comp_def]

theorem stores_fst :
    (stores fresh pairs).map (·.1) = pairs.map (·.1) := by
  rw [stores, map_map]
  exact map_zipIdx_fst (·.1) pairs fresh

theorem stores_snd :
    (stores fresh pairs).map (·.2) = range' fresh pairs.length := by
  simp [stores, Function.comp_def]

end

theorem map_loads {β : Type} (f : Var → β) (fresh : Var) (pairs : List (Var × Var)) :
    ((loads fresh pairs).map fun p => f p.2) = pairs.map fun p => f p.2 := by
  rw [loads, map_map]
  exact map_zipIdx_fst (fun p : Var × Var => f p.2) pairs fresh

theorem afterMoves_staged (fresh : Var) (pairs : List (Var × Var)) (env : Store)
    (hlt : ∀ pair ∈ pairs, pair.1 < fresh ∧ pair.2 < fresh) :
    afterMoves env (stagedMoves fresh pairs) =
      (env.setAll (range' fresh pairs.length) (pairs.map fun p => env p.2)).setAll
        (pairs.map (·.1)) (pairs.map fun p => env p.2) := by
  have hf : ∀ t ∈ range' fresh pairs.length, fresh ≤ t := fun t ht =>
    (mem_range'_1.mp ht).1
  have hl : ∀ pair ∈ loads fresh pairs, pair.2 ∉ (loads fresh pairs).map (·.1) := by
    intro pair hp hc
    rw [loads_fst] at hc
    have hm : pair.2 ∈ pairs.map (·.2) := by
      rw [← map_loads (fun x => x) fresh pairs]
      exact mem_map_of_mem hp
    obtain ⟨q, hq, heq⟩ := mem_map.mp hm
    exact Nat.not_lt_of_le (hf _ hc) (heq ▸ (hlt q hq).2)
  have hs : ∀ pair ∈ stores fresh pairs, pair.2 ∉ (stores fresh pairs).map (·.1) := by
    intro pair hp hc
    rw [stores_fst] at hc
    have hm : pair.2 ∈ range' fresh pairs.length := by
      rw [← stores_snd fresh pairs]
      exact mem_map_of_mem hp
    obtain ⟨q, hq, heq⟩ := mem_map.mp hc
    exact Nat.not_lt_of_le (hf _ hm) (heq ▸ (hlt q hq).1)
  rw [stagedMoves_eq, afterMoves_append, afterMoves_direct _ _ hl, loads_fst,
    map_loads env fresh pairs, afterMoves_direct _ _ hs, stores_fst]
  -- The temporary variables hold what the sources held.
  have hma := map_setAll env (range' fresh pairs.length) (pairs.map fun p => env p.2)
    nodup_range' (by simp)
  rw [← stores_snd fresh pairs, map_map] at hma
  congr 1
  rw [stores_snd] at hma
  exact hma

variable {fresh : Var} {pairs : List (Var × Var)}

/-- **The moves of an edge act at once.** -/
theorem afterMoves_moves {dsts srcs} (env : Store) (hn : dsts.Nodup)
    (hlt : ∀ pair ∈ assignments dsts srcs, pair.1 < fresh ∧ pair.2 < fresh) {x}
    (hx : x ∉ temps fresh (assignments dsts srcs)) :
    afterMoves env (moves fresh (assignments dsts srcs)) x = env.setAll dsts (srcs.map env) x := by
  have ha := setAll_assignments dsts srcs env env hn fun _ _ _ => rfl
  unfold moves
  unfold temps at hx
  split
  · next hi =>
    rw [if_pos hi] at hx
    rw [afterMoves_staged fresh _ env hlt, ← ha]
    exact setAll_congr (setAll_of_not_mem _ _ _ hx) _ _
  · next hi =>
    rw [afterMoves_direct _ _ fun pair hp hc => hi ?_, ha]
    exact any_eq_true.mpr ⟨pair, hp, contains_iff_mem.mpr hc⟩

theorem exists_of_mem_moves {insn} (h : insn ∈ moves fresh pairs) :
    ∃ dst src, insn = .move dst src := by
  unfold moves at h
  split at h
  · rw [stagedMoves_eq, mem_append] at h
    rcases h with h | h <;> obtain ⟨pair, _, rfl⟩ := mem_map.mp h <;> exact ⟨_, _, rfl⟩
  · obtain ⟨pair, _, rfl⟩ := mem_map.mp h
    exact ⟨_, _, rfl⟩

theorem def_of_mem_moves {insn} (h : insn ∈ moves fresh pairs) {v} (hv : insn.def? = some v) :
    v ∈ temps fresh pairs ∨ ∃ u, (v, u) ∈ pairs := by
  have hd : ∀ {ps : List (Var × Var)}, insn ∈ directMoves ps → v ∈ ps.map (·.1) := by
    intro ps hm
    obtain ⟨pair, hp, rfl⟩ := mem_map.mp hm
    cases hv
    exact mem_map_of_mem hp
  have hpa : v ∈ pairs.map (·.1) → ∃ u, (v, u) ∈ pairs := by
    intro hm
    obtain ⟨⟨_, u⟩, hp, rfl⟩ := mem_map.mp hm
    exact ⟨u, hp⟩
  unfold moves at h
  unfold temps
  split at h
  · next hi =>
    rw [stagedMoves_eq, mem_append] at h
    rcases h with h | h
    · rw [if_pos hi, ← loads_fst]
      exact .inl (hd h)
    · exact .inr (hpa (stores_fst fresh pairs ▸ hd h))
  · exact .inr (hpa (hd h))

theorem le_of_mem_temps {v} (h : v ∈ temps fresh pairs) : fresh ≤ v := by
  unfold temps at h
  split at h
  · exact (mem_range'_1.mp h).1
  · cases h

/-- Moves change the variables only that one of them assigns. -/
theorem exists_def_of_afterMoves {x} : ∀ {insns : List Insn} {env : Store}, afterMoves env insns x ≠ env x →
    ∃ insn ∈ insns, insn.def? = some x
  | [], _, h => absurd rfl h
  | insn :: insns, env, h => by
    by_cases hr : afterMoves (insn.moved env) insns x = insn.moved env x
    · refine ⟨insn, mem_cons_self, ?_⟩
      have hm : insn.moved env x ≠ env x := hr ▸ h
      cases insn with
      | move dst src =>
        by_cases hx : x = dst
        · rw [hx]
          rfl
        · exact absurd (set_ne _ _ hx) hm
      | _ => exact absurd rfl hm
    · obtain ⟨i, hi, hd⟩ := exists_def_of_afterMoves hr
      exact ⟨i, mem_cons_of_mem _ hi, hd⟩

theorem moves_eq_nil : moves fresh pairs = [] ↔ pairs = [] := by
  unfold moves
  split
  · cases pairs <;> simp [stagedMoves]
  · simp [directMoves]

end Linear
end StackCompiler
