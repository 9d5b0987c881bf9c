/-
Linear scan gives no place twice, and gives a place again when its interval has
ended (`Booked`). An interval that finds no place free meets as many others at
its start as there are places (`Booked.crowded`).
-/
import Mathlib.Data.List.Nodup
import Mathlib.Data.List.InsertIdx
import Mathlib.Data.List.Pairwise
import Mathlib.Data.List.Perm.Subperm
import StackCompiler.Registers.Scan

namespace StackCompiler

open List

/-! ## Points and intervals -/

def Interval.Covers (i : Interval) (point : Nat) : Prop := i.start ≤ point ∧ point ≤ i.stop

instance (i : Interval) (point : Nat) : Decidable (i.Covers point) := inferInstanceAs (Decidable (_ ∧ _))

def Interval.Meets (i j : Interval) : Prop := ∃ point, i.Covers point ∧ j.Covers point

namespace Scan

/-- The number of intervals that cover a point. -/
def covering (intervals : List Interval) (point : Nat) : Nat := intervals.countP (·.Covers point)

theorem covering_append (intervals : List Interval) (i : Interval) (point : Nat) :
    covering (intervals ++ [i]) point = covering intervals point + if i.Covers point then 1 else 0 := by
  simp [covering, countP_append, countP_singleton]

section
variable {P : Type} {places free : List P} {done spilled : List Interval} {given held : List (Interval × P)}
  {point : Nat}

/-- The places of the intervals `done` at a point: `given` has all that have one, `held` those whose
place is not free again, and `spilled` has the others. -/
structure Booked (places free : List P) (done spilled : List Interval) (given held : List (Interval × P))
    (point : Nat) : Prop where
  /-- Of two intervals in one place, the first ends before the second starts. -/
  apart : given.Pairwise fun p q => p.2 = q.2 → p.1.stop < q.1.start
  begun : ∀ p ∈ given, p.1.start ≤ point
  /-- An interval whose place is free again has ended. -/
  ended : ∀ p ∈ given, p ∈ held ∨ p.1.stop < point
  held_given : ∀ p ∈ held, p ∈ given
  all : (given.map (·.1) ++ spilled).Perm done
  shared : (free ++ held.map (·.2)).Perm places
  distinct : places.Nodup
  listed : ∀ p ∈ given, p.2 ∈ places

theorem booked_nil (h : places.Nodup) : Booked places places [] [] [] [] 0 where
  apart := .nil
  begun := by simp
  ended := by simp
  held_given := by simp
  all := .refl _
  shared := by simp
  distinct := h
  listed := by simp

variable {p : Interval × P}

theorem apart_of_mem (h : given.Pairwise fun p q => p.2 = q.2 → p.1.stop < q.1.start) {q} (hp : p ∈ given)
    (hq : q ∈ given) (hne : p ≠ q) (hpl : p.2 = q.2) :
    p.1.stop < q.1.start ∨ q.1.stop < p.1.start := by
  have hsy : Std.Symm fun p q : Interval × P => p.2 = q.2 → p.1.stop < q.1.start ∨ q.1.stop < p.1.start :=
    ⟨fun _ _ h heq => (h heq.symm).symm⟩
  have ha := h.imp fun {p q} h heq => (Or.inl (h heq) : p.1.stop < q.1.start ∨ q.1.stop < p.1.start)
  exact ha.forall hp hq hne hpl

namespace Booked

section
variable (h : Booked places free done spilled given held point)
include h

theorem nodup : (free ++ held.map (·.2)).Nodup :=
  h.shared.nodup_iff.mpr h.distinct

theorem held_nodup : held.Nodup :=
  List.Nodup.of_map _ (nodup_append.mp h.nodup).2.1

theorem given_vars (hv : (done.map (·.var)).Nodup) :
    (given.map (·.1.var)).Nodup := by
  have ha := (h.all.map (·.var)).nodup_iff.mpr hv
  rw [map_append, map_map] at ha
  exact (nodup_append.mp ha).1

theorem expire {point'} (hle : point ≤ point') {free'}
    (hfree : free'.Perm (free ++ (held.filter fun p => p.1.stop < point').map (·.2))) :
    Booked places free' done spilled given (held.filter fun p => !(decide (p.1.stop < point'))) point' where
  apart := h.apart
  begun p hp := Nat.le_trans (h.begun p hp) hle
  ended := by
    intro p hp
    by_cases hs : p.1.stop < point'
    · exact .inr hs
    · refine (h.ended p hp).imp (fun hh => ?_) fun hlt => Nat.lt_of_lt_of_le hlt hle
      exact mem_filter.mpr ⟨hh, by simp [hs]⟩
  held_given p hp := h.held_given p (mem_filter.mp hp).1
  all := h.all
  shared := by
    refine (hfree.append_right _).trans (.trans ?_ h.shared)
    rw [append_assoc, ← map_append]
    exact ((filter_append_perm _ held).map _).append_left free
  distinct := h.distinct
  listed := h.listed

end

/-- An interval that finds no place free meets all that hold one. -/
theorem crowded (h : Booked places [] done spilled given held point) (hl : ∀ p ∈ held, point ≤ p.1.stop) :
    places.length ≤ covering done point := by
  have hh : ∀ p ∈ held, decide (p.1.Covers point) = true := fun p hp =>
    decide_eq_true ⟨h.begun p (h.held_given p hp), hl p hp⟩
  calc places.length = held.length := by rw [← h.shared.length_eq, nil_append, length_map]
    _ = held.countP (·.1.Covers point) := (countP_eq_length.mpr hh).symm
    _ ≤ given.countP (·.1.Covers point) := (subperm_of_subset h.held_nodup h.held_given).countP_le _
    _ = (given.map (·.1)).countP (·.Covers point) := by rw [countP_map]; rfl
    _ ≤ (given.map (·.1) ++ spilled).countP (·.Covers point) := by rw [countP_append]; omega
    _ = covering done point := h.all.countP_eq _

/-- So it adds to a crowd at its start. -/
theorem press {i} (h : Booked places [] done spilled given held i.start) (hl : ∀ p ∈ held, i.start ≤ p.1.stop)
    (hs : ∀ j ∈ done ++ [i], j.start ≤ j.stop) : places.length < covering (done ++ [i]) i.start := by
  have hc := h.crowded hl
  have hse : i.Covers i.start := ⟨Nat.le_refl _, hs i (mem_append_right _ mem_cons_self)⟩
  rw [covering_append, if_pos hse]
  omega

theorem give {i r} (h : Booked places (r :: free) done spilled given held i.start) :
    Booked places free (done ++ [i]) spilled (given ++ [(i, r)]) (held ++ [(i, r)]) i.start where
  apart := by
    refine pairwise_append.mpr ⟨h.apart, pairwise_singleton _ _, ?_⟩
    intro p hp q hq hpl
    rw [mem_singleton] at hq
    subst hq
    -- a free place is not held any more
    refine (h.ended p hp).resolve_left fun hh => ?_
    have hfree : r ∉ held.map (·.2) := fun hr =>
      (nodup_cons.mp h.nodup).1 (mem_append_right _ hr)
    exact hfree (mem_map.mpr ⟨p, hh, hpl⟩)
  begun := by simpa [or_imp, forall_and] using h.begun
  ended := forall_mem_append.mpr
    ⟨fun p hp => (h.ended p hp).imp_left (mem_append_left _), fun p hp => .inl (mem_append_right _ hp)⟩
  held_given := forall_mem_append.mpr
    ⟨fun p hp => mem_append_left _ (h.held_given p hp), fun p hp => mem_append_right _ hp⟩
  all := by
    rw [map_append, append_assoc]
    exact perm_middle.trans ((h.all.cons i).trans (perm_append_singleton i done).symm)
  shared := by
    refine List.Perm.trans ?_ h.shared
    rw [map_append, ← append_assoc]
    exact perm_append_singleton r _
  distinct := h.distinct
  listed := forall_mem_append.mpr ⟨h.listed, forall_mem_singleton.mpr (h.shared.mem_iff.mp mem_cons_self)⟩

theorem spill (h : Booked places free done spilled given held point) (i : Interval) :
    Booked places free (done ++ [i]) (spilled ++ [i]) given held point :=
  { h with all := by simpa only [← append_assoc] using h.all.append_right [i] }

/-- A new place for a scan that can add places. -/
theorem grow {r} (h : Booked places [] done spilled given held point) (hr : r ∉ places) :
    Booked (places ++ [r]) [r] done spilled given held point :=
  { h with
    shared := (h.shared.cons r).trans (perm_append_singleton r places).symm
    distinct := (perm_append_singleton r places).nodup_iff.mpr (nodup_cons.mpr ⟨hr, h.distinct⟩)
    listed := fun p hp => mem_append_left _ (h.listed p hp) }

end Booked

theorem eraseIdx_perm {α : Type} {items : List α} {k a} (h : items[k]? = some a) :
    (a :: items.eraseIdx k).Perm items := by
  obtain ⟨hk, rfl⟩ := List.getElem?_eq_some_iff.mp h
  exact getElem_cons_eraseIdx_perm hk

theorem filter_var_perm (hv : (given.map (·.1.var)).Nodup) (hp : p ∈ given) :
    (p :: given.filter fun q => q.1.var ≠ p.1.var).Perm given := by
  have hg : given.Nodup := List.Nodup.of_map _ hv
  refine (perm_ext_iff_of_nodup ?_ hg).mpr fun q => ?_
  · refine nodup_cons.mpr ⟨fun h => ?_, hg.filter _⟩
    simp at h
  · rw [mem_cons, mem_filter]
    constructor
    · rintro (rfl | ⟨hq, -⟩)
      · exact hp
      · exact hq
    · intro hq
      by_cases hva : q.1.var = p.1.var
      · exact .inl (inj_on_of_nodup_map hv hq hp hva)
      · exact .inr ⟨hq, decide_eq_true hva⟩

theorem Booked.withdraw (h : Booked places free done spilled given held point) (hv : (done.map (·.var)).Nodup)
    {k} (hp : held[k]? = some p) :
    Booked places (p.2 :: free) done (spilled ++ [p.1]) (given.filter fun q => q.1.var ≠ p.1.var)
      (held.eraseIdx k) point where
  apart := h.apart.filter _
  begun q hq := h.begun q (mem_filter.mp hq).1
  ended := by
    intro q hq
    obtain ⟨hq, hne⟩ := mem_filter.mp hq
    refine (h.ended q hq).imp_left fun hh => ?_
    rcases mem_cons.mp ((eraseIdx_perm hp).mem_iff.mpr hh) with rfl | hh
    · simp at hne
    · exact hh
  held_given := by
    intro q hq
    have hh : q ∈ held := (eraseIdx_perm hp).mem_iff.mp (mem_cons_of_mem _ hq)
    refine mem_filter.mpr ⟨h.held_given q hh, decide_eq_true fun hva => ?_⟩
    have hqp : q = p := inj_on_of_nodup_map (h.given_vars hv) (h.held_given q hh)
      (h.held_given p (mem_of_getElem? hp)) hva
    have hn := (eraseIdx_perm hp).nodup_iff.mpr h.held_nodup
    exact (nodup_cons.mp hn).1 (hqp ▸ hq)
  all := by
    have hg := h.held_given p (mem_of_getElem? hp)
    have hpe := (filter_var_perm (h.given_vars hv) hg).map (·.1)
    refine List.Perm.trans ?_ ((hpe.append_right spilled).trans h.all)
    rw [← append_assoc]
    exact perm_append_singleton p.1 _
  shared := by
    refine List.Perm.trans ?_ h.shared
    exact perm_middle.symm.trans (((eraseIdx_perm hp).map _).append_left free)
  distinct := h.distinct
  listed q hq := h.listed q (mem_filter.mp hq).1

end

/-! ## The order of intervals -/

theorem before_iff {a b} :
    before a b = true ↔ a.start < b.start ∨ a.start = b.start ∧ @LE.le Nat _ a.var b.var := by
  simp [before]

theorem inOrder_perm (intervals : List Interval) : (inOrder intervals).Perm intervals :=
  mergeSort_perm intervals before

theorem inOrder_sorted (intervals : List Interval) :
    (inOrder intervals).Pairwise fun a b => a.start ≤ b.start := by
  have ht : ∀ a b c, before a b = true → before b c = true → before a c = true := by
    intro a b c hab hbc
    rw [before_iff] at hab hbc ⊢
    omega
  have hto : ∀ a b, (before a b || before b a) = true := by
    intro a b
    rw [Bool.or_eq_true, before_iff, before_iff]
    omega
  refine (pairwise_mergeSort ht hto intervals).imp fun {a b} hab => ?_
  rw [before_iff] at hab
  omega

/-- What each interval keeps that starts no earlier than the ones before holds of the whole scan. -/
theorem foldl_inOrder {S : Type} {step : S → Interval → S} {motive : List Interval → S → Nat → Prop}
    {intervals} (hste : ∀ {done s point i}, done ++ [i] <+: inOrder intervals → point ≤ i.start →
      motive done s point → motive (done ++ [i]) (step s i) i.start) {s} (hst : motive [] s 0) :
    ∃ point, motive (inOrder intervals) ((inOrder intervals).foldl step s) point := by
  have hr : ∀ {rest done s point}, done ++ rest = inOrder intervals → (∀ i ∈ rest, point ≤ i.start) →
      rest.Pairwise (fun a b => a.start ≤ b.start) → motive done s point →
      ∃ point, motive (done ++ rest) (rest.foldl step s) point := by
    intro rest
    induction rest with
    | nil =>
      intro done s point _ _ _ h
      exact ⟨point, by rwa [append_nil]⟩
    | cons i rest ih =>
      intro done s point ha hle hs h
      rw [append_cons] at ha ⊢
      rw [pairwise_cons] at hs
      exact ih ha hs.1 hs.2 (hste ⟨rest, ha⟩ (hle i mem_cons_self) h)
  exact hr (nil_append _) (fun i _ => Nat.zero_le i.start) (inOrder_sorted intervals) hst

/-! ## Registers -/

theorem victim?_mem {active k a} (h : victim? active = some (k, a)) :
    active[k]? = some a := by
  -- the best so far is always one of the entries, with its place
  have hb : ∀ p, victim? active = some p → active[p.1]? = some p.2 := by
    unfold victim?
    refine List.foldlRecOn (motive := fun best => ∀ p : Nat × Active, best = some p → active[p.1]? = some p.2)
      active.zipIdx _ (fun p hp => by cases hp) ?_
    intro best hb item hi p hp
    have hi := mk_mem_zipIdx_iff_getElem?.mp hi
    cases best with
    | none =>
      cases hp
      exact hi
    | some b =>
      simp only at hp
      split at hp
      · cases hp
        exact hi
      · exact hb p hp
  exact hb (k, a) h

theorem find?_var {intervals : List Interval} (hv : (intervals.map (·.var)).Nodup) {i}
    (hi : i ∈ intervals) : intervals.find? (·.var = i.var) = some i := by
  induction intervals with
  | nil => exact absurd hi not_mem_nil
  | cons j intervals ih =>
    rw [map_cons, nodup_cons] at hv
    rcases mem_cons.mp hi with rfl | hi
    · simp
    · have hne : j.var ≠ i.var := fun h => hv.1 (h ▸ mem_map_of_mem hi)
      rw [find?_cons_of_neg (by simpa using hne)]
      exact ih hv.2 hi

namespace Registers

/-- What the scan over registers keeps, when the intervals `done` have been taken. -/
structure Inv (regs : List Reg) (done : List Interval) (given held : List (Interval × Reg))
    (s : Registers) (point : Nat) : Prop extends Booked regs s.free done s.spilled given held point where
  active : s.active = held.map fun p => ⟨p.1.stop, p.1.var, p.2⟩
  assigned : s.assigned = given.map fun p => (p.1.var, p.2)
  taken : s.taken = done.reverse
  /-- Intervals are spilled under pressure only. -/
  pressed : (∀ i ∈ done, i.start ≤ i.stop) → s.spilled ≠ [] → ∃ q, regs.length < covering done q

section
variable {regs : List Reg} {done : List Interval} {given held : List (Interval × Reg)}
  {s : Registers} {point : Nat} {i : Interval}

theorem Inv.expire (h : Inv regs done given held s point) (hle : point ≤ i.start) :
    Inv regs done given (held.filter fun p => !(decide (p.1.stop < i.start)))
      (s.expire regs i.start) i.start := by
  have ha : ∀ q : Nat → Bool, (s.active.filter fun a => q a.stop) =
      (held.filter fun p => q p.1.stop).map fun p => ⟨p.1.stop, p.1.var, p.2⟩ := by
    intro q
    rw [h.active, filter_map]
    rfl
  have hfree : (s.expire regs i.start).free.Perm
      (s.free ++ (held.filter fun p => p.1.stop < i.start).map (·.2)) := by
    refine (mergeSort_perm _ _).trans ?_
    rw [ha fun stop => decide (stop < i.start), map_map]
    rfl
  exact { h with
    toBooked := h.toBooked.expire hle hfree
    active := ha fun stop => !(decide (stop < i.start)) }

/-- Pressure is not taken away by another interval. -/
theorem Inv.pressed_append (h : Inv regs done given held s point) (hsp : ∀ j ∈ done ++ [i], j.start ≤ j.stop)
    (hs : s.spilled ≠ []) : ∃ q, regs.length < covering (done ++ [i]) q := by
  obtain ⟨q, hq⟩ := h.pressed (fun j hj => hsp j (mem_append_left _ hj)) hs
  exact ⟨q, by rw [covering_append]; omega⟩

theorem Inv.give {r free} (h : Inv regs done given held s i.start) (hfree : s.free = r :: free) :
    Inv regs (done ++ [i]) (given ++ [(i, r)]) (held ++ [(i, r)])
      ({ s with free, taken := i :: s.taken }.assign i r) i.start where
  toBooked := Booked.give (hfree ▸ h.toBooked)
  active := by simp [Registers.assign, h.active]
  assigned := by simp [Registers.assign, h.assigned]
  taken := by simp [Registers.assign, h.taken]
  pressed := h.pressed_append

section
variable (h : Inv regs done given held s i.start) (hfree : s.free = []) (hl : ∀ p ∈ held, i.start ≤ p.1.stop)
include h hfree hl

theorem Inv.spill : Inv regs (done ++ [i]) given held
    { s with taken := i :: s.taken, spilled := s.spilled ++ [i] } i.start where
  toBooked := h.toBooked.spill i
  active := h.active
  assigned := h.assigned
  taken := by simp [h.taken]
  pressed hs _ := ⟨i.start, Booked.press (hfree ▸ h.toBooked) hl hs⟩

theorem Inv.evict (hv : (done.map (·.var)).Nodup) {k p} (hp : held[k]? = some p) :
    Inv regs (done ++ [i]) (given.filter (fun q => q.1.var ≠ p.1.var) ++ [(i, p.2)]) (held.eraseIdx k ++ [(i, p.2)])
      ({ s with
        taken := i :: s.taken
        active := s.active.eraseIdx k
        assigned := s.assigned.filter (·.1 ≠ p.1.var)
        spilled := s.spilled ++ [p.1] }.assign i p.2) i.start where
  toBooked := Booked.give (hfree ▸ h.toBooked.withdraw hv hp)
  active := by simp [Registers.assign, h.active, eraseIdx_map]
  assigned := by
    show s.assigned.filter (·.1 ≠ p.1.var) ++ _ = _
    rw [h.assigned, filter_map, map_append]
    rfl
  taken := by simp [Registers.assign, h.taken]
  pressed hs _ := ⟨i.start, Booked.press (hfree ▸ h.toBooked) hl hs⟩

end

/-- One interval more: it gets a free register, or one of the intervals is spilled. -/
theorem Inv.step (h : Inv regs done given held s point) (hle : point ≤ i.start)
    (hva : ((done ++ [i]).map (·.var)).Nodup) :
    ∃ given' he', Inv regs (done ++ [i]) given' he' (s.step regs i) i.start := by
  have hs := h.expire hle
  have hd : (done.map (·.var)).Nodup := by
    rw [map_append] at hva
    exact (nodup_append.mp hva).1
  have hl : ∀ p ∈ held.filter fun p => !(decide (p.1.stop < i.start)), i.start ≤ p.1.stop := by simp
  -- the step expires with the interval taken already, which expiring does not look at
  have he : { s with taken := i :: s.taken }.expire regs i.start =
      { s.expire regs i.start with taken := i :: (s.expire regs i.start).taken } := rfl
  unfold Registers.step
  rw [he]
  generalize s.expire regs i.start = s' at hs
  generalize (held.filter fun p => !(decide (p.1.stop < i.start))) = he' at hs hl
  simp only
  split
  next r free hfree => exact ⟨_, _, hs.give hfree⟩
  next hfree =>
    split
    next k a hv =>
      split
      · have ha := victim?_mem hv
        rw [hs.active, getElem?_map, Option.map_eq_some_iff] at ha
        obtain ⟨p, hp, rfl⟩ := ha
        have hg := hs.held_given p (mem_of_getElem? hp)
        have hf : (i :: s'.taken).find? (·.var = p.1.var) = some p.1 := by
          have hr : (i :: done.reverse) = (done ++ [i]).reverse := by simp
          rw [hs.taken, hr]
          refine find?_var (by rwa [map_reverse, nodup_reverse]) ?_
          have hd := hs.all.mem_iff.mp (mem_append_left _ (mem_map_of_mem hg))
          exact mem_reverse.mpr (mem_append_left _ hd)
        unfold Registers.evict
        simp only [hf]
        exact ⟨_, _, hs.evict hfree hl hd hp⟩
      · exact ⟨_, _, hs.spill hfree hl⟩
    next => exact ⟨_, _, hs.spill hfree hl⟩

end
end Registers

theorem registers_inv {intervals} (hv : (intervals.map (·.var)).Nodup) {regs} (hr : regs.Nodup) :
    ∃ given held s point, Registers.Inv regs (inOrder intervals) given held s point ∧
      registers intervals regs = (s.assigned, s.spilled) := by
  have hs : Registers.Inv regs [] [] [] { free := regs } 0 :=
    ⟨booked_nil hr, rfl, rfl, rfl, fun _ h => absurd rfl h⟩
  obtain ⟨point, given, held, h⟩ := foldl_inOrder
    (motive := fun done s point => ∃ given held, Registers.Inv regs done given held s point)
    (by
      rintro done s point i hp hle ⟨_, _, h⟩
      have hv := ((inOrder_perm intervals).map (·.var)).nodup_iff.mpr hv
      exact h.step hle (hv.sublist (hp.sublist.map _))) ⟨[], [], hs⟩
  exact ⟨given, held, _, point, h, rfl⟩

/-- An interval gets a register or goes to the stack, and those that share a register are apart. -/
theorem registers_spec {intervals} (hv : (intervals.map (·.var)).Nodup) {regs} (hr : regs.Nodup) :
    ∃ given : List (Interval × Reg),
      (registers intervals regs).1 = given.map (fun p => (p.1.var, p.2)) ∧
      (given.map (·.1) ++ (registers intervals regs).2).Perm intervals ∧
      (∀ p ∈ given, p.2 ∈ regs) ∧
      given.Pairwise fun p q => p.2 = q.2 → p.1.stop < q.1.start := by
  obtain ⟨given, held, s, point, h, heq⟩ := registers_inv hv hr
  rw [heq]
  exact ⟨given, h.assigned, h.all.trans (inOrder_perm intervals), h.listed, h.apart⟩

theorem not_meets {i j : Interval} (h : i.stop < j.start ∨ j.stop < i.start) : ¬ i.Meets j := by
  rintro ⟨point, ⟨hi, hi'⟩, hj, hj'⟩
  omega

/-- **No register is booked twice, and intervals are spilled only under pressure.** Every interval
has a register of the list or is spilled; two with one register have no point in common; and if no
point is covered by more intervals than there are registers, nothing is spilled. -/
theorem registers_never_double_booked {intervals : List Interval} (hvars : (intervals.map (·.var)).Nodup)
    (hspan : ∀ i ∈ intervals, i.start ≤ i.stop) {regs : List Reg} (hregs : regs.Nodup)
    {assigned : List (Var × Reg)} {spilled : List Interval} (h : registers intervals regs = (assigned, spilled)) :
    (assigned.map (·.1) ++ spilled.map (·.var)).Perm (intervals.map (·.var)) ∧
    (assigned.map (·.1) ++ spilled.map (·.var)).Nodup ∧ spilled ⊆ intervals ∧
    (∀ v r, (v, r) ∈ assigned → r ∈ regs) ∧
    (∀ i ∈ intervals, ∀ j ∈ intervals, i ≠ j → ∀ r, (i.var, r) ∈ assigned → (j.var, r) ∈ assigned →
      ¬ i.Meets j) ∧
    ((∀ point, covering intervals point ≤ regs.length) → spilled = []) := by
  obtain ⟨given, held, s, point, hs, heq⟩ := registers_inv hvars hregs
  have ho := inOrder_perm intervals
  obtain ⟨rfl, rfl⟩ := Prod.mk.inj (h.symm.trans heq)
  have ha := hs.all.trans ho
  have hpe : (s.assigned.map (·.1) ++ s.spilled.map (·.var)).Perm (intervals.map (·.var)) := by
    have hm := ha.map (·.var)
    rw [map_append, map_map] at hm
    rw [hs.assigned, map_map]
    exact hm
  -- the interval of an assigned variable is the one with its name
  have hpl : ∀ i ∈ intervals, ∀ r, (i.var, r) ∈ s.assigned → (i, r) ∈ given := by
    intro i hi r hr
    rw [hs.assigned] at hr
    obtain ⟨p, hp, hpr⟩ := mem_map.mp hr
    obtain ⟨hv, rfl⟩ := Prod.mk.inj hpr
    have hme := ha.mem_iff.mp (mem_append_left _ (mem_map_of_mem hp))
    rw [← inj_on_of_nodup_map hvars hme hi hv]
    exact hp
  refine ⟨hpe, hpe.nodup_iff.mpr hvars, fun i hi => ha.mem_iff.mp (mem_append_right _ hi), ?_, ?_, ?_⟩
  · intro v r hr
    rw [hs.assigned] at hr
    obtain ⟨p, hp, hpr⟩ := mem_map.mp hr
    exact (Prod.mk.inj hpr).2 ▸ hs.listed p hp
  · intro i hi j hj hne r hir hjr
    have hn : (i, r) ≠ (j, r) := fun heq => hne (Prod.mk.inj heq).1
    exact not_meets (apart_of_mem hs.apart (hpl i hi r hir) (hpl j hj r hjr) hn rfl)
  · intro hf
    refine Decidable.byContradiction fun hsp => ?_
    obtain ⟨q, hq⟩ := hs.pressed (fun i hi => hspan i (ho.mem_iff.mp hi)) hsp
    have hle := hf q
    rw [covering, ← ho.countP_eq] at hle
    exact absurd hq (Nat.not_lt.mpr hle)

/-- The second and the third interval follow each other, and the first lasts all the time. -/
def nested : List Interval := [⟨0, 0, 9⟩, ⟨1, 1, 2⟩, ⟨2, 3, 4⟩]

theorem covering_nested (point : Nat) : covering nested point ≤ 2 := by
  simp only [covering, nested, countP_cons, countP_nil, Interval.Covers]
  grind

theorem nested_never_double_booked : (nested.map (·.var)).Nodup ∧ (∀ i ∈ nested, i.start ≤ i.stop) ∧
    [(⟨9⟩ : Reg), ⟨10⟩].Nodup ∧ (registers nested [⟨9⟩, ⟨10⟩]).2 = [] := by
  have hv : (nested.map (·.var)).Nodup := by decide
  have hsp : ∀ i ∈ nested, i.start ≤ i.stop := by decide
  have hr : [(⟨9⟩ : Reg), ⟨10⟩].Nodup := by decide
  obtain ⟨-, -, -, -, -, hs⟩ := registers_never_double_booked hv hsp hr rfl
  exact ⟨hv, hsp, hr, hs covering_nested⟩

/-! ## Stack slots -/

theorem insertSlot_perm {slot free} (h : slot ∉ free) :
    (insertSlot slot free).Perm (slot :: free) := by
  induction free with
  | nil => exact .refl _
  | cons s free ih =>
    rw [mem_cons, not_or] at h
    unfold insertSlot
    by_cases hlt : slot < s
    · rw [if_pos hlt]
    · rw [if_neg hlt, if_neg h.1]
      exact ((ih h.2).cons s).trans (.swap slot s free)

theorem insertSlots_perm : ∀ {slots free : List Nat}, (free ++ slots).Nodup →
    (slots.foldl (fun free slot => insertSlot slot free) free).Perm (free ++ slots)
  | [], free, _ => by simp
  | slot :: slots, free, h => by
    have hs : slot ∉ free := fun hm =>
      (nodup_append.mp h).2.2 slot hm slot mem_cons_self rfl
    have hp : (insertSlot slot free ++ slots).Perm (free ++ slot :: slots) :=
      ((insertSlot_perm hs).append_right slots).trans perm_middle.symm
    rw [foldl_cons]
    exact (insertSlots_perm (hp.nodup_iff.mpr h)).trans hp

namespace Slots

/-- What the scan over stack slots keeps, when the intervals `done` have been taken. -/
structure Inv (done : List Interval) (given held : List (Interval × Nat)) (s : Slots) (point : Nat) :
    Prop extends Booked (List.range s.count) s.free done [] given held point where
  active : s.active = held.map fun p => (p.1.stop, p.2)
  assigned : s.assigned = given.map fun p => (p.1.var, p.2)
  /-- At some point all slots were needed. -/
  pressed : (∀ i ∈ done, i.start ≤ i.stop) → ∃ q, s.count ≤ covering done q

section
variable {done : List Interval} {given held : List (Interval × Nat)} {s : Slots} {point : Nat}
  {i : Interval}

theorem Inv.expire (h : Inv done given held s point) (hle : point ≤ i.start) :
    Inv done given (held.filter fun p => !(decide (p.1.stop < i.start))) (s.expire i.start) i.start := by
  have ha : ∀ q : Nat → Bool, (s.active.filter fun a => q a.1) =
      (held.filter fun p => q p.1.stop).map fun p => (p.1.stop, p.2) := by
    intro q
    rw [h.active, filter_map]
    rfl
  have hfree : (s.expire i.start).free.Perm
      (s.free ++ (held.filter fun p => p.1.stop < i.start).map (·.2)) := by
    unfold Slots.expire
    simp only
    rw [ha fun stop => decide (stop < i.start), map_map]
    refine insertSlots_perm (h.nodup.sublist ?_)
    exact (List.Sublist.refl _).append ((filter_sublist).map _)
  exact { h with
    toBooked := h.toBooked.expire hle hfree
    active := ha fun stop => !(decide (stop < i.start)) }

theorem Inv.give {slot free} (h : Inv done given held s i.start) (hfree : s.free = slot :: free) :
    Inv (done ++ [i]) (given ++ [(i, slot)]) (held ++ [(i, slot)]) ({ s with free }.assign i slot) i.start where
  toBooked := Booked.give (hfree ▸ h.toBooked)
  active := by simp [Slots.assign, h.active]
  assigned := by simp [Slots.assign, h.assigned]
  pressed hs := by
    obtain ⟨q, hq⟩ := h.pressed fun j hj => hs j (mem_append_left _ hj)
    exact ⟨q, by rw [covering_append]; exact Nat.le_add_right_of_le hq⟩

theorem Inv.grow (h : Inv done given held s i.start) (hfree : s.free = [])
    (hl : ∀ p ∈ held, i.start ≤ p.1.stop) :
    Inv (done ++ [i]) (given ++ [(i, s.count)]) (held ++ [(i, s.count)])
      ({ s with count := s.count + 1 }.assign i s.count) i.start where
  toBooked := by
    have hg := (Booked.grow (hfree ▸ h.toBooked) not_mem_range_self).give
    rw [← range_succ, ← hfree] at hg
    exact hg
  active := by simp [Slots.assign, h.active]
  assigned := by simp [Slots.assign, h.assigned]
  pressed hs := by
    have hp := Booked.press (hfree ▸ h.toBooked) hl hs
    rw [length_range] at hp
    exact ⟨i.start, hp⟩

/-- The same for slots, of which there is always one more. -/
theorem Inv.step (h : Inv done given held s point) (hle : point ≤ i.start) :
    ∃ given' he', Inv (done ++ [i]) given' he' (s.step i) i.start := by
  have hs := h.expire hle
  have hl : ∀ p ∈ held.filter fun p => !(decide (p.1.stop < i.start)), i.start ≤ p.1.stop := by simp
  unfold Slots.step
  generalize s.expire i.start = s' at hs
  simp only
  split
  next slot free hfree => exact ⟨_, _, hs.give hfree⟩
  next hfree => exact ⟨_, _, hs.grow hfree hl⟩

end
end Slots

theorem slots_inv (intervals : List Interval) : ∃ given held s point,
    Slots.Inv (inOrder intervals) given held s point ∧ slots intervals = (s.assigned, s.count) := by
  have hs : Slots.Inv [] [] [] {} 0 := ⟨booked_nil .nil, rfl, rfl, fun _ => ⟨0, Nat.zero_le _⟩⟩
  obtain ⟨point, given, held, h⟩ := foldl_inOrder
    (motive := fun done s point => ∃ given held, Slots.Inv done given held s point)
    (by rintro done s point i - hle ⟨_, _, h⟩; exact h.step hle) ⟨[], [], hs⟩
  exact ⟨given, held, _, point, h, rfl⟩

/-- Every interval gets a slot below the count, and intervals that share a slot are apart. -/
theorem slots_spec (intervals : List Interval) :
    ∃ given : List (Interval × Nat),
      (slots intervals).1 = given.map (fun p => (p.1.var, p.2)) ∧
      (given.map (·.1)).Perm intervals ∧
      (∀ p ∈ given, p.2 < (slots intervals).2) ∧
      given.Pairwise fun p q => p.2 = q.2 → p.1.stop < q.1.start := by
  obtain ⟨given, held, s, point, h, heq⟩ := slots_inv intervals
  have ha := h.all.trans (inOrder_perm intervals)
  rw [append_nil] at ha
  rw [heq]
  exact ⟨given, h.assigned, ha, fun p hp => mem_range.mp (h.listed p hp), h.apart⟩

/-- Slots below `n` for intervals: each has one, and intervals that meet have different ones. -/
structure ConflictFree (intervals : List Interval) (n : Nat) (given : List (Interval × Nat)) : Prop where
  all : (given.map (·.1)).Perm intervals
  below : ∀ p ∈ given, p.2 < n
  apart : given.Pairwise fun p q => p.1.Meets q.1 → p.2 ≠ q.2

/-- The intervals that cover a point have different slots. -/
theorem ConflictFree.covering_le {intervals n given} (h : ConflictFree intervals n given) (point : Nat) :
    covering intervals point ≤ n := by
  let there := given.filter (·.1.Covers point)
  have ht : there.Pairwise fun p q => p.2 ≠ q.2 := by
    refine (h.apart.filter _).imp_of_mem fun hp hq hpq => hpq ⟨point, ?_, ?_⟩
    · exact of_decide_eq_true (mem_filter.mp hp).2
    · exact of_decide_eq_true (mem_filter.mp hq).2
  have hs : there.map (·.2) ⊆ List.range n := by
    intro slot hsl
    obtain ⟨p, hp, rfl⟩ := mem_map.mp hsl
    exact mem_range.mpr (h.below p (mem_filter.mp hp).1)
  have hle := (subperm_of_subset (pairwise_map.mpr ht) hs).length_le
  rw [length_map, length_range, ← countP_eq_length_filter] at hle
  rw [covering, ← h.all.countP_eq, countP_map]
  exact hle

/-- **The slots have no conflicts and are as few as possible.** Every interval has one slot below
the count, and intervals that meet have different slots. The count is the greatest number of
intervals that cover one point, so no other way to place them has fewer slots. -/
theorem slots_are_fewest {intervals : List Interval} (hspan : ∀ i ∈ intervals, i.start ≤ i.stop)
    {assigned : List (Var × Nat)} {count : Nat} (h : slots intervals = (assigned, count)) :
    (∃ given, ConflictFree intervals count given ∧ assigned = given.map fun p => (p.1.var, p.2)) ∧
    (∀ point, covering intervals point ≤ count) ∧ (∃ point, covering intervals point = count) ∧
    ∀ n given, ConflictFree intervals n given → count ≤ n := by
  obtain ⟨given, held, s, point, hs, heq⟩ := slots_inv intervals
  obtain ⟨rfl, rfl⟩ := Prod.mk.inj (h.symm.trans heq)
  have ho := inOrder_perm intervals
  have ha := hs.all.trans ho
  rw [append_nil] at ha
  have hfree : ConflictFree intervals s.count given := {
    all := ha
    below := fun p hp => mem_range.mp (hs.listed p hp)
    apart := hs.apart.imp fun hpq hm hsl => not_meets (.inl (hpq hsl)) hm }
  obtain ⟨q, hq⟩ := hs.pressed fun i hi => hspan i (ho.mem_iff.mp hi)
  rw [covering, ho.countP_eq] at hq
  refine ⟨⟨given, hfree, hs.assigned⟩, hfree.covering_le, ⟨q, Nat.le_antisymm (hfree.covering_le q) hq⟩, ?_⟩
  exact fun n other hot => Nat.le_trans hq (hot.covering_le q)

theorem nested_slots_are_fewest : (∀ i ∈ nested, i.start ≤ i.stop) ∧ (slots nested).2 = 2 := by
  have hs : ∀ i ∈ nested, i.start ≤ i.stop := by decide
  obtain ⟨-, ha, ⟨point, hp⟩, -⟩ := slots_are_fewest hs rfl
  have ho : covering nested 1 = 2 := by decide
  refine ⟨hs, Nat.le_antisymm ?_ (Nat.le_trans (Nat.le_of_eq ho.symm) (ha 1))⟩
  exact Nat.le_trans (Nat.le_of_eq hp.symm) (covering_nested point)

end Scan
end StackCompiler
