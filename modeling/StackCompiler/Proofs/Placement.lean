/-
Where allocations are placed. A cache only fills its regions further and opens
new ones behind them (`Fills`), so what was granted stays apart from all that is
granted later.
-/
import Mathlib
import StackCompiler.Proofs.Regions

namespace StackCompiler

/-- The bytes that were handed out. -/
def Placement.bytes (p : Placement) : Set Nat := Set.Ico p.start (p.start + p.size)

/-- The bytes of a region, used or not. -/
def Region.bytes (r : Region) : Set Nat := Set.Ico r.start (r.start + r.size)

namespace CodeCache

/-! ## Filling regions -/

/-- A cache whose regions are filled further, and that may have opened more of them. -/
structure Fills (s t : CodeCache) : Prop where
  kept : ∀ {i r}, s.region? i = some r → ∃ used, r.used ≤ used ∧ t.region? i = some { r with used }
  opened : ∀ {i r}, s.region? i = none → t.region? i = some r → r.index = i ∧ r.methods = []

theorem Fills.refl (s : CodeCache) : s.Fills s :=
  ⟨fun {_ r} hr => ⟨r.used, Nat.le_refl _, hr⟩, fun hn hr => by rw [hn] at hr; cases hr⟩

variable {s t : CodeCache} {c : CacheConfig}

theorem Fills.trans {u} (h : s.Fills t) (h' : t.Fills u) : s.Fills u := by
  refine ⟨fun hr => ?_, fun {i r} hn hr => ?_⟩
  · obtain ⟨used, hle, ht⟩ := h.kept hr
    obtain ⟨used', hl', hu⟩ := h'.kept ht
    exact ⟨used', Nat.le_trans hle hl', hu⟩
  · cases ht : t.region? i with
    | none => exact h'.opened ht hr
    | some r' =>
      obtain ⟨used, -, hu⟩ := h'.kept ht
      obtain ⟨hi, hm⟩ := h.opened hn ht
      rw [hr] at hu
      cases hu
      exact ⟨hi, hm⟩

theorem Fills.currentRegion_le (h : s.Fills t) : s.currentRegion ≤ t.currentRegion := by
  obtain ⟨r, hr⟩ := exists_region?.mpr (Nat.le_refl s.currentRegion)
  obtain ⟨used, -, ht⟩ := h.kept hr
  exact exists_region?.mp ⟨_, ht⟩

theorem tryAllocate_fills {bytes alignment p} (h : s.tryAllocate bytes alignment = some (p, t)) : s.Fills t := by
  obtain ⟨r, hr, -, -, rfl⟩ := tryAllocate_eq_some.mp h
  have hre := fun r' => region?_setRegion r' hr
  refine ⟨fun {i r₁} hr₁ => ?_, fun {i r₁} hn hr₁ => ?_⟩
  · rw [hre]
    by_cases hi : i = s.currentRegion
    · rw [hi, hr] at hr₁
      cases hr₁
      exact ⟨_, Nat.le_trans (le_alignUp _ _) (Nat.le_add_right _ _), if_pos hi⟩
    · rw [if_neg hi]
      exact ⟨r₁.used, Nat.le_refl _, hr₁⟩
  · have hi : i ≠ s.currentRegion := by
      rintro rfl
      rw [hr] at hn
      cases hn
    rw [hre, if_neg hi, hn] at hr₁
    cases hr₁

theorem rotate?_fills (h : s.rotate? = some t) : s.Fills t := by
  refine ⟨fun {i r} hr => ⟨r.used, Nat.le_refl _, ?_⟩, fun {i r} hn hr => ?_⟩
  · have hle := exists_region?.mp ⟨r, hr⟩
    rw [region?_rotate h, if_neg (by omega), hr]
  · rw [region?_rotate h] at hr
    split at hr
    next heq =>
      cases hr
      exact ⟨heq.symm, rfl⟩
    next =>
      rw [hn] at hr
      cases hr

theorem allocate_fills (s : CodeCache) (bytes alignment : Nat) : s.Fills (s.allocate bytes alignment).2 := by
  unfold allocate
  split
  next ht => exact tryAllocate_fills ht
  next =>
    split
    next => exact .refl s
    next hr =>
      split
      next ht => exact (rotate?_fills hr).trans (tryAllocate_fills ht)
      next => exact rotate?_fills hr

/-- Each region carries its own number. -/
def Numbered (s : CodeCache) : Prop := ∀ {i r}, s.region? i = some r → r.index = i

theorem Numbered.fills (hs : s.Numbered) (h : s.Fills t) : t.Numbered := by
  intro i r hr
  cases hi : s.region? i with
  | none => exact (h.opened hi hr).1
  | some r' =>
    obtain ⟨used, -, ht⟩ := h.kept hi
    have hin := hs hi
    rw [hr] at ht
    cases ht
    exact hin

/-! ## The bytes handed out -/

/-- The bytes handed out in a region, none before it is opened. -/
def usedIn (s : CodeCache) (index : Nat) : Nat := ((s.region? index).map Region.used).getD 0

theorem foldr_used (rs : List Region) : rs.foldr (fun r n => r.used + n) 0 =
    ∑ i ∈ Finset.range rs.length, ((rs[i]?).map Region.used).getD 0 := by
  induction rs with
  | nil => rfl
  | cons r rs ih =>
    rw [List.foldr_cons, ih, List.length_cons, Finset.sum_range_succ']
    simp [Nat.add_comm]

/-- The bytes handed out are counted by region. -/
theorem totalSize_eq_sum (s : CodeCache) :
    s.totalSize = ∑ i ∈ Finset.range (s.currentRegion + 1), s.usedIn i := by
  rw [Finset.sum_range_succ', totalSize, ← Array.foldr_toList, foldr_used, Nat.add_comm]
  simp [usedIn, region?, currentRegion]

theorem Fills.totalSize_le (h : s.Fills t) : s.totalSize ≤ t.totalSize := by
  have hu : ∀ i, s.usedIn i ≤ t.usedIn i := by
    intro i
    unfold usedIn
    cases hi : s.region? i with
    | none => exact Nat.zero_le _
    | some r =>
      obtain ⟨used, hle, ht⟩ := h.kept hi
      rw [ht]
      exact hle
  have hsu : Finset.range (s.currentRegion + 1) ⊆ Finset.range (t.currentRegion + 1) :=
    Finset.range_subset_range.mpr (Nat.succ_le_succ h.currentRegion_le)
  rw [totalSize_eq_sum, totalSize_eq_sum]
  exact Nat.le_trans (Finset.sum_le_sum fun i _ => hu i) (Finset.sum_le_sum_of_subset hsu)

theorem sum_sizeOf (c : CacheConfig) (n : Nat) :
    ∑ i ∈ Finset.range (n + 1), c.sizeOf i = c.bootRegionSize + n * c.regionSize := by
  induction n with
  | zero => simp [CacheConfig.sizeOf]
  | succ n ih =>
    rw [Finset.sum_range_succ, ih, show c.sizeOf (n + 1) = c.regionSize from rfl, Nat.succ_mul, Nat.add_assoc]

theorem Regular.totalSize_le (hs : s.Regular c) : s.totalSize ≤ s.window.size := by
  have hu : ∀ i, s.usedIn i ≤ c.sizeOf i := by
    intro i
    unfold usedIn
    cases hi : s.region? i with
    | none => exact Nat.zero_le _
    | some r =>
      obtain ⟨-, hsi, hle⟩ := hs.region hi
      exact Nat.le_trans hle (Nat.le_of_eq hsi)
  have hsl := Nat.mul_le_mul_right c.regionSize hs.opened
  calc s.totalSize
      = ∑ i ∈ Finset.range (s.currentRegion + 1), s.usedIn i := s.totalSize_eq_sum
    _ ≤ ∑ i ∈ Finset.range (s.currentRegion + 1), c.sizeOf i := Finset.sum_le_sum fun i _ => hu i
    _ = c.bootRegionSize + s.currentRegion * c.regionSize := sum_sizeOf c _
    _ ≤ c.total := Nat.add_le_add_left hsl _
    _ ≤ s.window.size := hs.total

/-! ## Runs of allocations -/

/-- Serves requests for bytes, each with its alignment, one after the other. -/
def allocateEach : List (Nat × Nat) → CodeCache → List (Except CacheError Placement) × CodeCache
  | [], s => ([], s)
  | (size, alignment) :: rest, s =>
    let (result, s) := s.allocate size alignment
    let (results, s) := allocateEach rest s
    (result :: results, s)

theorem allocateEach_cons (request : Nat × Nat) (rest : List (Nat × Nat)) (s : CodeCache) :
    s.allocateEach (request :: rest) =
      ((s.allocate request.1 request.2).1 :: ((s.allocate request.1 request.2).2.allocateEach rest).1,
        ((s.allocate request.1 request.2).2.allocateEach rest).2) := rfl

/-- The placements among some results. -/
def granted (results : List (Except CacheError Placement)) : List Placement := results.filterMap Except.toOption

theorem granted_error (e : CacheError) (results : List (Except CacheError Placement)) :
    granted (.error e :: results) = granted results := rfl

theorem granted_ok (p : Placement) (results : List (Except CacheError Placement)) :
    granted (.ok p :: results) = p :: granted results := rfl

/-- As many bytes as asked for, aligned from the start of their region, or the report that there is
no room. -/
def Suits (t : CodeCache) (request : Nat × Nat) : Except CacheError Placement → Prop
  | .ok p => p.size = request.1 ∧ ∃ r, t.region? p.region = some r ∧ r.index = p.region ∧ r.start ≤ p.start ∧
      p.start + p.size ≤ r.start + r.size ∧ max request.2 1 ∣ p.start - r.start
  | .error e => ∃ regions, e = .exhausted request.1 t.regionSize regions

theorem Suits.fills {request result} (h : s.Suits request result) (hf : s.Fills t)
    (hsi : t.regionSize = s.regionSize) :
    t.Suits request result := by
  cases result with
  | error e =>
    obtain ⟨regions, rfl⟩ := h
    exact ⟨regions, by rw [hsi]⟩
  | ok p =>
    obtain ⟨hp, r, hr, hi⟩ := h
    obtain ⟨used, -, ht⟩ := hf.kept hr
    exact ⟨hp, _, ht, hi⟩

/-- There is room for an allocation in the current region, or else in a new one. -/
def Fits (s : CodeCache) (bytes alignment : Nat) : Prop :=
  (∃ r, s.region? s.currentRegion = some r ∧ alignUp r.used (max alignment 1) + bytes ≤ r.size) ∨
    (s.currentRegion < s.regionCount ∧ bytes ≤ s.regionSize)

theorem alignUp_zero (alignment : Nat) : alignUp 0 alignment = 0 := by
  unfold alignUp
  by_cases h : alignment = 0
  · rw [if_pos h]
  · rw [if_neg h, Nat.zero_add, Nat.div_eq_of_lt (by omega), Nat.zero_mul]

theorem allocate_isOk_iff (s : CodeCache) (bytes alignment : Nat) :
    (s.allocate bytes alignment).1.isOk = true ↔ s.Fits bytes alignment := by
  have htr : ∀ {s : CodeCache}, (s.tryAllocate bytes alignment).isSome = true ↔
      ∃ r, s.region? s.currentRegion = some r ∧ alignUp r.used (max alignment 1) + bytes ≤ r.size := by
    intro s
    simp [Option.isSome_iff_exists, tryAllocate_eq_some]
  unfold Fits
  rw [← htr]
  unfold allocate
  cases hs : s.tryAllocate bytes alignment with
  | some r => exact iff_of_true rfl (.inl rfl)
  | none =>
    cases hr : s.rotate? with
    | none =>
      have hf : s.regionCount ≤ s.currentRegion := by simpa [rotate?_eq] using hr
      refine iff_of_false (fun h => by cases h) ?_
      rintro (h | ⟨hlt, -⟩)
      · cases h
      · exact Nat.not_lt_of_le hf hlt
    | some t =>
      obtain ⟨hlt, registered, heq⟩ := rotate?_eq_some hr
      have hn : t.region? t.currentRegion = some s.nextRegion := by
        rw [region?_rotate hr, if_pos]
        rw [heq]
        exact Array.size_push _
      -- the new region is empty, so nothing is lost to alignment
      have hi : (t.tryAllocate bytes alignment).isSome = true ↔ bytes ≤ s.regionSize := by
        rw [htr, hn]
        simp [nextRegion, alignUp_zero]
      dsimp only
      cases ht : t.tryAllocate bytes alignment with
      | some r =>
        rw [ht] at hi
        exact iff_of_true rfl (.inr ⟨hlt, hi.mp rfl⟩)
      | none =>
        rw [ht] at hi
        refine iff_of_false (fun h => by cases h) ?_
        rintro (h | ⟨-, hle⟩)
        · cases h
        · cases hi.mpr hle

section
variable {c : CacheConfig} {s : CodeCache} (hs : s.Regular c)
include hs

theorem allocate_grows (bytes alignment : Nat) : Grows c s (s.allocate bytes alignment).2 := by
  rcases h : s.allocate bytes alignment with ⟨e | p, t⟩
  · exact (allocate_fails hs h).1
  · exact (allocate_grants hs h).toGrows

theorem allocateEach_regular (requests : List (Nat × Nat)) : (s.allocateEach requests).2.Regular c := by
  induction requests generalizing s with
  | nil => exact hs
  | cons request rest ih => exact ih (allocate_grows hs request.1 request.2).regular

omit hs in
theorem allocateEach_fills (requests : List (Nat × Nat)) : s.Fills (s.allocateEach requests).2 := by
  induction requests generalizing s with
  | nil => exact .refl s
  | cons request rest ih => exact (s.allocate_fills request.1 request.2).trans ih

theorem allocate_suits (hn : s.Numbered) (request : Nat × Nat) :
    (s.allocate request.1 request.2).2.Suits request (s.allocate request.1 request.2).1 := by
  rcases h : s.allocate request.1 request.2 with ⟨e | p, t⟩
  · obtain ⟨hgr, regions, he⟩ := allocate_fails hs h
    exact ⟨regions, by rw [he, hs.regionSize, hgr.regular.regionSize]⟩
  · have hg := allocate_grants hs h
    have hf := s.allocate_fills request.1 request.2
    rw [h] at hf
    obtain ⟨r, hr⟩ := exists_region?.mpr hg.region
    obtain ⟨hst, hsi, -⟩ := hg.regular.region hr
    refine ⟨hg.size, r, hr, hn.fills hf hr, ?_, ?_, ?_⟩
    · rw [hst, hg.window]
      exact hg.start
    · rw [hst, hsi, hg.size, hg.window]
      exact hg.stop
    · rw [hst, hg.window]
      exact hg.aligned

theorem allocateEach_suits (hn : s.Numbered) (requests : List (Nat × Nat)) :
    List.Forall₂ (s.allocateEach requests).2.Suits requests (s.allocateEach requests).1 := by
  induction requests generalizing s with
  | nil => exact .nil
  | cons request rest ih =>
    have hg := allocate_grows hs request.1 request.2
    have hf := s.allocate_fills request.1 request.2
    refine .cons ?_ (ih hg.regular (hn.fills hf))
    refine (allocate_suits hs hn request).fills (allocateEach_fills rest) ?_
    exact (allocateEach_regular hg.regular rest).regionSize.trans hg.regular.regionSize.symm

theorem allocateEach_fresh {requests p} (hp : p ∈ granted (s.allocateEach requests).1) {x} (hx : x ∈ p.bytes) :
    ¬ s.Handed x := by
  induction requests generalizing s with
  | nil => cases hp
  | cons request rest ih =>
    have hgr := allocate_grows hs request.1 request.2
    have hr : p ∈ granted ((s.allocate request.1 request.2).2.allocateEach rest).1 → ¬ s.Handed x :=
      fun hp hh => ih hgr.regular hp (hgr.handed hh)
    rw [allocateEach_cons] at hp
    rcases h : s.allocate request.1 request.2 with ⟨e | q, t⟩
    · rw [h, granted_error] at hp
      rw [h] at hr
      exact hr hp
    · rw [h, granted_ok, List.mem_cons] at hp
      rw [h] at hr
      rcases hp with rfl | hp
      · have hg := allocate_grants hs h
        exact hg.fresh hx.1 (by rw [← hg.size]; exact hx.2)
      · exact hr hp

theorem allocateEach_apart (requests : List (Nat × Nat)) :
    (granted (s.allocateEach requests).1).Pairwise fun p q => Disjoint p.bytes q.bytes := by
  induction requests generalizing s with
  | nil => exact .nil
  | cons request rest ih =>
    have hr := ih (allocate_grows hs request.1 request.2).regular
    rw [allocateEach_cons]
    rcases h : s.allocate request.1 request.2 with ⟨e | p, t⟩
    · rw [h] at hr
      rw [granted_error]
      exact hr
    · rw [h] at hr
      rw [granted_ok]
      have hg := allocate_grants hs h
      refine .cons (fun q hq => Set.disjoint_left.mpr fun x hx hx' => ?_) hr
      exact allocateEach_fresh hg.regular hq hx'
        (hg.handsOut hx.1 (by rw [← hg.size]; exact hx.2))

end

/-- Regions that stand one behind the other from the start of the window on. -/
structure Tiled (s : CodeCache) : Prop where
  first : s.boot.start = s.window.base
  next : ∀ {i r r'}, s.region? i = some r → s.region? (i + 1) = some r' → r'.start = r.start + r.size
  inside : ∀ {i r}, s.region? i = some r → s.window.Holds r.start r.size
  apart : ∀ {i j r r'}, s.region? i = some r → s.region? j = some r' → i ≠ j → Disjoint r.bytes r'.bytes

theorem Regular.tiled (hs : s.Regular c) : s.Tiled := by
  refine ⟨(hs.region (show s.region? 0 = some s.boot from rfl)).1, fun hr hr' => ?_, fun {i r} hr => ?_,
    fun hr hr' hne => Set.disjoint_left.mpr fun x hx hx' => ?_⟩
  · obtain ⟨hst, hsi, -⟩ := hs.region hr
    rw [hst, hsi, (hs.region hr').1, Nat.add_assoc, c.stop_eq, c.startOf_succ]
  · obtain ⟨hst, hsi, -⟩ := hs.region hr
    have hi : i ≤ s.currentRegion := exists_region?.mp ⟨r, hr⟩
    rw [hst, hsi]
    exact hs.holds hi (Nat.le_refl _) (Nat.le_refl _)
  · exact Nat.not_lt_of_le (hs.apart hr hr' hne hx.1 hx.2 hx'.1) hx'.2

theorem create_numbered {host} (h : create c host = .ok s) : s.Numbered := by
  intro i r hr
  obtain ⟨rfl, rfl⟩ := create_region h hr
  rfl

/-- Whatever is asked for: each placement lies in the region it names, as large as asked for; the
regions stand side by side in the window, at most as many as are configured; no two placements share
a byte; and the bytes handed out never exceed the window and never get fewer. A request is refused
only when it fits neither the current region nor a new one. -/
theorem allocations_never_overlap {c : CacheConfig} {host : Host} {s : CodeCache} (hs : create c host = .ok s)
    (requests : List (Nat × Nat)) :
    ∃ results t, s.allocateEach requests = (results, t) ∧ List.Forall₂ t.Suits requests results ∧ t.Tiled ∧
      (granted results).Pairwise (fun p q => Disjoint p.bytes q.bytes) ∧ t.runtime.size ≤ c.regionCount ∧
      t.totalSize ≤ t.window.size ∧ (∀ more, t.totalSize ≤ (t.allocateEach more).2.totalSize) ∧
      ∀ bytes alignment, (t.allocate bytes alignment).1.isOk = true ↔ t.Fits bytes alignment := by
  have hr := (create_eq_ok hs).1
  have ht := allocateEach_regular hr requests
  exact ⟨_, _, rfl, allocateEach_suits hr (create_numbered hs) requests, ht.tiled,
    allocateEach_apart hr requests, ht.opened, ht.totalSize_le,
    fun more => (allocateEach_fills more).totalSize_le, allocate_isOk_iff _⟩

/-- The second request does not fit behind the first one, and the third fits no region. -/
theorem allocations_never_overlap_rotating : ∃ s t, create ⟨64, 2, 40⟩ = .ok s ∧
    s.allocateEach [(20, 8), (30, 16), (100, 1), (64, 0), (1, 1)] =
      ([.ok ⟨0, 0, 20⟩, .ok ⟨1, 40, 30⟩, .error (.exhausted 100 64 2), .ok ⟨2, 104, 64⟩,
        .error (.exhausted 1 64 2)], t) ∧
    t.Tiled ∧ [⟨0, 0, 20⟩, ⟨1, 40, 30⟩, ⟨2, 104, 64⟩].Pairwise (fun p q : Placement => Disjoint p.bytes q.bytes) ∧
    t.totalSize = 114 ∧ t.totalSize ≤ t.window.size ∧ ¬ t.Fits 1 1 := by
  have hs : create ⟨64, 2, 40⟩ = .ok _ := rfl
  obtain ⟨results, t, hr, -, ht, ha, -, hto, -, hok⟩ :=
    allocations_never_overlap hs [(20, 8), (30, 16), (100, 1), (64, 0), (1, 1)]
  cases hr
  exact ⟨_, _, hs, rfl, ht, ha, rfl, hto, fun hf => by cases (hok 1 1).mpr hf⟩

end CodeCache
end StackCompiler
