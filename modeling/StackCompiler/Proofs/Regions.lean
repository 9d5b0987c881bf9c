/-
The regions of a code cache, each of which is filled from its start.
-/
import StackCompiler.Proofs.FinishedMethod

namespace StackCompiler

namespace CacheConfig

/-- Where a region starts in the window. -/
def startOf (c : CacheConfig) (index : Nat) : Nat :=
  if index = 0 then 0 else c.bootRegionSize + (index - 1) * c.regionSize

/-- The bytes of a region. -/
def sizeOf (c : CacheConfig) (index : Nat) : Nat := if index = 0 then c.bootRegionSize else c.regionSize

/-- The bytes of all regions. -/
def total (c : CacheConfig) : Nat := c.bootRegionSize + c.regionCount * c.regionSize

variable (c : CacheConfig)

theorem startOf_succ (i : Nat) : c.startOf (i + 1) = c.bootRegionSize + i * c.regionSize := rfl

theorem stop_eq (i : Nat) : c.startOf i + c.sizeOf i = c.bootRegionSize + i * c.regionSize := by
  cases i with
  | zero => simp [startOf, sizeOf]
  | succ i =>
    rw [startOf_succ, show c.sizeOf (i + 1) = c.regionSize from rfl, Nat.succ_mul]
    omega

/-- Regions stand one behind the other in the window. -/
theorem stop_le_startOf {i j} (h : i < j) : c.startOf i + c.sizeOf i ≤ c.startOf j := by
  obtain ⟨k, rfl⟩ := Nat.exists_eq_add_of_lt h
  rw [stop_eq, startOf_succ]
  have hle : i * c.regionSize ≤ (i + k) * c.regionSize := Nat.mul_le_mul_right _ (Nat.le_add_right i k)
  omega

theorem stop_le_total {i} (h : i ≤ c.regionCount) : c.startOf i + c.sizeOf i ≤ c.total := by
  rw [stop_eq, total]
  have hle := Nat.mul_le_mul_right c.regionSize h
  omega

theorem dvd_startOf {n} (hb : n ∣ c.bootRegionSize) (hr : n ∣ c.regionSize) (i : Nat) :
    n ∣ c.startOf i := by
  cases i with
  | zero => exact Nat.dvd_zero n
  | succ i => exact Nat.dvd_add hb (Nat.dvd_mul_left_of_dvd hr i)

end CacheConfig

/-- Whether some bytes lie in a stretch of addresses. -/
def Extent.Holds (e : Extent) (start bytes : Nat) : Prop := e.base ≤ start ∧ start + bytes ≤ e.base + e.size

namespace CodeCache

/-! ## Regular caches -/

variable {s t : CodeCache} {c : CacheConfig} {alignment : Nat}

theorem exists_region? {index} : (∃ r, s.region? index = some r) ↔ index ≤ s.currentRegion := by
  unfold region? currentRegion
  rw [← Option.isSome_iff_exists]
  by_cases h : index = 0
  · simp [h]
  · rw [if_neg h, Option.isSome_iff_ne_none, Ne, Array.getElem?_eq_none_iff]
    omega

theorem region?_setRegion {index r₀} (r : Region) (h : s.region? index = some r₀) (j : Nat) :
    (s.setRegion index r).region? j = if j = index then some r else s.region? j := by
  have h := exists_region?.mp ⟨_, h⟩
  unfold currentRegion at h
  unfold region? setRegion
  by_cases hi : index = 0
  · subst hi
    by_cases hj : j = 0
    · simp [hj]
    · simp [hj]
  · by_cases hj : j = 0
    · simp [hj, hi, Ne.symm hi]
    · by_cases heq : j = index
      · have hlt : index - 1 < s.runtime.size := by omega
        simp [heq, hi, hlt]
      · have hne : index - 1 ≠ j - 1 := by omega
        simp [hj, hi, heq, Array.getElem?_setIfInBounds_ne hne]

theorem setRegion_eq (s : CodeCache) (index : Nat) (r : Region) :
    ∃ boot runtime, s.setRegion index r = { s with boot, runtime } ∧ runtime.size = s.runtime.size := by
  unfold setRegion
  split
  · exact ⟨_, _, rfl, rfl⟩
  · exact ⟨_, _, rfl, Array.size_setIfInBounds⟩

theorem currentRegion_setRegion (s : CodeCache) (index : Nat) (r : Region) :
    (s.setRegion index r).currentRegion = s.currentRegion := by
  obtain ⟨boot, runtime, heq, hs⟩ := s.setRegion_eq index r
  rw [heq]
  exact hs

/-- A byte that has been handed out. -/
def Handed (s : CodeCache) (x : Nat) : Prop :=
  ∃ index r, s.region? index = some r ∧ r.start ≤ x ∧ x < r.start + r.used

/-- The regions of a cache are where the configuration puts them, in a window that calls reach. -/
structure Regular (c : CacheConfig) (s : CodeCache) : Prop where
  region : ∀ {index r}, s.region? index = some r →
    r.start = s.window.base + c.startOf index ∧ r.size = c.sizeOf index ∧ r.used ≤ r.size
  regionSize : s.regionSize = c.regionSize
  regionCount : s.regionCount = c.regionCount
  opened : s.currentRegion ≤ c.regionCount
  base : 8 ∣ s.window.base
  total : c.total ≤ s.window.size
  reach : s.window.size ≤ callReach

/-- A cache that has at most handed out more. -/
structure Grows (c : CacheConfig) (s t : CodeCache) : Prop where
  regular : t.Regular c
  handed : ∀ {x}, s.Handed x → t.Handed x
  window : t.window = s.window
  installed : t.installed = s.installed
  callSites : t.callSites = s.callSites
  unlinked : t.unlinked = s.unlinked

/-- What a successful allocation grants. -/
structure Grants (c : CacheConfig) (s : CodeCache) (bytes alignment : Nat) (p : Placement) (t : CodeCache) : Prop
    extends Grows c s t where
  size : p.size = bytes
  region : p.region ≤ t.currentRegion
  start : s.window.base + c.startOf p.region ≤ p.start
  stop : p.start + bytes ≤ s.window.base + c.startOf p.region + c.sizeOf p.region
  aligned : max alignment 1 ∣ p.start - (s.window.base + c.startOf p.region)
  handsOut : ∀ {x}, p.start ≤ x → x < p.start + bytes → t.Handed x
  fresh : ∀ {x}, p.start ≤ x → x < p.start + bytes → ¬ s.Handed x

theorem Grows.refl (hs : s.Regular c) : Grows c s s :=
  ⟨hs, fun h => h, rfl, rfl, rfl, rfl⟩

theorem Grows.grants {u bytes p} (h : Grows c s t) (h' : Grants c t bytes alignment p u) :
    Grants c s bytes alignment p u :=
  { h' with
    handed := fun hx => h'.handed (h.handed hx)
    window := h'.window.trans h.window
    installed := h'.installed.trans h.installed
    callSites := h'.callSites.trans h.callSites
    unlinked := h'.unlinked.trans h.unlinked
    start := h.window ▸ h'.start
    stop := h.window ▸ h'.stop
    aligned := h.window ▸ h'.aligned
    fresh := fun hx hx' hs => h'.fresh hx hx' (h.handed hs) }

/-! ## Allocation -/

theorem dvd_alignUp {n} (h : 0 < alignment) : alignment ∣ alignUp n alignment := by
  unfold alignUp
  rw [if_neg (Nat.ne_of_gt h)]
  exact Nat.dvd_mul_left alignment _

theorem region?_rotate (h : s.rotate? = some t) (j : Nat) :
    t.region? j = if j = s.currentRegion + 1 then some s.nextRegion else s.region? j := by
  obtain ⟨-, registered, rfl⟩ := rotate?_eq_some h
  unfold region? currentRegion
  by_cases hj : j = 0
  · simp [hj]
  · have hi : j - 1 = s.runtime.size ↔ j = s.runtime.size + 1 := by omega
    simp [Array.getElem?_push, hi, hj]

theorem exists_tryAllocate {bytes p} (h : s.allocate bytes alignment = (.ok p, t)) :
    ∃ u : CodeCache, u.tryAllocate bytes alignment = some (p, t) := by
  obtain h | ⟨u, -, h⟩ := allocate_eq_ok h
  · exact ⟨s, h⟩
  · exact ⟨u, h⟩

theorem allocate_eq_error {bytes e} (h : s.allocate bytes alignment = (.error e, t)) :
    e = .exhausted bytes t.regionSize t.runtime.size ∧ (s.rotate? = none ∧ t = s ∨ s.rotate? = some t) := by
  unfold allocate at h
  grind

section
variable {c : CacheConfig} {s t : CodeCache} {bytes alignment : Nat} (hs : s.Regular c)
include hs

/-- Two regions share no byte. -/
theorem Regular.apart {i j r r'} (hr : s.region? i = some r) (hr' : s.region? j = some r') (hne : i ≠ j) {x}
    (hx : r.start ≤ x) (hx' : x < r.start + r.size) (hy : r'.start ≤ x) :
    r'.start + r'.size ≤ x := by
  obtain ⟨hst, hsi, -⟩ := hs.region hr
  obtain ⟨hs', hsi', -⟩ := hs.region hr'
  rcases Nat.lt_or_gt_of_ne hne with hlt | hlt
  · have hle := c.stop_le_startOf hlt
    omega
  · have hle := c.stop_le_startOf hlt
    omega

theorem Regular.holds {i start} (hi : i ≤ s.currentRegion) (hst : s.window.base + c.startOf i ≤ start)
    (hsto : start + bytes ≤ s.window.base + c.startOf i + c.sizeOf i) : s.window.Holds start bytes := by
  have ht := c.stop_le_total (Nat.le_trans hi hs.opened)
  have hw := hs.total
  constructor <;> omega

theorem Regular.fill {i r r'} (hr : s.region? i = some r) (hst : r'.start = r.start) (hsiz : r'.size = r.size)
    (hus : r.used ≤ r'.used) (hf : r'.used ≤ r.size) :
    Grows c s (s.setRegion i r') := by
  have hre := region?_setRegion r' hr
  obtain ⟨boot, runtime, heq, hsi⟩ := s.setRegion_eq i r'
  rw [heq] at hre ⊢
  refine ⟨⟨?_, hs.regionSize, hs.regionCount, ?_, hs.base, hs.total, hs.reach⟩, ?_, rfl, rfl, rfl, rfl⟩
  · intro index r₁ hr₁
    rw [hre] at hr₁
    split at hr₁
    next heq =>
      cases hr₁
      obtain ⟨h₁, h₂, -⟩ := hs.region hr
      rw [heq, hst, hsiz]
      exact ⟨h₁, h₂, hf⟩
    next => exact hs.region hr₁
  · exact Nat.le_trans (Nat.le_of_eq hsi) hs.opened
  · rintro x ⟨index, r₁, hr₁, hx, hx'⟩
    by_cases heq : index = i
    · rw [heq, hr] at hr₁
      cases hr₁
      exact ⟨i, r', (hre i).trans (if_pos rfl), by omega, by omega⟩
    · exact ⟨index, r₁, ((hre index).trans (if_neg heq)).trans hr₁, hx, hx'⟩

theorem tryAllocate_grants {p} (h : s.tryAllocate bytes alignment = some (p, t)) :
    Grants c s bytes alignment p t := by
  obtain ⟨r, hr, hf, rfl, rfl⟩ := tryAllocate_eq_some.mp h
  obtain ⟨hst, hsi, hu⟩ := hs.region hr
  have hup := le_alignUp r.used (max alignment 1)
  refine ⟨hs.fill hr rfl rfl (Nat.le_trans hup (Nat.le_add_right _ _)) hf, rfl, ?_, ?_, ?_, ?_, ?_, ?_⟩
  · exact Nat.le_of_eq (currentRegion_setRegion _ _ _).symm
  · show _ + c.startOf s.currentRegion ≤ r.start + _
    omega
  · show r.start + _ + bytes ≤ _ + c.startOf s.currentRegion + c.sizeOf s.currentRegion
    omega
  · show max alignment 1 ∣ r.start + alignUp r.used (max alignment 1) - (_ + c.startOf s.currentRegion)
    rw [hst, Nat.add_sub_cancel_left]
    exact dvd_alignUp (by omega)
  · intro x hx hx'
    dsimp only at hx hx'
    refine ⟨s.currentRegion, _, by rw [region?_setRegion _ hr, if_pos rfl], ?_, ?_⟩
    · dsimp only
      omega
    · dsimp only
      omega
  · rintro x hx hx' ⟨index, r₁, hr₁, hy, hy'⟩
    dsimp only at hx hx'
    by_cases heq : index = s.currentRegion
    · rw [heq, hr] at hr₁
      cases hr₁
      omega
    · have ha := hs.apart hr hr₁ (Ne.symm heq) (by omega) (by omega) hy
      have hu₁ := (hs.region hr₁).2.2
      omega

theorem rotate?_grows (h : s.rotate? = some t) : Grows c s t := by
  have hre := region?_rotate h
  obtain ⟨hlt, registered, rfl⟩ := rotate?_eq_some h
  obtain ⟨hbo, hb, -⟩ := hs.region (show s.region? 0 = some s.boot from rfl)
  refine ⟨⟨?_, hs.regionSize, hs.regionCount, ?_, hs.base, hs.total, hs.reach⟩, ?_, rfl, rfl, rfl, rfl⟩
  · intro index r hr
    rw [hre] at hr
    split at hr
    next heq =>
      cases hr
      rw [heq, c.startOf_succ, ← hs.regionSize]
      refine ⟨?_, hs.regionSize, Nat.zero_le _⟩
      show s.boot.start + s.boot.size + _ = _
      rw [hbo, hb]
      simp [CacheConfig.startOf, CacheConfig.sizeOf, Nat.add_assoc]
    next => exact hs.region hr
  · show (s.runtime.push s.nextRegion).size ≤ _
    rw [Array.size_push, ← hs.regionCount]
    exact hlt
  · rintro x ⟨index, r, hr, hx, hx'⟩
    refine ⟨index, r, ?_, hx, hx'⟩
    have hle := exists_region?.mp ⟨r, hr⟩
    rw [hre, if_neg (by omega), hr]

/-- What is granted lies in one region and was not handed out before. -/
theorem allocate_grants {p} (h : s.allocate bytes alignment = (.ok p, t)) :
    Grants c s bytes alignment p t := by
  obtain ht | ⟨u, hr, ht⟩ := allocate_eq_ok h
  · exact tryAllocate_grants hs ht
  · have hg := rotate?_grows hs hr
    exact hg.grants (tryAllocate_grants hg.regular ht)

/-- An allocation that fails hands out nothing. -/
theorem allocate_fails {e} (h : s.allocate bytes alignment = (.error e, t)) :
    Grows c s t ∧ ∃ regions, e = .exhausted bytes s.regionSize regions := by
  obtain ⟨rfl, ⟨-, rfl⟩ | hr⟩ := allocate_eq_error h
  · exact ⟨.refl hs, _, rfl⟩
  · have hg := rotate?_grows hs hr
    exact ⟨hg, _, by rw [hs.regionSize, hg.regular.regionSize]⟩

end

section
variable {host : Host} (h : create c host = .ok s)
include h

theorem create_eq : ∃ size window,
    c.windowSize? = some size ∧ size ≤ callReach ∧ Window.reserve size host = .ok window ∧
      s.boot = { index := 0, name := "boot", start := window.base, size := c.bootRegionSize } ∧
      s = { window, boot := s.boot, regionSize := c.regionSize, regionCount := c.regionCount,
            registered := [s.boot.memoryRegion] } := by
  unfold create at h
  split at h
  next => cases h
  next =>
  split at h
  next => cases h
  next =>
  split at h
  next => cases h
  next size hsi =>
  split at h
  next => cases h
  next hr =>
  split at h
  next => cases h
  next window hw =>
    cases h
    exact ⟨size, window, hsi, Nat.le_of_not_gt hr, hw, rfl, rfl⟩

theorem create_eq_ok :
    s.Regular c ∧ s.installed = [] ∧ s.callSites = [] ∧ s.unlinked = [] ∧ ∀ x, s.window.byte x = 0 := by
  obtain ⟨size, window, ht, hsi, hw, hb, heq⟩ := create_eq h
  rw [hb] at heq
  subst heq
  unfold Window.reserve at hw
  simp only at hw
  split at hw
  next => cases hw
  next =>
  split at hw
  next => cases hw
  next base hm =>
    cases hw
    refine ⟨⟨?_, rfl, rfl, Nat.zero_le _, ?_, ?_, ?_⟩, rfl, rfl, rfl, fun x => rfl⟩
    · intro index r hr
      have hz : index = 0 := Nat.le_zero.mp (exists_region?.mp ⟨_, hr⟩)
      subst hz
      cases hr
      exact ⟨rfl, rfl, Nat.zero_le _⟩
    · exact Nat.dvd_trans host.pages.1 (host.mapped hm).1
    · have hle := le_alignUp size host.pageSize
      unfold CacheConfig.windowSize? at ht
      simp only at ht
      split at ht
      next => cases ht
      next =>
        cases ht
        rw [CacheConfig.total]
        dsimp only
        omega
    · -- the reach is a whole number of pages
      obtain ⟨n, hn⟩ := host.pages.2
      have hp := Nat.pos_of_mul_pos_right (hn ▸ (by decide : 0 < callReach))
      show alignUp size host.pageSize ≤ callReach
      unfold alignUp
      rw [if_neg (Nat.ne_of_gt hp), hn, Nat.mul_comm]
      rw [hn] at hsi
      refine Nat.mul_le_mul_left _ (Nat.le_of_lt_succ ((Nat.div_lt_iff_lt_mul hp).mpr ?_))
      rw [Nat.succ_mul, Nat.mul_comm]
      omega

theorem create_region {i r} (hr : s.region? i = some r) :
    i = 0 ∧ r = { index := 0, name := "boot", start := s.window.base, size := c.bootRegionSize } := by
  obtain ⟨size, window, -, -, -, hb, heq⟩ := create_eq h
  have hw : s.window = window := by rw [heq]
  have hc : s.currentRegion = 0 := by rw [heq]; rfl
  have hi : i ≤ s.currentRegion := exists_region?.mp ⟨_, hr⟩
  obtain rfl : i = 0 := by omega
  rw [hw]
  exact ⟨rfl, (Option.some.inj hr).symm.trans hb⟩

theorem create_reach : s.window.size ≤ callReach :=
  (create_eq_ok h).1.reach

end

end CodeCache
end StackCompiler
