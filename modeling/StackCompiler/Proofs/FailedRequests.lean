/-
What a failed request leaves behind in a code cache. A failed allocation has
changed nothing or opened one region. A failed installation may have copied its
image, and where a call cannot be linked the method stays installed.
-/
import Mathlib
import StackCompiler.Proofs.InstalledBytes
import StackCompiler.Proofs.Placement

namespace StackCompiler.CodeCache

open List

variable {c : CacheConfig} {s t : CodeCache} {m : CompiledMethod} {image : Bytes} {link : Bool} {e : CacheError}

/-! ## Installation -/

/-- The image of a method is copied to its place. -/
def copied (s : CodeCache) (m : CompiledMethod) (image : Bytes) : CodeCache :=
  { s with window := s.window.put m.start image }

/-- The method is found in its region. -/
def entered (s : CodeCache) (m : CompiledMethod) (r : Region) : CodeCache :=
  (s.setRegion m.bundle.region (r.insert m)).push m

theorem enter_copied (s : CodeCache) (m : CompiledMethod) (image : Bytes) :
    (s.copied m image).enter m = (s.region? m.bundle.region).map ((s.copied m image).entered m) := by
  unfold enter
  rw [show (s.copied m image).region? m.bundle.region = s.region? m.bundle.region from rfl]
  split
  next r hr =>
    rw [hr]
    rfl
  next hr =>
    rw [hr]
    rfl

theorem recordCallSites_eq {r} : (s.entered m r).recordCallSites m =
    (s.entered m r).vary s.window (s.callSites ++ callSitesOf m) s.unlinked := by
  unfold entered setRegion
  split <;> rfl

/-- How an installation can end: result and cache. -/
inductive Installs (s : CodeCache) (m : CompiledMethod) (image : Bytes) :
    Bool → Except CacheError Unit → CodeCache → Prop
  | missing {link : Bool} (h : m.isGenerated = false) : Installs s m image link (.error (.notGenerated m.key.text)) s
  | outside {link : Bool} (h : m.start < s.window.base ∨ s.window.base + s.window.size ≤ m.start) :
      Installs s m image link (.error (.outsideWindow m.start)) s
  | past {link : Bool} (h : s.window.base + s.window.size < m.start + image.size) : Installs s m image link
      (.error (.memory (.outOfBounds (m.start - s.window.base) image.size s.window.size))) s
  | homeless {link : Bool} (h : s.region? m.bundle.region = none) (hfits : s.window.Holds m.start image.size) :
      Installs s m image link (.error (.outsideWindow m.start)) (s.copied m image)
  | waits {r : Region} (hr : s.region? m.bundle.region = some r) : Installs s m image false (.ok ())
      { (s.copied m image).entered m r with unlinked := ((s.copied m image).entered m r).unlinked ++ [m] }
  | linked {r : Region} {result : Except CacheError Unit} {t : CodeCache} (hr : s.region? m.bundle.region = some r)
      (h : Links (((s.copied m image).entered m r).recordCallSites m) (result, t)) : Installs s m image true result t

theorem install_installs (s : CodeCache) (m : CompiledMethod) (image : Bytes) (link : Bool) :
    Installs s m image link (s.install m image link).1 (s.install m image link).2 := by
  unfold install
  by_cases hg : m.isGenerated = false
  · rw [if_pos hg]
    exact .missing hg
  rw [if_neg hg]
  by_cases hi : s.window.base ≤ m.start ∧ m.start - s.window.base < s.window.size
  · rw [show s.offsetOf m.start = .ok (m.start - s.window.base) from if_pos hi]
    by_cases hf : m.start - s.window.base + image.size ≤ s.window.size
    · simp only [write_of_le hf, Nat.add_sub_of_le hi.1]
      rw [show ({ s with window := s.window.put m.start image } : CodeCache).enter m = _ from s.enter_copied m image]
      cases hr : s.region? m.bundle.region with
      | none => exact .homeless hr ⟨hi.1, by omega⟩
      | some r =>
        cases link with
        | false => exact .waits hr
        | true => exact .linked hr (linkInstalled_links _ m)
    · have hw : s.window.write (m.start - s.window.base) image =
          .error (.outOfBounds (m.start - s.window.base) image.size s.window.size) := by
        unfold Window.write Window.check
        rw [if_neg hf]
        rfl
      simp only [hw]
      exact .past (by omega)
  · rw [show s.offsetOf m.start = .error (.outsideWindow m.start) from if_neg hi]
    exact .outside (by omega)

section
variable (hs : s.Regular c)
include hs

theorem Regular.copied (m : CompiledMethod) (image : Bytes) : (s.copied m image).Regular c := by
  show (s.vary (s.window.put m.start image) s.callSites s.unlinked).Regular c
  exact hs.vary (by rfl) _ _

theorem Regular.entered {r} (hr : s.region? m.bundle.region = some r) (image : Bytes) :
    ((s.copied m image).entered m r).Regular c := by
  have hf : Grows c _ ((s.copied m image).setRegion m.bundle.region (r.insert m)) :=
    (hs.copied m image).fill hr rfl rfl (Nat.le_refl r.used) (hs.region hr).2.2
  exact { hf.regular with }

theorem Regular.install (m : CompiledMethod) (image : Bytes) (link : Bool) :
    (s.install m image link).2.Regular c := by
  have h := s.install_installs m image link
  revert h
  generalize (s.install m image link).1 = result
  generalize (s.install m image link).2 = t
  intro h
  cases h with
  | missing | outside | past => exact hs
  | homeless => exact hs.copied m image
  | waits hr => exact { hs.entered hr image with }
  | linked hr h => exact h.relinked.regular { hs.entered hr image with }

theorem Regular.register (r : MemoryRegion) : (s.register r).Regular c := by
  unfold CodeCache.register
  split
  · exact hs
  · exact { hs with }

end

/-! ## Reachable caches -/

/-- The caches that come from a configuration by requests of any kind, successful or not. -/
inductive Requested (c : CacheConfig) : CodeCache → Prop
  | create {host : Host} {s : CodeCache} (h : create c host = .ok s) : Requested c s
  | allocate {s : CodeCache} (h : Requested c s) (bytes alignment : Nat) : Requested c (s.allocate bytes alignment).2
  | register {s : CodeCache} (h : Requested c s) (r : MemoryRegion) : Requested c (s.register r)
  | install {s : CodeCache} (h : Requested c s) (m : CompiledMethod) (image : Bytes) (link : Bool) :
      Requested c (s.install m image link).2
  | linkAll {s : CodeCache} (h : Requested c s) : Requested c s.linkAll.2

theorem Requested.regular (h : s.Requested c) : s.Regular c := by
  induction h with
  | create h => exact (create_eq_ok h).1
  | allocate _ bytes alignment ih => exact (allocate_grows ih bytes alignment).regular
  | register _ r ih => exact ih.register r
  | install _ m image link ih => exact ih.install m image link
  | @linkAll s _ ih =>
    have hr : s.recorded.Regular c := by
      rw [recorded_eq]
      exact ih.vary rfl _ _
    exact s.linkAll_links.relinked.regular hr

/-! ## Failed allocations -/

theorem allocate_error {bytes alignment} (h : s.allocate bytes alignment = (.error e, t)) :
    e = .exhausted bytes s.regionSize t.currentRegion ∧
      (s.regionCount ≤ s.currentRegion ∧ t = s ∨ s.currentRegion < s.regionCount ∧ s.rotate? = some t) := by
  obtain ⟨rfl, ⟨hr, rfl⟩ | hr⟩ := allocate_eq_error h
  · exact ⟨rfl, .inl ⟨by simpa [rotate?_eq] using hr, rfl⟩⟩
  · obtain ⟨hlt, registered, rfl⟩ := rotate?_eq_some hr
    exact ⟨rfl, .inr ⟨hlt, hr⟩⟩

theorem allocate_region {bytes alignment p} (h : s.allocate bytes alignment = (.ok p, t)) :
    p.region = t.currentRegion := by
  obtain ⟨u, ht⟩ := exists_tryAllocate h
  obtain ⟨r, -, -, rfl, rfl⟩ := tryAllocate_eq_some.mp ht
  rw [currentRegion_setRegion]

theorem currentRegion_le_of_granted {requests p} (h : p ∈ granted (s.allocateEach requests).1) :
    s.currentRegion ≤ p.region := by
  induction requests generalizing s with
  | nil => cases h
  | cons request rest ih =>
    have hle := (s.allocate_fills request.1 request.2).currentRegion_le
    rw [allocateEach_cons] at h
    rcases hr : s.allocate request.1 request.2 with ⟨e | q, t⟩
    · rw [hr] at h hle
      exact Nat.le_trans hle (ih h)
    · rw [hr] at h hle
      rcases mem_cons.mp h with rfl | h
      · exact allocate_region hr ▸ hle
      · exact Nat.le_trans hle (ih h)

theorem totalSize_rotate (h : s.rotate? = some t) : t.totalSize = s.totalSize := by
  obtain ⟨-, registered, rfl⟩ := rotate?_eq_some h
  simp [totalSize, nextRegion]

theorem Regular.allocate_zero (hs : s.Regular c) : ∃ p t, s.allocate 0 1 = (.ok p, t) ∧ p.region = s.currentRegion := by
  obtain ⟨r, hr⟩ := exists_region?.mpr (Nat.le_refl s.currentRegion)
  have hf : alignUp r.used (max 1 1) + 0 ≤ r.size := by
    simpa [alignUp] using (hs.region hr).2.2
  obtain ⟨p, t, ht, hp⟩ : ∃ p t, s.tryAllocate 0 1 = some (p, t) ∧ p.region = s.currentRegion :=
    ⟨_, _, tryAllocate_eq_some.mpr ⟨r, hr, hf, rfl, rfl⟩, rfl⟩
  refine ⟨p, t, ?_, hp⟩
  unfold CodeCache.allocate
  rw [ht]

/-- An allocation fails without a trace when all regions are open. Otherwise it is larger than a
region, and the next one has been opened for it: the earlier ones are never used again. -/
theorem failed_allocation_opens_one_region (hs : s.Requested c) {bytes alignment : Nat}
    (h : s.allocate bytes alignment = (.error e, t)) :
    e = .exhausted bytes c.regionSize t.currentRegion ∧ t.totalSize = s.totalSize ∧
      if s.currentRegion = c.regionCount then t = s else
        c.regionSize < bytes ∧
        t = { s with
          registered := (s.register s.nextRegion.memoryRegion).registered
          runtime := s.runtime.push s.nextRegion } ∧
        t.currentRegion = s.currentRegion + 1 ∧
        (∃ requests, (t.allocateEach requests).1 ≠ (s.allocateEach requests).1) ∧
        ∀ requests, ∀ p ∈ granted (t.allocateEach requests).1, s.currentRegion < p.region := by
  have hr := hs.regular
  obtain ⟨he, hc⟩ := allocate_error h
  rw [hr.regionSize] at he
  rw [hr.regionCount] at hc
  rcases hc with ⟨hf, rfl⟩ | ⟨hlt, hro⟩
  · rw [if_pos (Nat.le_antisymm hr.opened hf)]
    exact ⟨he, rfl, rfl⟩
  have hcu : t.currentRegion = s.currentRegion + 1 := by
    obtain ⟨-, registered, rfl⟩ := rotate?_eq_some hro
    exact Array.size_push _
  have ht : t.Regular c := (rotate?_grows hr hro).regular
  rw [if_neg (Nat.ne_of_lt hlt)]
  refine ⟨he, totalSize_rotate hro, Nat.lt_of_not_le fun hle => ?_, ?_, hcu, ⟨[(0, 1)], fun heq => ?_⟩,
    fun requests p hp => ?_⟩
  · have hok : (s.allocate bytes alignment).1.isOk = true := (s.allocate_isOk_iff bytes alignment).mpr
      (.inr ⟨hr.regionCount ▸ hlt, hr.regionSize ▸ hle⟩)
    rw [h] at hok
    cases hok
  · rw [rotate?_eq, if_neg (by rw [hr.regionCount]; exact Nat.not_le_of_lt hlt), register_eq] at hro
    cases hro
    rfl
  · obtain ⟨p, s', hp, hps⟩ := hr.allocate_zero
    obtain ⟨q, t', hq, hqt⟩ := ht.allocate_zero
    rw [allocateEach_cons, allocateEach_cons, hp, hq] at heq
    cases heq
    omega
  · have := currentRegion_le_of_granted hp
    omega

/-- A request for 100 bytes opens the first of two regions of 64 bytes: the boot region's 40 are lost. -/
theorem failed_allocation_strands_boot_region : ∃ s t, create ⟨64, 2, 40⟩ = .ok s ∧
    s.allocate 100 1 = (.error (.exhausted 100 64 1), t) ∧ s.currentRegion = 0 ∧ t.currentRegion = 1 ∧
    s.registered.length = 1 ∧ t.registered.length = 2 ∧
    (s.allocateEach [(40, 8), (64, 8), (64, 8)]).1 = [.ok ⟨0, 0, 40⟩, .ok ⟨1, 40, 64⟩, .ok ⟨2, 104, 64⟩] ∧
    (t.allocateEach [(40, 8), (64, 8), (64, 8)]).1 =
      [.ok ⟨1, 40, 40⟩, .ok ⟨2, 104, 64⟩, .error (.exhausted 64 64 2)] :=
  ⟨_, _, rfl, rfl, rfl, rfl, rfl, rfl, rfl, rfl⟩

/-- The first request for 100 bytes opens a region, the third one finds no slot and changes nothing. -/
theorem failed_allocation_opens_one_region_small : ∃ s t u, create ⟨64, 2, 40⟩ = .ok s ∧
    s.allocate 100 1 = (.error (.exhausted 100 64 1), t) ∧
    (∀ requests, ∀ p ∈ granted (t.allocateEach requests).1, 0 < p.region) ∧
    (t.allocate 100 1).2 = u ∧ (u.allocate 100 1).2 = u := by
  have hs : create ⟨64, 2, 40⟩ = .ok _ := rfl
  have hf := @failed_allocation_opens_one_region _ _ _ _ (.create hs) 100 1 rfl
  have ht := @failed_allocation_opens_one_region _ _ _ _
    (((Requested.create hs).allocate 100 1).allocate 100 1) 100 1 rfl
  exact ⟨_, _, _, hs, rfl, hf.2.2.2.2.2.2, rfl, ht.2.2⟩

/-! ## Failed installations -/

/-- A failed installation has changed nothing where the method has no code or its image is not in
the window, and only copied the image where its region does not exist. Where a call cannot be
linked, the method stays installed, as the newest of its key, with its image copied and its calls
recorded. At most recorded calls have been written over; those without a callee are pending. -/
theorem failed_installation_leaves (h : s.install m image link = (.error e, t)) :
    (t = s ∧ (m.isGenerated = false ∧ e = .notGenerated m.key.text ∨
        (m.start < s.window.base ∨ s.window.base + s.window.size ≤ m.start) ∧ e = .outsideWindow m.start ∨
        s.window.base + s.window.size < m.start + image.size ∧
          e = .memory (.outOfBounds (m.start - s.window.base) image.size s.window.size))) ∨
      (t = { s with window := s.window.put m.start image } ∧ s.window.Holds m.start image.size ∧
        s.region? m.bundle.region = none ∧ e = .outsideWindow m.start) ∨
      (link = true ∧ t.Unlinkable e ∧ t.installed = s.installed ++ [m] ∧ t.newest? m.key = some m ∧
        t.callSites = s.callSites ++ callSitesOf m ∧ t.unlinked = s.unlinked ∧
        t.pendingCallSites = ((s.callSites ++ callSitesOf m).filter fun site =>
          m.key ≠ site.callee && (s.newest? site.callee).isNone).length ∧
        ∃ r, s.region? m.bundle.region = some r ∧
          Relinked (((s.copied m image).entered m r).recordCallSites m) t) := by
  have hi := s.install_installs m image link
  rw [h] at hi
  dsimp only at hi
  clear h
  cases hi with
  | missing hm => exact .inl ⟨rfl, .inl ⟨hm, rfl⟩⟩
  | outside ho => exact .inl ⟨rfl, .inr (.inl ⟨ho, rfl⟩)⟩
  | past hp => exact .inl ⟨rfl, .inr (.inr ⟨hp, rfl⟩)⟩
  | homeless hn hfi => exact .inr (.inl ⟨rfl, hfi, hn, rfl⟩)
  | @linked r _ _ hr h =>
    obtain ⟨hre, hu⟩ := h
    have hin : t.installed = s.installed ++ [m] := by
      obtain ⟨boot, runtime, heq, -⟩ := (s.copied m image).setRegion_eq m.bundle.region (r.insert m)
      rw [hre.installed, recordCallSites_eq, entered, heq]
      rfl
    have hsi : t.callSites = s.callSites ++ callSitesOf m := by
      rw [hre.callSites, recordCallSites_eq]
      rfl
    refine .inr (.inr ⟨rfl, hu rfl, hin, ?_, hsi, ?_, ?_, _, hr, hre⟩)
    · rw [newest?_append hin, if_pos rfl]
    · rw [hre.unlinked, recordCallSites_eq]
      rfl
    · rw [pendingCallSites, hsi]
      refine congrArg length (filter_congr fun site _ => ?_)
      rw [newest?_append hin]
      by_cases hk : m.key = site.callee <;> simp [hk]

/-- A method at a place, with direct calls at the start of its code. -/
def placedAt (name : String) (region start : Nat) (callees : List MethodKey) : CompiledMethod where
  key := ⟨"T", name, "()V"⟩
  published := some { region, start, code := #[1, 2, 3, 4], stopPositions := callees.map fun _ => 0, callees }

/-- The bytes of a method without region are in the window, and one whose call cannot be linked, for
its callee stands at 30, is the newest of its key. -/
theorem failed_installation_stays : ∃ s t u v, create ⟨64, 2, 40⟩ = .ok s ∧
    s.install (placedAt "f" 5 0 []) #[1, 2, 3, 4] true = (.error (.outsideWindow 0), t) ∧
    s.window.byte 0 = 0 ∧ t.window.byte 0 = 1 ∧
    s.install (placedAt "g" 0 30 []) #[1, 2, 3, 4] true = (.ok (), u) ∧
    u.install (placedAt "f" 0 0 [⟨"T", "g", "()V"⟩]) #[1, 2, 3, 4] true =
      (.error (.link (.misaligned "bl" "label" 30 4)), v) ∧
    u.newest? ⟨"T", "f", "()V"⟩ = none ∧ v.newest? ⟨"T", "f", "()V"⟩ = some (placedAt "f" 0 0 [⟨"T", "g", "()V"⟩]) ∧
    u.methodAt? 0 = none ∧ (v.methodAt? 0).isSome = true :=
  ⟨_, _, _, _, rfl, rfl, rfl, rfl, rfl, rfl, rfl, rfl, rfl, rfl⟩

/-- A method with a call of `g` and one of a method that is not there. -/
def callingTwo : CompiledMethod := placedAt "f" 0 0 [⟨"T", "g", "()V"⟩, ⟨"T", "h", "()V"⟩]

/-- The call of the method that is not there is recorded and pending. -/
theorem failed_installation_leaves_misaligned : ∃ s t u, create ⟨64, 2, 40⟩ = .ok s ∧
    s.install (placedAt "g" 0 30 []) #[1, 2, 3, 4] true = (.ok (), t) ∧
    t.install callingTwo #[1, 2, 3, 4] true = (.error (.link (.misaligned "bl" "label" 30 4)), u) ∧
    u.Unlinkable (.link (.misaligned "bl" "label" 30 4)) ∧ u.installed = t.installed ++ [callingTwo] ∧
    u.callSites = [⟨⟨"T", "g", "()V"⟩, 0⟩, ⟨⟨"T", "h", "()V"⟩, 0⟩] ∧ t.pendingCallSites = 0 ∧
    u.pendingCallSites = 1 := by
  obtain ⟨s, t, u, hs, ht, h, hno, hp, hp'⟩ : ∃ s t u, create ⟨64, 2, 40⟩ = .ok s ∧
      s.install (placedAt "g" 0 30 []) #[1, 2, 3, 4] true = (.ok (), t) ∧
      t.install callingTwo #[1, 2, 3, 4] true = (.error (.link (.misaligned "bl" "label" 30 4)), u) ∧
      t.callSites = [] ∧ t.pendingCallSites = 0 ∧ ((t.callSites ++ callSitesOf callingTwo).filter fun site =>
        callingTwo.key ≠ site.callee && (t.newest? site.callee).isNone).length = 1 :=
    ⟨_, _, _, rfl, rfl, rfl, rfl, rfl, rfl⟩
  refine ⟨s, t, u, hs, ht, h, ?_⟩
  rcases failed_installation_leaves h with
    ⟨-, ⟨h, -⟩ | ⟨-, h⟩ | ⟨-, h⟩⟩ | ⟨-, -, -, h⟩ | ⟨-, hu, hi, -, hsi, -, hpe, -⟩
  · cases h
  · cases h
  · cases h
  · cases h
  · rw [hno] at hsi
    exact ⟨hu, hi, hsi, hp, hpe.trans hp'⟩

end StackCompiler.CodeCache
