/-
What the window keeps of installed methods. Linking writes over the words of
calls and nothing else (`Relinked`), and a new method gets bytes that were free.
-/
import StackCompiler.Proofs.Arrangement

namespace StackCompiler

open List Window

/-- A byte in the image of a method that belongs to no call that is linked. -/
def CompiledMethod.Lasting (m : CompiledMethod) (i : Nat) : Prop :=
  ∀ site ∈ CodeCache.callSitesOf m, ¬ (site.address ≤ m.start + i ∧ m.start + i < site.address + 4)

/-- A method whose bundle is the code of a linear method with its variables placed. -/
def CompiledMethod.MadeFrom (cm : CompiledMethod) (m : Linear.Method) (a : Allocation) : Prop :=
  ∃ e b p, Emission.ofMethod m a = .ok e ∧ Bundle.ofEmission m a e = .ok b ∧ cm = b.placed m.key p

namespace CodeCache
variable {c : CacheConfig} {s t u : CodeCache}

/-! ## Linking -/

/-- A cache in which at most recorded calls have been written over. -/
structure Relinked (s t : CodeCache) : Prop where
  same : t = s.vary t.window s.callSites s.unlinked
  extent : t.window.toExtent = s.window.toExtent
  byte : ∀ {x}, (∀ site ∈ s.callSites, ¬ (site.address ≤ x ∧ x < site.address + 4)) →
    t.window.byte x = s.window.byte x

/-- A recorded call that cannot be linked, and the reason. -/
def Unlinkable (s : CodeCache) (e : CacheError) : Prop :=
  ∃ site ∈ s.callSites, ∃ callee, s.newest? site.callee = some callee ∧
    (s.patch site.address callee.codeStart).1 = .error e

/-- How linking ends: it has written over recorded calls, and if it failed, then for one of them. -/
structure Links {α : Type} (s : CodeCache) (r : Except CacheError α × CodeCache) : Prop where
  relinked : Relinked s r.2
  unlinkable : ∀ {e}, r.1 = .error e → r.2.Unlinkable e

theorem Relinked.refl (s : CodeCache) : Relinked s s := ⟨rfl, rfl, fun _ => rfl⟩

section
variable (h : Relinked s t)
include h

theorem Relinked.installed : t.installed = s.installed := by
  rw [h.same]
  rfl

theorem Relinked.callSites : t.callSites = s.callSites := by
  rw [h.same]
  rfl

theorem Relinked.unlinked : t.unlinked = s.unlinked := by
  rw [h.same]
  rfl

theorem Relinked.linkCalls (sites : List CallSite) : t.linkCalls sites = s.linkCalls sites := by
  rw [h.same]
  rfl

theorem Relinked.regular (hs : s.Regular c) : t.Regular c := by
  rw [h.same]
  exact hs.vary h.extent _ _

theorem Relinked.trans (h' : Relinked t u) : Relinked s u := by
  refine ⟨?_, h'.extent.trans h.extent, fun hx => ?_⟩
  · conv => lhs; rw [h'.same, h.same]
    rfl
  · rw [h'.byte (h.callSites ▸ hx), h.byte hx]

theorem Relinked.links {α : Type} {r : Except CacheError α × CodeCache} (h' : Links t r) : Links s r :=
  ⟨h.trans h'.relinked, h'.unlinkable⟩

end

theorem patch_cases (s : CodeCache) (address target : Nat) : (∃ e, s.patch address target = (.error e, s)) ∨
    ∃ word, s.patch address target =
      (.ok (), { s with window := s.window.put address (Bytes.ofWord word).toArray }) := by
  unfold patch
  split
  next => exact .inl ⟨_, rfl⟩
  next word _ =>
    unfold offsetOf writeWord write check
    by_cases ho : s.window.base ≤ address ∧ address - s.window.base < s.window.size
    · rw [if_pos ho]
      simp only [Nat.add_sub_of_le ho.1]
      split
      next => exact .inl ⟨_, rfl⟩
      next h =>
        split at h
        next =>
          cases h
          exact .inr ⟨word, rfl⟩
        next => cases h
    · rw [if_neg ho]
      exact .inl ⟨_, rfl⟩

theorem patch_links {call} (h : call ∈ s.linkCalls s.callSites) : Links s (s.patch call.1 call.2) := by
  obtain ⟨site, hs, callee, hc, rfl⟩ := mem_linkCalls.mp h
  have hu : ∀ {e}, (s.patch site.address callee.codeStart).1 = .error e → s.Unlinkable e :=
    fun he => ⟨site, hs, callee, hc, he⟩
  rcases s.patch_cases site.address callee.codeStart with ⟨e, hp⟩ | ⟨word, hp⟩ <;> rw [hp] at hu ⊢
  · exact ⟨.refl s, hu⟩
  · refine ⟨⟨rfl, rfl, fun {x} hx => byte_put_outside _ ?_⟩, fun he => by cases he⟩
    have hx := hx site hs
    rw [size_toArray, Bytes.length_ofWord]
    omega

theorem patchAll_links : ∀ {calls : List (Nat × Nat)} {s : CodeCache}, calls ⊆ s.linkCalls s.callSites →
    Links s (s.patchAll calls)
  | [], s, _ => ⟨.refl s, fun h => by cases h⟩
  | (address, target) :: rest, s, h => by
    obtain ⟨hf, hr⟩ := cons_subset.mp h
    have hl := patch_links hf
    unfold patchAll
    rcases hp : s.patch address target with ⟨e | _, t⟩ <;> rw [hp] at hl
    · exact hl
    · refine hl.relinked.links (patchAll_links ?_)
      rw [hl.relinked.linkCalls, hl.relinked.callSites]
      exact hr

theorem linkCalls_subset {sites} (h : sites ⊆ s.callSites) : s.linkCalls sites ⊆ s.linkCalls s.callSites :=
  fun _ hc => by
    obtain ⟨site, hs, hm⟩ := mem_linkCalls.mp hc
    exact mem_linkCalls.mpr ⟨site, h hs, hm⟩

theorem linkCallersOf_links (s : CodeCache) (key : MethodKey) : Links s (s.linkCallersOf key) := by
  have hp := patchAll_links (linkCalls_subset (s.callersOf_subset key))
  rw [linkCallersOf_eq]
  refine ⟨hp.relinked, fun {e} he => hp.unlinkable ?_⟩
  rcases hr : (s.patchAll (s.linkCalls (s.callersOf key))).1 with e' | _ <;> rw [hr] at he <;> cases he
  rfl

theorem linkIn_links : ∀ {keys : List MethodKey} {count : Nat} {s : CodeCache}, Links s (s.linkIn count keys)
  | [], _, s => ⟨.refl s, fun h => by cases h⟩
  | key :: rest, count, s => by
    have hl := s.linkCallersOf_links key
    unfold linkIn
    rcases hc : s.linkCallersOf key with ⟨e | n, t⟩ <;> rw [hc] at hl
    · exact ⟨hl.relinked, fun he => by cases he; exact hl.unlinkable rfl⟩
    · exact hl.relinked.links linkIn_links

theorem linkAll_links (s : CodeCache) : Links s.recorded s.linkAll := linkIn_links

theorem linkInstalled_links (s : CodeCache) (m : CompiledMethod) :
    Links (s.recordCallSites m) (s.linkInstalled m) := by
  have hl := (s.recordCallSites m).linkCallersOf_links m.key
  unfold linkInstalled
  rcases hc : (s.recordCallSites m).linkCallersOf m.key with ⟨e | n, t⟩ <;> rw [hc] at hl
  · exact ⟨hl.relinked, fun he => by cases he; exact hl.unlinkable rfl⟩
  · refine hl.relinked.links (patchAll_links (linkCalls_subset ?_))
    rw [hl.relinked.callSites]
    exact subset_append_right _ _

/-! ## Bytes that stay -/

/-- An address of a call of an installed method. -/
def IsSite (s : CodeCache) (address : Nat) : Prop :=
  ∃ m ∈ s.installed, ∃ site ∈ callSitesOf m, site.address = address

/-- The window holds what was written of installed methods, apart from recorded calls. -/
structure Kept (c : CacheConfig) (s : CodeCache) : Prop extends Spread c s where
  sites : ∀ site ∈ s.callSites, s.IsSite site.address
  waiting : s.unlinked ⊆ s.installed
  bytes : ∀ m ∈ s.installed, ∀ {i b}, m.image[i]? = some b → m.Lasting i → s.window.byte (m.start + i) = b

theorem Spread.not_isSite (hs : s.Spread c) {m} (hm : m ∈ s.installed) {i} (hi : i < m.image.size)
    (hl : m.Lasting i) {address} (h : s.IsSite address) : ¬ (address ≤ m.start + i ∧ m.start + i < address + 4) := by
  obtain ⟨n, hn, site, hsi, rfl⟩ := h
  intro hx
  obtain ⟨hle, hst⟩ := (hs.sited n hn).site_within hsi
  have hc : m.Covers (m.start + i) := ⟨Nat.le_add_right _ _, Nat.add_lt_add_left hi _⟩
  obtain rfl := hs.eq_of_covers hm hn hc ⟨by omega, by omega⟩
  exact hl site hsi hx

theorem IsSite.mono {address} (h : s.IsSite address) (hi : s.installed ⊆ t.installed) : t.IsSite address := by
  obtain ⟨m, hm, hr⟩ := h
  exact ⟨m, hi hm, hr⟩

variable {cm : CompiledMethod}

section
variable (hs : s.Kept c)
include hs

theorem Kept.vary {sites unlinked} (hsi : ∀ site ∈ sites, s.IsSite site.address) (hu : unlinked ⊆ s.installed) :
    (s.vary s.window sites unlinked).Kept c :=
  { hs.toSpread.vary rfl sites unlinked with sites := hsi, waiting := hu, bytes := hs.bytes }

theorem Kept.relinked (h : Relinked s t) : t.Kept c := by
  have hsp : t.Spread c := by
    rw [h.same]
    exact hs.toSpread.vary h.extent _ _
  refine { hsp with sites := ?_, waiting := ?_, bytes := fun m hm i b hb hl => ?_ }
  · rw [h.callSites]
    exact fun site hsi => (hs.sites site hsi).mono (h.installed ▸ List.Subset.refl _)
  · rw [h.unlinked, h.installed]
    exact hs.waiting
  · rw [h.installed] at hm
    rw [h.byte fun site hsi => hs.not_isSite hm (Array.getElem?_eq_some_iff.mp hb).1 hl (hs.sites site hsi)]
    exact hs.bytes m hm hb hl

theorem Kept.grows (h : Grows c s t) : t.Kept c := by
  refine { hs.toSpread.grows h with sites := ?_, waiting := ?_, bytes := ?_ }
  · rw [h.callSites]
    exact fun site hsi => (hs.sites site hsi).mono (h.installed ▸ List.Subset.refl _)
  · rw [h.unlinked, h.installed]
    exact hs.waiting
  · rw [h.installed, h.window]
    exact hs.bytes

theorem Kept.put (h : Entered c s cm t) :
    ({ t with window := t.window.put cm.start cm.image } : CodeCache).Kept c := by
  have hsp : ({ t with window := t.window.put cm.start cm.image } : CodeCache).Spread c :=
    (hs.enter h).vary (w := t.window.put cm.start cm.image) rfl t.callSites t.unlinked
  have hi : s.installed ⊆ t.installed := h.installed ▸ subset_append_left _ _
  refine { hsp with
    sites := fun site hsi => (hs.sites site (h.callSites ▸ hsi)).mono hi
    waiting := fun m hm => hi (hs.waiting (h.unlinked ▸ hm))
    bytes := h.forall_installed (fun m hm i b hb hl => ?_) fun hb _ => byte_put_inside _ _ hb }
  have hlt := (Array.getElem?_eq_some_iff.mp hb).1
  have hf : ¬ cm.Covers (m.start + i) := fun hc =>
    h.fresh hc (hs.handed m hm ⟨Nat.le_add_right _ _, by omega⟩)
  unfold CompiledMethod.Covers at hf
  show (t.window.put cm.start cm.image).byte (m.start + i) = b
  rw [byte_put_outside _ (by omega), h.window]
  exact hs.bytes m hm hb hl

theorem Kept.linkInstalled (hcm : cm ∈ s.installed) :
    (s.linkInstalled cm).2.Kept c ∧ (s.linkInstalled cm).2.installed = s.installed := by
  have hl := (s.linkInstalled_links cm).relinked
  have hr : (s.recordCallSites cm).Kept c :=
    hs.vary (forall_mem_append.mpr ⟨hs.sites, fun site hsi => ⟨cm, hcm, site, hsi, rfl⟩⟩) hs.waiting
  exact ⟨hr.relinked hl, hl.installed⟩

theorem Kept.settle (h : Entered c s cm t) (link : Bool) :
    (t.settle cm link).2.Kept c ∧ (t.settle cm link).2.installed = s.installed ++ [cm] := by
  have hp := hs.put h
  rw [← h.installed]
  unfold CodeCache.settle
  cases link with
  | true => exact hp.linkInstalled h.mem
  | false =>
    have hu : t.unlinked ++ [cm] ⊆ t.installed :=
      append_subset.mpr ⟨hp.waiting, cons_subset.mpr ⟨h.mem, nil_subset _⟩⟩
    exact ⟨hp.vary hp.sites hu, rfl⟩

theorem Kept.generate (m : Linear.Method) (a : Allocation) (link : Bool) :
    (s.generate m a link).2.Kept c ∧ s.installed ⊆ (s.generate m a link).2.installed := by
  rcases ha : s.accept m a with ⟨e | cm, t⟩
  · have hg := (accept_refused hs.regular ha).1
    rw [generate_of_refused ha]
    exact ⟨hs.grows hg, hg.installed ▸ List.Subset.refl _⟩
  · obtain ⟨hk, hi⟩ := hs.settle (accept_entered hs.regular ha) link
    rw [generate_eq_settle hs.regular ha]
    refine ⟨hk, ?_⟩
    rw [hi]
    exact subset_append_left _ _

end

theorem Kept.recorded (hs : s.Kept c) : s.recorded.Kept c := by
  rw [recorded_eq]
  refine hs.vary (forall_mem_append.mpr ⟨hs.sites, fun site hsi => ?_⟩) (nil_subset _)
  obtain ⟨m, hm, hsi⟩ := mem_flatMap.mp hsi
  exact ⟨m, hs.waiting hm, site, hsi, rfl⟩

theorem Kept.linkAll (hs : s.Kept c) : s.linkAll.2.Kept c ∧ s.linkAll.2.installed = s.installed := by
  have hl := s.linkAll_links.relinked
  refine ⟨hs.recorded.relinked hl, hl.installed.trans ?_⟩
  rw [recorded_eq]
  rfl

/-! ## Histories -/

theorem Kept.create {host} (h : create c host = .ok s) : s.Kept c := by
  obtain ⟨-, hi, hsi, hu, -⟩ := create_eq_ok h
  exact { Spread.create h with sites := by simp [hsi], waiting := by simp [hu], bytes := by simp [hi] }

/-- The caches that come from a cache by compiling methods, linked or not, and by linking all calls. -/
inductive Later (s : CodeCache) : CodeCache → Prop
  | refl : Later s s
  | generate {t : CodeCache} (h : Later s t) (m : Linear.Method) (a : Allocation) (link : Bool) :
      Later s (t.generate m a link).2
  | linkAll {t : CodeCache} (h : Later s t) : Later s t.linkAll.2

/-- All bytes of installed methods but those of calls stay. -/
theorem Later.kept (h : Later s t) (hs : s.Kept c) : t.Kept c ∧ s.installed ⊆ t.installed := by
  induction h with
  | refl => exact ⟨hs, List.Subset.refl _⟩
  | generate _ m a link ih =>
    obtain ⟨hk, hsu⟩ := ih.1.generate m a link
    exact ⟨hk, List.Subset.trans ih.2 hsu⟩
  | linkAll _ ih =>
    obtain ⟨hk, hi⟩ := ih.1.linkAll
    exact ⟨hk, hi ▸ ih.2⟩

theorem accept_madeFrom {m a} (h : s.accept m a = (.ok cm, t)) : cm.MadeFrom m a := by
  obtain ⟨e, b, p, -, he, hb, -, hcm, -⟩ := accept_eq_ok h
  exact ⟨e, b, p, he, hb, hcm⟩

/-- A method that was compiled is installed with the bundle of its code. -/
theorem Kept.generated (hs : s.Kept c) {m a link} (h : (s.generate m a link).1 = .ok cm) :
    cm ∈ (s.generate m a link).2.installed ∧ cm.MadeFrom m a := by
  rcases ha : s.accept m a with ⟨e | cm', t⟩
  · rw [generate_of_refused ha] at h
    cases h
  · have hi := (hs.settle (accept_entered hs.regular ha) link).2
    rw [generate_eq_settle hs.regular ha] at h ⊢
    obtain rfl : cm' = cm := by
      cases hse : (t.settle cm' link).1 with
      | error e =>
        rw [hse] at h
        cases h
      | ok _ =>
        rw [hse] at h
        cases h
        rfl
    refine ⟨?_, accept_madeFrom ha⟩
    rw [hi]
    exact mem_append_right _ mem_cons_self

end CodeCache
end StackCompiler
