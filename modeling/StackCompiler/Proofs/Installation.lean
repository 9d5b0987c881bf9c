/-
Installation in two steps: a cache first accepts a method, then the method is
settled.
-/
import StackCompiler.Proofs.CallSites
import StackCompiler.Proofs.Regions

namespace StackCompiler

/-! ## Errors of code that is not placed yet -/

/-- A result that is not an error of the code cache. -/
def CacheFree {α : Type} (r : Except CodegenError α) : Prop := ∀ e, r ≠ .error (.cache e)

namespace CacheFree

theorem ok {α : Type} (x : α) : CacheFree (.ok x) := fun _ h => by cases h

theorem bind {α β : Type} {r} {f : α → Except CodegenError β} (hr : CacheFree r)
    (hf : ∀ x, CacheFree (f x)) : CacheFree (r >>= f) := by
  cases r with
  | ok x => exact hf x
  | error e =>
    intro e' h
    cases h
    exact hr e' rfl

theorem map {α β : Type} {r} (f : α → β) (hr : CacheFree r) : CacheFree (r.map f) := by
  cases r with
  | ok x => exact .ok _
  | error e =>
    intro e' h
    cases h
    exact hr e' rfl

end CacheFree

namespace Emission

theorem cacheFree_add (method : String) (e : Emission) (line : Line) : CacheFree (e.add method line) := by
  intro err h
  cases line with
  | insn opcode operands =>
    simp only [add] at h
    split at h <;> cases h
  | block id handler =>
    simp only [add] at h
    split at h <;> cases h
  | toPlace | stop | trap | refuse => cases h

theorem cacheFree_addAll (method : String) : ∀ (lines : List Line) (e : Emission),
    CacheFree (addAll method lines e)
  | [], e => .ok e
  | line :: rest, e => by
    unfold addAll
    split
    · exact cacheFree_addAll method rest _
    next err ha =>
      intro e' h
      cases h
      exact cacheFree_add method e line e' ha

end Emission

namespace LiteralPool

theorem cacheFree_write : ∀ (scalars : List (Value × Label)) (offset : Nat) (placed : List (Label × Nat))
    (bytes : Bytes), CacheFree (write offset placed bytes scalars)
  | [], offset, placed, bytes => by
    intro e h
    unfold write at h
    split at h <;> cases h
  | (v, label) :: rest, offset, placed, bytes => by
    unfold write
    split
    · intro e h
      cases h
    · split
      · intro e h
        cases h
      · exact cacheFree_write rest _ _ _

theorem cacheFree_pack (literals : List (Literal × Label)) : CacheFree (pack literals) := by
  unfold pack
  simp only
  split
  next err hw =>
    intro e h
    cases h
    exact cacheFree_write _ _ _ _ e hw
  next => exact .ok _

end LiteralPool

namespace Bundle

theorem cacheFree_fixLabels : ∀ (addresses : List (Label × Nat)) (b : Buffer), CacheFree (fixLabels b addresses)
  | [], b => .ok b
  | (label, address) :: rest, b => by
    unfold fixLabels
    split
    · exact cacheFree_fixLabels rest _
    · intro e h
      cases h

theorem cacheFree_catchBlocks (method : String) (b : Buffer) : ∀ handlers : List (Option Label),
    CacheFree (catchBlocks method b handlers)
  | [] => .ok []
  | none :: rest => (cacheFree_catchBlocks method b rest).map _
  | some label :: rest => by
    unfold catchBlocks
    split
    · intro e h
      cases h
    · split
      · intro e h
        cases h
      · exact (cacheFree_catchBlocks method b rest).map _

theorem cacheFree_ofEmission (m : Linear.Method) (a : Allocation) (e : Emission) :
    CacheFree (ofEmission m a e) := by
  unfold ofEmission
  refine (LiteralPool.cacheFree_pack _).bind fun pool => ?_
  refine (cacheFree_fixLabels _ _).bind fun buffer => ?_
  split
  next buffer finished _ =>
    simp only
    split
    · exact ((cacheFree_catchBlocks _ _ _).map _).bind fun table => .ok _
    · intro e h
      cases h

theorem cacheFree_make (m : Linear.Method) (a : Allocation) : CacheFree (make m a) :=
  (Emission.cacheFree_addAll _ _ _).bind fun e => cacheFree_ofEmission m a e

end Bundle

/-! ## Acceptance -/

theorem CompiledMethod.size_image (m : CompiledMethod) : m.image.size = m.bundle.ownLayout.size :=
  CodeCache.size_image _ _

/-- Whether the image of a method takes up a byte. -/
def CompiledMethod.Covers (m : CompiledMethod) (x : Nat) : Prop := m.start ≤ x ∧ x < m.start + m.image.size

namespace CodeCache

/-- Makes the code of a method, gives it a place and makes it findable there. -/
def accept (s : CodeCache) (m : Linear.Method) (a : Allocation) :
    Except CodegenError CompiledMethod × CodeCache :=
  match Bundle.make m a with
  | .error e => (.error e, s)
  | .ok b =>
    match s.allocate b.ownLayout.size Convention.bundleAlignment with
    | (.error e, s) => (.error (.cache e), s)
    | (.ok place, s) => (.ok (b.placed m.key place), (s.enter (b.placed m.key place)).getD s)

/-- Writes the image of a method that was accepted; links its calls now or leaves them for later. -/
def settle (s : CodeCache) (m : CompiledMethod) (link : Bool) : Except CacheError Unit × CodeCache :=
  let s := { s with window := s.window.put m.start m.image }
  if link then s.linkInstalled m else (.ok (), { s with unlinked := s.unlinked ++ [m] })

/-- A cache with other contents and other recorded calls. -/
def vary (s : CodeCache) (window : Window) (callSites : List CallSite) (unlinked : List CompiledMethod) :
    CodeCache :=
  { s with window, callSites, unlinked }

section
variable (s : CodeCache) (window : Window) (callSites : List CallSite) (unlinked : List CompiledMethod)

theorem Regular.vary {s : CodeCache} {c} (hs : s.Regular c) {window} (h : window.toExtent = s.window.toExtent)
    (callSites : List CallSite) (unlinked : List CompiledMethod) : (s.vary window callSites unlinked).Regular c :=
  { hs with
    region := fun hr => h ▸ hs.region hr
    base := h ▸ hs.base
    total := h ▸ hs.total
    reach := h ▸ hs.reach }

theorem setRegion_vary (index : Nat) (r : Region) : (s.vary window callSites unlinked).setRegion index r =
    (s.setRegion index r).vary window callSites unlinked := by
  unfold setRegion
  split <;> rfl

theorem tryAllocate_vary (bytes alignment : Nat) : (s.vary window callSites unlinked).tryAllocate bytes alignment =
    (s.tryAllocate bytes alignment).map fun p => (p.1, p.2.vary window callSites unlinked) := by
  unfold tryAllocate
  rw [show (s.vary window callSites unlinked).region? (s.vary window callSites unlinked).currentRegion =
    s.region? s.currentRegion from rfl]
  split
  · rfl
  · split
    · rfl
    · rw [setRegion_vary]
      rfl

theorem register_vary (r : MemoryRegion) : (s.vary window callSites unlinked).register r =
    (s.register r).vary window callSites unlinked := by
  unfold register
  by_cases h : s.registered.contains r = true
  · rw [if_pos h]
    exact if_pos h
  · rw [if_neg h]
    exact if_neg h

theorem rotate?_vary : (s.vary window callSites unlinked).rotate? =
    s.rotate?.map fun t => t.vary window callSites unlinked := by
  rw [rotate?_eq, rotate?_eq s, show (s.vary window callSites unlinked).nextRegion = s.nextRegion from rfl,
    register_vary]
  by_cases h : s.currentRegion ≥ s.regionCount
  · rw [if_pos h]
    exact if_pos h
  · rw [if_neg h]
    exact if_neg h

theorem allocate_vary (bytes alignment : Nat) : (s.vary window callSites unlinked).allocate bytes alignment =
    ((s.allocate bytes alignment).1, (s.allocate bytes alignment).2.vary window callSites unlinked) := by
  unfold allocate
  rw [tryAllocate_vary, rotate?_vary]
  cases s.tryAllocate bytes alignment with
  | some p => rfl
  | none =>
    cases s.rotate? with
    | none => rfl
    | some t =>
      simp only [Option.map_none, Option.map_some, tryAllocate_vary]
      cases t.tryAllocate bytes alignment <;> rfl

theorem enter_vary (m : CompiledMethod) : (s.vary window callSites unlinked).enter m =
    (s.enter m).map fun t => t.vary window callSites unlinked := by
  unfold enter
  rw [show (s.vary window callSites unlinked).region? m.bundle.region = s.region? m.bundle.region from rfl]
  split
  · rw [setRegion_vary]
    rfl
  · rfl

theorem accept_vary (m : Linear.Method) (a : Allocation) : (s.vary window callSites unlinked).accept m a =
    ((s.accept m a).1, (s.accept m a).2.vary window callSites unlinked) := by
  unfold accept
  split
  · rfl
  · rw [allocate_vary]
    cases s.allocate _ _ with
    | mk result t =>
      cases result with
      | error e => rfl
      | ok place =>
        simp only [enter_vary]
        cases t.enter _ <;> rfl

end

/-- What is true of a method that a cache has accepted. -/
structure Entered (c : CacheConfig) (s : CodeCache) (m : CompiledMethod) (t : CodeCache) : Prop where
  regular : t.Regular c
  handed : ∀ {x}, s.Handed x → t.Handed x
  window : t.window = s.window
  installed : t.installed = s.installed ++ [m]
  callSites : t.callSites = s.callSites
  unlinked : t.unlinked = s.unlinked
  sited : m.Sited
  inside : t.window.Holds m.start m.image.size
  aligned : 4 ∣ c.bootRegionSize → 4 ∣ c.regionSize → 4 ∣ m.start
  handsOut : ∀ {x}, m.Covers x → t.Handed x
  fresh : ∀ {x}, m.Covers x → ¬ s.Handed x

theorem Entered.mem {c s t m} (h : Entered c s m t) :
    m ∈ t.installed := by
  rw [h.installed]
  exact List.mem_append_right _ List.mem_cons_self

section
variable {c : CacheConfig} {s t : CodeCache} {m : Linear.Method} {a : Allocation}

theorem enter_grows (hs : s.Regular c) {cm} (hre : cm.bundle.region ≤ s.currentRegion) :
    ∃ u, Grows c s u ∧ s.enter cm = some (u.push cm) := by
  obtain ⟨r, hr⟩ := exists_region?.mpr hre
  refine ⟨s.setRegion cm.bundle.region (r.insert cm), ?_, by unfold enter; rw [hr]⟩
  exact hs.fill hr rfl rfl (Nat.le_refl r.used) (hs.region hr).2.2

theorem accept_eq_ok {cm} (h : s.accept m a = (.ok cm, t)) : ∃ e b p s₁,
    Emission.ofMethod m a = .ok e ∧ Bundle.ofEmission m a e = .ok b ∧
      s.allocate b.ownLayout.size Convention.bundleAlignment = (.ok p, s₁) ∧
      cm = b.placed m.key p ∧ t = (s₁.enter cm).getD s₁ := by
  unfold accept at h
  split at h
  next => cases h
  next b hb =>
  obtain ⟨e, he, hb⟩ := bind_eq_ok.mp hb
  split at h
  next => cases h
  next p s₁ ha =>
    cases h
    exact ⟨e, b, p, s₁, he, hb, ha, rfl, rfl⟩

/-- A method is refused for its code, or because there is no room for it. -/
theorem accept_eq_error {e} (h : s.accept m a = (.error e, t)) : (Bundle.make m a = .error e ∧ t = s) ∨
    ∃ b err, Bundle.make m a = .ok b ∧
      s.allocate b.ownLayout.size Convention.bundleAlignment = (.error err, t) ∧ e = .cache err := by
  unfold accept at h
  split at h
  next hb =>
    cases h
    exact .inl ⟨hb, rfl⟩
  next b hb =>
  split at h
  next ha =>
    cases h
    exact .inr ⟨b, _, hb, ha, rfl⟩
  next => cases h

/-- An accepted method has bytes that were free before, and can be found. -/
theorem accept_entered (hs : s.Regular c) {cm} (h : s.accept m a = (.ok cm, t)) :
    Entered c s cm t := by
  obtain ⟨e, b, p, s₁, he, hb, ha, rfl, rfl⟩ := accept_eq_ok h
  have hg := allocate_grants hs ha
  have ht : Bundle.Tables m a e (b.placed m.key p).bundle := { (Bundle.ofEmission_eq_ok hb).1 with }
  have hsi : (b.placed m.key p).image.size = b.ownLayout.size := CompiledMethod.size_image _
  have hc := codeStop_le_size b
  have hin : s₁.window.Holds p.start b.ownLayout.size := by
    refine hg.regular.holds hg.region ?_ ?_ <;> rw [hg.window]
    · exact hg.start
    · exact hg.stop
  have hrea := hg.regular.reach
  obtain ⟨u, hgr, hen⟩ := @enter_grows _ _ hg.regular (b.placed m.key p) hg.region
  rw [hen, Option.getD_some]
  refine ⟨{ hgr.regular with }, fun hx => hgr.handed (hg.handed hx), hgr.window.trans hg.window, ?_,
    hgr.callSites.trans hg.callSites, hgr.unlinked.trans hg.unlinked,
    ht.sited he ?_, ?_, ?_, ?_, ?_⟩
  · rw [← hg.installed, ← hgr.installed]
    rfl
  · obtain ⟨hle, hst⟩ := hin
    show b.code.size ≤ callReach
    omega
  · rw [hsi]
    show u.window.Holds p.start _
    rw [hgr.window]
    exact hin
  · intro hbo hre
    have hal : 4 ∣ p.start - (s.window.base + c.startOf p.region) := Nat.dvd_trans (by decide) hg.aligned
    have hba : 4 ∣ s.window.base := Nat.dvd_trans (by decide) hs.base
    exact (Nat.dvd_sub_iff_left hg.start (Nat.dvd_add hba (c.dvd_startOf hbo hre p.region))).mp hal
  · rintro x ⟨hx, hx'⟩
    rw [hsi] at hx'
    exact hgr.handed (hg.handsOut hx hx')
  · rintro x ⟨hx, hx'⟩
    rw [hsi] at hx'
    exact hg.fresh hx hx'

theorem accept_refused (hs : s.Regular c) {e} (h : s.accept m a = (.error e, t)) :
    Grows c s t ∧ ∀ err, e ≠ .cache (.link err) := by
  obtain ⟨hb, rfl⟩ | ⟨b, err, -, ha, rfl⟩ := accept_eq_error h
  · exact ⟨.refl hs, fun err heq => Bundle.cacheFree_make m a _ (heq ▸ hb)⟩
  · obtain ⟨hg, regions, rfl⟩ := allocate_fails hs ha
    exact ⟨hg, fun err heq => by cases heq⟩

/-! ## Generation -/

theorem generate_of_refused {link e} (h : s.accept m a = (.error e, t)) :
    s.generate m a link = (.error e, t) := by
  obtain ⟨hb, rfl⟩ | ⟨b, err, hb, ha, rfl⟩ := accept_eq_error h
  · exact generate_of_error hb t link
  · rw [generate_of_bundle hb, installBundle_of_full ha]

theorem write_of_le {w : Window} {data} {offset} (h : offset + data.size ≤ w.size) :
    w.write offset data = .ok (w.put (w.base + offset) data) := by
  unfold Window.write Window.check
  rw [if_pos h]
  rfl

/-- A method with a place in the window is installed by making it findable and settling it. -/
theorem install_eq_settle {cm link} (hg : cm.isGenerated = true) (hpo : 0 < cm.image.size)
    (hin : s.window.Holds cm.start cm.image.size) (he : s.enter cm = some t) (hw : t.window = s.window)
    (hs : t.callSites = s.callSites) (hu : t.unlinked = s.unlinked) :
    s.install cm cm.image link = t.settle cm link := by
  obtain ⟨hle, hst⟩ := hin
  have ho : s.offsetOf cm.start = .ok (cm.start - s.window.base) := if_pos (by omega)
  have hwr := @write_of_le s.window cm.image (cm.start - s.window.base) (by omega)
  rw [Nat.add_sub_of_le hle] at hwr
  have he' := enter_vary s (s.window.put cm.start cm.image) s.callSites s.unlinked cm
  rw [he, Option.map_some] at he'
  have hp : ({ t with window := t.window.put cm.start cm.image } : CodeCache) =
      t.vary (s.window.put cm.start cm.image) s.callSites s.unlinked := by
    rw [hw, ← hs, ← hu]
    rfl
  unfold install settle
  rw [hg, if_neg (by decide), ho, hp]
  simp only [hwr]
  rw [show ({ s with window := s.window.put cm.start cm.image } : CodeCache).enter cm = _ from he']

theorem generate_eq_settle {link} (hs : s.Regular c) {cm} (h : s.accept m a = (.ok cm, t)) : s.generate m a link =
      (((t.settle cm link).1.mapError .cache).map fun _ => cm, (t.settle cm link).2) := by
  have hen := accept_entered hs h
  obtain ⟨e, b, p, s₁, he, hb, ha, rfl, rfl⟩ := accept_eq_ok h
  have hg := allocate_grants hs ha
  obtain ⟨v, hgr, hent⟩ := @enter_grows _ _ hg.regular (b.placed m.key p) hg.region
  rw [hent, Option.getD_some] at hen ⊢
  have hin : s₁.window.Holds p.start (b.placed m.key p).image.size := by
    rw [← hgr.window]
    exact hen.inside
  have hp : 0 < (b.placed m.key p).image.size := by
    have hco := codeStop_le_size b
    have hc := (Bundle.ofEmission_eq_ok hb).1.code_pos he
    rw [CompiledMethod.size_image]
    show 0 < b.ownLayout.size
    omega
  rw [generate_of_bundle (bind_eq_ok.mpr ⟨e, he, hb⟩), installBundle_of_place ha,
    install_eq_settle rfl hp hin hent hgr.window hgr.callSites hgr.unlinked]

/-- Then its image is written, and its calls are linked or left for later. -/
theorem generate_of_accept {u link} (hs : s.Regular c) {cm} (h : s.accept m a = (.ok cm, t))
    (hse : t.settle cm link = (.ok (), u)) :
    s.generate m a link = (.ok cm, u) := by
  rw [generate_eq_settle hs h, hse]
  rfl

end
end CodeCache
end StackCompiler
