/-
Looking up methods by address. Every region indexes its methods (`Indexed`). A
method whose compilation fails is not installed where regions are aligned to
words.
-/
import StackCompiler.Proofs.InstalledBytes
import StackCompiler.Proofs.Linking
import StackCompiler.Proofs.Placement

namespace StackCompiler

open List Convention

/-! ## The index of a region -/

namespace Region

theorem place_eq_concat {start} (cm : CompiledMethod) : ∀ {methods : List (Nat × CompiledMethod)},
    (∀ p ∈ methods, p.1 < start) → place start cm methods = methods ++ [(start, cm)]
  | [], _ => rfl
  | (first, n) :: rest, h => by
    rw [forall_mem_cons] at h
    have hlt : first < start := h.1
    rw [place, if_neg (by omega), if_neg (by omega), place_eq_concat cm h.2, cons_append]

/-- Of methods one behind the other, only the last that starts at or before an address can hold it. -/
theorem getLast?_takeWhile_contains {address cm} : ∀ {methods : List CompiledMethod},
    methods.Pairwise (fun m n => m.codeStop ≤ n.start) →
      (((methods.takeWhile (·.start ≤ address)).getLast?.filter (·.contains address) = some cm) ↔
        cm ∈ methods ∧ cm.contains address = true)
  | [], _ => by simp
  | m :: rest, h => by
    rw [pairwise_cons] at h
    have ih := @getLast?_takeWhile_contains address cm rest h.2
    have hm : m.start ≤ m.codeStop := by
      rw [CompiledMethod.codeStop, CompiledMethod.codeStart, CompiledMethod.start]
      omega
    have hsp : ∀ {n : CompiledMethod}, n.contains address = true → n.start ≤ address ∧ address < n.codeStop := by
      intro n hn
      simp only [CompiledMethod.contains, Bool.and_eq_true, decide_eq_true_eq] at hn
      exact ⟨hn.1.2, hn.2⟩
    by_cases hst : m.start ≤ address
    · rw [takeWhile_cons_of_pos (by simpa using hst), getLast?_cons, mem_cons]
      cases hl : (rest.takeWhile (·.start ≤ address)).getLast? with
      | none =>
        rw [hl] at ih
        have hr : ¬ (cm ∈ rest ∧ cm.contains address = true) := fun hcm => by cases ih.mpr hcm
        simp only [Option.getD_none, Option.filter_eq_some_iff, Option.some.injEq]
        grind
      | some n =>
        rw [hl] at ih
        have hn := mem_of_getLast? hl
        have hns : n.start ≤ address := by simpa using all_eq_true.mp all_takeWhile n hn
        have hb := h.1 n ((takeWhile_sublist _).subset hn)
        rw [Option.getD_some, ih]
        refine ⟨fun hcm => ⟨.inr hcm.1, hcm.2⟩, fun hcm => ⟨hcm.1.resolve_left ?_, hcm.2⟩⟩
        rintro rfl
        have hlt := (hsp hcm.2).2
        omega
    · rw [takeWhile_cons_of_neg (by simpa using hst)]
      refine ⟨fun hno => (by cases hno), fun hcm => ?_⟩
      have hle := (hsp hcm.2).1
      rcases mem_cons.mp hcm.1 with rfl | hr
      · exact absurd hle hst
      · have hb := h.1 cm hr
        omega

theorem find?_eq_some {r : Region} {methods : List CompiledMethod}
    (hr : r.methods = methods.map fun m => (m.start, m)) (hri : methods.Pairwise fun m n => m.codeStop ≤ n.start)
    {cm} {address} :
    r.find? address = some cm ↔ cm ∈ methods ∧ cm.contains address = true := by
  rw [← getLast?_takeWhile_contains hri, find?, hr, takeWhile_map, getLast?_map]
  rw [show ((fun p : Nat × CompiledMethod => decide (p.1 ≤ address)) ∘ fun m : CompiledMethod => (m.start, m)) =
    fun m => decide (m.start ≤ address) from rfl]
  cases (methods.takeWhile fun m => decide (m.start ≤ address)).getLast? with
  | none => rfl
  | some m =>
    simp only [Option.map_some, Option.filter_some]

end Region

theorem CompiledMethod.Sited.image_pos {m : CompiledMethod} (hm : m.Sited) : 0 < m.image.size := by
  have hp := hm.code_pos
  have hc := hm.code_within
  omega

namespace CodeCache
variable {c : CacheConfig} {s t : CodeCache}

/-! ## Links that succeed -/

section
variable (hs : s.Kept c) (hal : ∀ m ∈ s.installed, 4 ∣ m.start)
include hs hal

theorem Kept.not_unlinkable (e : CacheError) : ¬ s.Unlinkable e := by
  rintro ⟨site, hsi, n, hne, he⟩
  obtain ⟨m, hm, site', hs', ha⟩ := hs.sites site hsi
  obtain ⟨hn, -⟩ := newest?_mem hne
  have hw := (hs.sited m hm).site_within hs'
  have hco := (hs.sited n hn).code_within
  have hp := (hs.sited n hn).code_pos
  obtain ⟨hb, hst⟩ := hs.inside m hm
  obtain ⟨hb', hst'⟩ := hs.inside n hn
  have hd := (hs.sited m hm).dvd_site (hal m hm) hs'
  rw [ha] at hw hd
  have hc : Callable s.window.toExtent (site.address, n.codeStart) :=
    ⟨hd, (hs.sited n hn).dvd_codeStart (hal n hn), by constructor <;> dsimp only <;> omega,
      by constructor <;> dsimp only <;> omega⟩
  rw [show (s.patch site.address n.codeStart).1 = .ok () from
    congrArg Prod.fst (patch_overlaid (s := s) hc hs.regular.reach fun _ => none)] at he
  cases he

omit hs hal in
/-- Linking fails only for a call that cannot be linked. -/
theorem Links.exists_ok {α : Type} {r : Except CacheError α × CodeCache} (h : Links s r)
    (hn : ∀ e, ¬ r.2.Unlinkable e) : ∃ x, r.1 = .ok x := by
  cases hr : r.1 with
  | ok x => exact ⟨x, rfl⟩
  | error e => exact absurd (h.unlinkable hr) (hn e)

/-- No link fails where regions are aligned to words. -/
theorem Kept.linkInstalled_ok {cm} (hcm : cm ∈ s.installed) : (s.linkInstalled cm).1 = .ok () := by
  obtain ⟨hk, hi⟩ := hs.linkInstalled hcm
  obtain ⟨⟨⟩, h⟩ := (s.linkInstalled_links cm).exists_ok (hk.not_unlinkable (hi ▸ hal))
  exact h

theorem Kept.linkAll_ok : ∃ n, s.linkAll.1 = .ok n := by
  obtain ⟨hk, hi⟩ := hs.linkAll
  exact s.linkAll_links.exists_ok (hk.not_unlinkable (hi ▸ hal))

end

/-! ## Indexed caches -/

/-- A method that stands in the region it names. -/
structure Housed (s : CodeCache) (m : CompiledMethod) : Prop where
  generated : m.isGenerated = true
  stands : ∃ r, s.region? m.bundle.region = some r ∧ r.start ≤ m.start ∧
    m.start + m.image.size ≤ r.start + r.size ∧ bundleAlignment ∣ m.start - r.start

/-- Each region indexes the installed methods that stand in it, which lie one behind the other. -/
structure Indexed (s : CodeCache) : Prop where
  housed : ∀ m ∈ s.installed, s.Housed m
  methods : ∀ {i r}, s.region? i = some r →
    r.methods = (s.installed.filter (·.bundle.region = i)).map fun m => (m.start, m)
  rising : s.installed.Pairwise fun m n =>
    m.bundle.region = n.bundle.region → m.start + m.image.size ≤ n.start

theorem Housed.fills {m} (hm : s.Housed m) (h : s.Fills t) : t.Housed m := by
  obtain ⟨r, hr, hs⟩ := hm.stands
  obtain ⟨used, -, ht⟩ := h.kept hr
  exact ⟨hm.generated, _, ht, hs⟩

theorem Indexed.fills (hs : s.Indexed) (h : s.Fills t) (hin : t.installed = s.installed) :
    t.Indexed := by
  refine ⟨?_, fun {i r} hr => ?_, ?_⟩
  · rw [hin]
    exact fun m hm => (hs.housed m hm).fills h
  · rw [hin]
    cases hi : s.region? i with
    | some r' =>
      obtain ⟨used, -, ht⟩ := h.kept hi
      have hme := hs.methods hi
      rw [hr] at ht
      cases ht
      exact hme
    | none =>
      -- no method stands in a region that was not open
      have hn : s.installed.filter (·.bundle.region = i) = [] := by
        refine filter_eq_nil_iff.mpr fun m hm hre => ?_
        obtain ⟨r, ho, -⟩ := (hs.housed m hm).stands
        rw [of_decide_eq_true hre, hi] at ho
        cases ho
      rw [(h.opened hi hr).2, hn, map_nil]
  · rw [hin]
    exact hs.rising

theorem Indexed.vary (hs : s.Indexed) (w : Window) (sites : List CallSite) (unlinked : List CompiledMethod) :
    (s.vary w sites unlinked).Indexed :=
  ⟨fun m hm => { hs.housed m hm with }, hs.methods, hs.rising⟩

theorem Indexed.create {host} (h : create c host = .ok s) : s.Indexed := by
  obtain ⟨-, hi, -⟩ := create_eq_ok h
  refine ⟨by simp [hi], fun hr => ?_, by simp [hi]⟩
  obtain ⟨-, rfl⟩ := create_region h hr
  simp [hi]

variable {cm : CompiledMethod} {m : Linear.Method} {a : Allocation}

theorem accept_region? (hs : s.Regular c) (h : s.accept m a = (.ok cm, t)) :
    t.Housed cm ∧ ∃ s₁ r, s.Fills s₁ ∧
      s₁.installed = s.installed ∧ s₁.region? cm.bundle.region = some r ∧
      ∀ j, t.region? j = if j = cm.bundle.region then some (r.insert cm) else s₁.region? j := by
  obtain ⟨e, b, p, s₁, -, -, ha, rfl, rfl⟩ := accept_eq_ok h
  have hg := allocate_grants hs ha
  have hf := s.allocate_fills b.ownLayout.size bundleAlignment
  rw [ha] at hf
  obtain ⟨r, hr⟩ := exists_region?.mpr hg.region
  have hre : ∀ j, ((s₁.enter (b.placed m.key p)).getD s₁).region? j =
      if j = p.region then some (r.insert (b.placed m.key p)) else s₁.region? j := by
    intro j
    unfold enter
    rw [show (b.placed m.key p).bundle.region = p.region from rfl, hr]
    exact region?_setRegion _ hr j
  obtain ⟨hst, hsi, -⟩ := hg.regular.region hr
  rw [hg.window] at hst
  refine ⟨⟨rfl, _, (hre p.region).trans (if_pos rfl), ?_, ?_, ?_⟩, s₁, r, hf, hg.installed, hr, hre⟩
  · exact Nat.le_trans (Nat.le_of_eq hst) hg.start
  · show p.start + _ ≤ r.start + r.size
    rw [CompiledMethod.size_image, hst, hsi]
    exact hg.stop
  · show _ ∣ p.start - r.start
    rw [hst]
    exact hg.aligned

theorem accept_refused_fills {e} (h : s.accept m a = (.error e, t)) : s.Fills t := by
  obtain ⟨-, rfl⟩ | ⟨b, err, -, ha, -⟩ := accept_eq_error h
  · exact .refl t
  · have hf := s.allocate_fills b.ownLayout.size bundleAlignment
    rw [ha] at hf
    exact hf

theorem Housed.le_used (hs : s.Regular c) {m} (hm : s.Housed m) (hp : 0 < m.image.size)
    (hh : ∀ {x}, m.Covers x → s.Handed x) {r} (hr : s.region? m.bundle.region = some r) :
    m.start + m.image.size ≤ r.start + r.used := by
  obtain ⟨r₀, hr₀, hst, hsto, -⟩ := hm.stands
  obtain rfl : r₀ = r := Option.some.inj (hr₀.symm.trans hr)
  have hc : m.Covers (m.start + m.image.size - 1) := ⟨by omega, by omega⟩
  obtain ⟨i, r', hr', hx, hx'⟩ := hh hc
  obtain ⟨-, -, hu⟩ := hs.region hr'
  by_cases hi : m.bundle.region = i
  · rw [hi, hr'] at hr
    cases hr
    omega
  · have ha := hs.apart hr hr' hi (by omega) (by omega) hx
    omega

theorem Indexed.accept (hs : s.Indexed) (hsp : s.Spread c) (h : s.accept m a = (.ok cm, t)) :
    t.Indexed := by
  have he := accept_entered hsp.regular h
  obtain ⟨hh, s₁, r, hf, hi, hr, hre⟩ := accept_region? hsp.regular h
  have hs₁ := hs.fills hf hi
  have hb : ∀ m ∈ s.installed, m.bundle.region = cm.bundle.region → m.start + m.image.size ≤ cm.start := by
    intro m hm heq
    have hmh := hs.housed m hm
    obtain ⟨r₀, hr₀, -⟩ := hmh.stands
    obtain ⟨r₁, hr₁, hle, -⟩ := hh.stands
    have hu := hmh.le_used hsp.regular (hsp.sited m hm).image_pos (hsp.handed m hm) hr₀
    have hst : r₀.start ≤ cm.start := by
      rw [(hsp.regular.region hr₀).1, heq, ← he.window, ← (he.regular.region hr₁).1]
      exact hle
    have hfr : ¬ s.Handed cm.start :=
      he.fresh ⟨Nat.le_refl _, Nat.lt_add_of_pos_right he.sited.image_pos⟩
    have ho : ¬ cm.start < r₀.start + r₀.used := fun hlt => hfr ⟨_, r₀, hr₀, hst, hlt⟩
    omega
  refine ⟨?_, fun {j r'} hr' => ?_, ?_⟩
  · refine he.forall_installed (fun m hm => ?_) hh
    have hmh := (hs.housed m hm).fills hf
    obtain ⟨r', hr', hst⟩ := hmh.stands
    refine ⟨hmh.generated, ?_⟩
    rw [hre]
    split
    next heq =>
      rw [heq, hr] at hr'
      cases hr'
      exact ⟨_, rfl, hst⟩
    next => exact ⟨_, hr', hst⟩
  · rw [he.installed, filter_append, map_append]
    rw [hre] at hr'
    split at hr'
    next hj =>
      cases hr'
      have hme := hs₁.methods hr
      rw [hi] at hme
      have hlt : ∀ p ∈ r.methods, p.1 < cm.start := by
        intro p hp
        rw [hme] at hp
        obtain ⟨m, hm, rfl⟩ := mem_map.mp hp
        rw [mem_filter] at hm
        have hle := hb m hm.1 (of_decide_eq_true hm.2)
        have hpo := (hsp.sited m hm.1).image_pos
        show m.start < cm.start
        omega
      show Region.place cm.start cm r.methods = _
      rw [Region.place_eq_concat cm hlt, hme, hj, filter_cons_of_pos (by simp)]
      rfl
    next hj =>
      have hme := hs₁.methods hr'
      rw [hi] at hme
      rw [hme, filter_cons_of_neg (by simpa using Ne.symm hj)]
      simp
  · rw [he.installed, pairwise_append]
    refine ⟨hs.rising, pairwise_singleton _ _, fun m hm n hn heq => ?_⟩
    rw [mem_singleton] at hn
    subst hn
    exact hb m hm heq

/-! ## Finding the region of an address -/

/-- The region that a place in the window falls into. -/
def slotOf (c : CacheConfig) (offset : Nat) : Nat :=
  if offset < c.bootRegionSize then 0 else (offset - c.bootRegionSize) / c.regionSize + 1

/-- The region of an address is found by division. -/
theorem slotOf_eq {i offset} (hsta : c.startOf i ≤ offset) (hst : offset < c.startOf i + c.sizeOf i) :
    slotOf c offset = i := by
  cases i with
  | zero => exact if_pos (by simpa [CacheConfig.startOf, CacheConfig.sizeOf] using hst)
  | succ k =>
    rw [c.stop_eq, Nat.succ_mul] at hst
    rw [c.startOf_succ] at hsta
    have hd : (offset - c.bootRegionSize) / c.regionSize = k :=
      Nat.div_eq_of_lt_le (by omega) (by rw [Nat.succ_mul]; omega)
    rw [slotOf, if_neg (by omega), hd]

section
variable (hs : s.Regular c)
include hs

theorem Regular.boot_eq : s.boot.start = s.window.base ∧ s.runtimeStart = s.window.base + c.bootRegionSize := by
  obtain ⟨hbo, hb, -⟩ := hs.region (show s.region? 0 = some s.boot from rfl)
  rw [runtimeStart, hb, hbo]
  exact ⟨rfl, rfl⟩

theorem Regular.contains_boot (address : Nat) : s.boot.contains address =
    decide (s.window.base ≤ address ∧ address < s.window.base + c.bootRegionSize) := by
  obtain ⟨hst, hru⟩ := hs.boot_eq
  rw [← hru, ← hst, Bool.decide_and]
  rfl

theorem methodAt?_eq (offset : Nat) : s.methodAt? (s.window.base + offset) =
    (s.region? (slotOf c offset)).bind (·.find? (s.window.base + offset)) := by
  unfold methodAt?
  rw [hs.contains_boot, hs.boot_eq.2, hs.regionSize, Nat.add_sub_add_left, slotOf]
  by_cases hlt : offset < c.bootRegionSize
  · rw [if_pos (by simpa using hlt), if_pos hlt]
    rfl
  · rw [if_neg (by simpa using hlt), if_neg (by omega), if_neg hlt]
    show _ = (s.runtime[(offset - c.bootRegionSize) / c.regionSize]?).bind _
    cases s.runtime[(offset - c.bootRegionSize) / c.regionSize]? <;> rfl

theorem methodAt?_below {address} (h : address < s.window.base) : s.methodAt? address = none := by
  unfold methodAt?
  rw [hs.contains_boot, hs.boot_eq.2, if_neg (by rw [decide_eq_true_eq]; omega), if_pos (by omega)]

end

/-- An address finds the method whose bundle holds it. -/
theorem methodAt?_eq_some (hs : s.Spread c) (hi : s.Indexed) {address} :
    s.methodAt? address = some cm ↔ cm ∈ s.installed ∧ cm.start ≤ address ∧ address < cm.codeStop := by
  by_cases hlt : address < s.window.base
  · rw [methodAt?_below hs.regular hlt]
    refine iff_of_false (fun h => by cases h) ?_
    rintro ⟨hcm, hle, -⟩
    have hb := (hs.inside cm hcm).1
    omega
  obtain ⟨offset, rfl⟩ := Nat.exists_eq_add_of_le (Nat.le_of_not_lt hlt)
  have hco : ∀ {m}, m ∈ s.installed → m.codeStop ≤ m.start + m.image.size := fun hm => (hs.sited _ hm).code_within.2
  have hf : ∀ {i r}, s.region? i = some r →
      (r.find? (s.window.base + offset) = some cm ↔
        cm ∈ s.installed.filter (·.bundle.region = i) ∧ cm.contains (s.window.base + offset) = true) := by
    intro i r hr
    refine Region.find?_eq_some (hi.methods hr) ?_
    refine (hi.rising.filter (·.bundle.region = i)).imp_of_mem fun {m n} hm hn hri => ?_
    rw [mem_filter] at hm hn
    have hsa : m.bundle.region = n.bundle.region :=
      (of_decide_eq_true hm.2).trans (of_decide_eq_true hn.2).symm
    exact Nat.le_trans (hco hm.1) (hri hsa)
  have hc : ∀ {m}, m ∈ s.installed →
      (m.contains (s.window.base + offset) = true ↔
        m.start ≤ s.window.base + offset ∧ s.window.base + offset < m.codeStop) := by
    intro m hm
    simp [CompiledMethod.contains, (hi.housed m hm).generated]
  rw [methodAt?_eq hs.regular, Option.bind_eq_some_iff]
  constructor
  · rintro ⟨r, hr, hcm⟩
    obtain ⟨hme, hat⟩ := (hf hr).mp hcm
    have hin := (mem_filter.mp hme).1
    exact ⟨hin, (hc hin).mp hat⟩
  · rintro ⟨hcm, hat⟩
    obtain ⟨r, hr, hle, hl', -⟩ := (hi.housed cm hcm).stands
    obtain ⟨hrs, hrsi, -⟩ := hs.regular.region hr
    have hs' := hco hcm
    have hre : slotOf c offset = cm.bundle.region := slotOf_eq (by omega) (by omega)
    rw [hre]
    exact ⟨r, hr, (hf hr).mpr ⟨mem_filter.mpr ⟨hcm, decide_eq_true rfl⟩, (hc hcm).mpr hat⟩⟩

/-! ## Runs of compilations -/

/-- Compiles methods with their registers one after the other, with their calls linked or not. -/
def generateEach : List (Linear.Method × Allocation × Bool) → CodeCache →
    List (Except CodegenError CompiledMethod) × CodeCache
  | [], s => ([], s)
  | (m, a, link) :: rest, s =>
    let (result, s) := s.generate m a link
    let (results, s) := generateEach rest s
    (result :: results, s)

def compiled (results : List (Except CodegenError CompiledMethod)) : List CompiledMethod :=
  results.filterMap Except.toOption

theorem generateEach_cons (m : Linear.Method) (a : Allocation) (link : Bool)
    (rest : List (Linear.Method × Allocation × Bool)) (s : CodeCache) :
    s.generateEach ((m, a, link) :: rest) = ((s.generate m a link).1 :: ((s.generate m a link).2.generateEach rest).1,
      ((s.generate m a link).2.generateEach rest).2) := rfl

theorem compiled_cons (result : Except CodegenError CompiledMethod)
    (results : List (Except CodegenError CompiledMethod)) :
    compiled (result :: results) = result.toOption.toList ++ compiled results := by
  cases result <;> rfl

theorem settle_ok (hs : s.Kept c) (h : Entered c s cm t)
    (hal : ∀ m ∈ t.installed, 4 ∣ m.start) (link : Bool) : (t.settle cm link).1 = .ok () := by
  unfold settle
  cases link with
  | false => rfl
  | true => exact (hs.put h).linkInstalled_ok hal h.mem

theorem settle_vary (s : CodeCache) (cm : CompiledMethod) (link : Bool) :
    ∃ w sites unlinked, (s.settle cm link).2 = s.vary w sites unlinked := by
  unfold settle
  cases link with
  | false => exact ⟨_, s.callSites, _, rfl⟩
  | true => exact ⟨_, _, _, (linkInstalled_links { s with window := s.window.put cm.start cm.image } cm).relinked.same⟩

theorem Indexed.generate (hs : s.Indexed) (hkept : s.Kept c) (m : Linear.Method) (a : Allocation) (link : Bool) :
    (s.generate m a link).2.Indexed := by
  rcases ha : s.accept m a with ⟨e | cm, t⟩
  · rw [generate_of_refused ha]
    exact hs.fills (accept_refused_fills ha) (accept_refused hkept.regular ha).1.installed
  · obtain ⟨w, sites, unlinked, hv⟩ := t.settle_vary cm link
    rw [generate_eq_settle hkept.regular ha, hv]
    exact (hs.accept hkept.toSpread ha).vary w sites unlinked

theorem Indexed.dvd_start (hs : s.Indexed) (hr : s.Regular c)
    (hal : ∀ i ≤ c.regionCount, 4 ∣ c.startOf i) : ∀ m ∈ s.installed, 4 ∣ m.start := by
  intro m hm
  obtain ⟨r, hre, hle, -, hd⟩ := (hs.housed m hm).stands
  have ho := Nat.le_trans (exists_region?.mp ⟨r, hre⟩) hr.opened
  have hst : 4 ∣ r.start := by
    rw [(hr.region hre).1]
    exact Nat.dvd_add (Nat.dvd_trans (by decide) hr.base) (hal _ ho)
  exact (Nat.dvd_sub_iff_left hle hst).mp (Nat.dvd_trans (by decide) hd)

section
variable (hal : ∀ i ≤ c.regionCount, 4 ∣ c.startOf i)
include hal

section
variable (hs : s.Indexed) (hkept : s.Kept c)
include hs hkept

theorem generate_of_aligned {m a cm} (ha : s.accept m a = (.ok cm, t)) (link : Bool) :
    (s.generate m a link).1 = .ok cm ∧ (s.generate m a link).2.installed = s.installed ++ [cm] := by
  have he := accept_entered hkept.regular ha
  have hok := settle_ok hkept he
    ((hs.accept hkept.toSpread ha).dvd_start he.regular hal) link
  rw [generate_eq_settle hkept.regular ha, hok]
  exact ⟨rfl, (hkept.settle he link).2⟩

theorem generate_installed (m : Linear.Method) (a : Allocation) (link : Bool) :
    (s.generate m a link).2.installed = s.installed ++ (s.generate m a link).1.toOption.toList := by
  rcases ha : s.accept m a with ⟨e | cm, t⟩
  · rw [generate_of_refused ha, (accept_refused hkept.regular ha).1.installed]
    exact (append_nil _).symm
  · obtain ⟨hok, hi⟩ := generate_of_aligned hal hs hkept ha link
    rw [hok]
    exact hi

theorem generateEach_indexed (inputs : List (Linear.Method × Allocation × Bool)) :
    (s.generateEach inputs).2.Indexed ∧ (s.generateEach inputs).2.Kept c ∧
      (s.generateEach inputs).2.installed = s.installed ++ compiled (s.generateEach inputs).1 := by
  induction inputs generalizing s with
  | nil => exact ⟨hs, hkept, (append_nil _).symm⟩
  | cons input rest ih =>
    obtain ⟨m, a, link⟩ := input
    have hin := generate_installed hal hs hkept m a link
    obtain ⟨hr, hk, hi⟩ := ih (hs.generate hkept m a link) (hkept.generate m a link).1
    refine ⟨hr, hk, ?_⟩
    rw [generateEach_cons, compiled_cons, ← append_assoc, ← hin]
    exact hi

end

end

theorem generateEach_keys (hs : s.Kept c) (inputs : List (Linear.Method × Allocation × Bool)) :
    List.Forall₂ (fun input result => ∀ cm, result = .ok cm → cm.key = input.1.key) inputs
      (s.generateEach inputs).1 := by
  induction inputs generalizing s with
  | nil => exact .nil
  | cons input rest ih =>
    obtain ⟨m, a, link⟩ := input
    rw [generateEach_cons]
    refine .cons (fun cm hcm => ?_) (ih (hs.generate m a link).1)
    obtain ⟨-, e, b, p, -, -, rfl⟩ := hs.generated hcm
    rfl

/-- After any compilations exactly the compiled methods are installed, in their order, and an
address finds the method whose bundle holds it, up to the end of its code, or nothing. -/
theorem lookup_is_exact (hboot : 4 ∣ c.bootRegionSize) (hregion : 4 ∣ c.regionSize) {host : Host}
    (hs : create c host = .ok s)
    (inputs : List (Linear.Method × Allocation × Bool)) :
    ∃ results t, s.generateEach inputs = (results, t) ∧
      List.Forall₂ (fun input result => ∀ cm, result = .ok cm → cm.key = input.1.key) inputs results ∧
      t.installed = compiled results ∧ (∀ key, t.versions key = (compiled results).filter (·.key = key)) ∧
      ∀ address cm, t.methodAt? address = some cm ↔
        cm ∈ compiled results ∧ cm.start ≤ address ∧ address < cm.codeStop := by
  obtain ⟨-, he, -⟩ := create_eq_ok hs
  have hkept : s.Kept c := .create hs
  obtain ⟨hin, hk', hi⟩ :=
    generateEach_indexed (fun i _ => c.dvd_startOf hboot hregion i) (.create hs) hkept inputs
  rw [he, nil_append] at hi
  refine ⟨_, _, rfl, generateEach_keys hkept inputs, hi, fun key => ?_, fun address cm => ?_⟩
  · rw [versions_eq, hi]
  · rw [← hi]
    exact methodAt?_eq_some hk'.toSpread hin

/-- Four methods for three regions with room for one each. -/
def crowding : List (Linear.Method × Allocation × Bool) :=
  [calling ⟨"T", "f", "()V"⟩ ⟨"T", "g", "()V"⟩, calling ⟨"T", "g", "()V"⟩ ⟨"T", "f", "()V"⟩,
    calling ⟨"T", "f", "()V"⟩ ⟨"T", "f", "()V"⟩, calling ⟨"T", "h", "()V"⟩ ⟨"T", "f", "()V"⟩].map fun m =>
      (m, Allocation.ofCode m, true)

/-- In a window from 65536 on, the last one fails. Addresses below the window, padding behind code and the ends
of regions find nothing. -/
theorem lookup_is_exact_crowded : ∃ s t f g f', create ⟨32, 2, 40⟩ (.mapping 16) = .ok s ∧
    (s.generateEach crowding).2 = t ∧
    t.installed = [f, g, f'] ∧ t.versions ⟨"T", "f", "()V"⟩ = [f, f'] ∧ t.versions ⟨"T", "h", "()V"⟩ = [] ∧
    (∀ address, address < 65536 → t.methodAt? address = none) ∧ t.methodAt? 65536 = some f ∧
    t.methodAt? 65555 = some f ∧ (∀ address, 65556 ≤ address → address < 65576 → t.methodAt? address = none) ∧
    t.methodAt? 65576 = some g ∧ t.methodAt? 65595 = some g ∧ t.methodAt? 65608 = some f' ∧
    ∀ address, 65628 ≤ address → t.methodAt? address = none := by
  have hru : (create ⟨32, 2, 40⟩ (.mapping 16)).toOption.map (fun s =>
      ((s.generateEach crowding).2.installed.map fun m => (m.key, m.start, m.codeStop))) =
        some [(⟨"T", "f", "()V"⟩, 65536, 65556), (⟨"T", "g", "()V"⟩, 65576, 65596),
          (⟨"T", "f", "()V"⟩, 65608, 65628)] := by
    decide +kernel
  obtain ⟨s, hs, hma⟩ := exists_ok_of_map hru
  obtain ⟨results, t, ht, -, hi, hv, hl⟩ :=
    lookup_is_exact (by decide) (by decide) hs crowding
  simp only [ht] at hma
  obtain ⟨f, g, f', hf⟩ := length_eq_three.mp ((length_map _).symm.trans (congrArg length hma))
  simp only [hf, map_cons, map_nil, cons.injEq, Prod.mk.injEq] at hma
  obtain ⟨hfm, hg, hf', -⟩ := hma
  have hm : compiled results = [f, g, f'] := hi.symm.trans hf
  have hn : ∀ {address}, (∀ cm ∈ [f, g, f'], ¬ (cm.start ≤ address ∧ address < cm.codeStop)) →
      t.methodAt? address = none := by
    intro address h
    refine Option.eq_none_iff_forall_not_mem.mpr fun cm hcm => ?_
    have hat := (hl address cm).mp hcm
    rw [hm] at hat
    exact h cm hat.1 hat.2
  refine ⟨s, t, f, g, f', hs, by rw [ht], hf, ?_, ?_, fun address hlt => hn ?_, ?_, ?_,
    fun address hle hlt => hn ?_, ?_, ?_, ?_, fun address hle => hn ?_⟩
  · simp [hv, hm, hfm.1, hg.1, hf'.1]
  · simp [hv, hm, hfm.1, hg.1, hf'.1]
  · simp only [mem_cons, not_mem_nil, or_false, forall_eq_or_imp, forall_eq]
    omega
  · exact (hl _ _).mpr ⟨by simp [hm], by omega⟩
  · exact (hl _ _).mpr ⟨by simp [hm], by omega⟩
  · simp only [mem_cons, not_mem_nil, or_false, forall_eq_or_imp, forall_eq]
    omega
  · exact (hl _ _).mpr ⟨by simp [hm], by omega⟩
  · exact (hl _ _).mpr ⟨by simp [hm], by omega⟩
  · exact (hl _ _).mpr ⟨by simp [hm], by omega⟩
  · simp only [mem_cons, not_mem_nil, or_false, forall_eq_or_imp, forall_eq]
    omega

end CodeCache
end StackCompiler
