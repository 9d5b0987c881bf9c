/-
The arrangement of installed methods. Accepted methods lie apart in the window
(`Arranged`). From their places follows what the window holds: their images with
every call linked (`linked`), or their bare images (`deferred`).
-/
import Mathlib.Data.List.Pairwise
import StackCompiler.Proofs.Patching

namespace StackCompiler

open List CodeCache Window

/-! ## Images -/

namespace CompiledMethod
variable {m : CompiledMethod}

section
variable (hm : m.Sited)
include hm

theorem getElem?_image {j b} (h : m.bundle.code[j]? = some b) :
    m.image[m.bundle.codeOffset + j]? = some b := by
  obtain ⟨bytes, hsi, hi⟩ : ∃ bytes : Bytes, bytes.size = m.bundle.ownLayout.size ∧
      m.image = Bytes.overwrite bytes (m.bundle.ownLayout.offset .code) m.bundle.code.toList :=
    ⟨_, by simp [Bytes.size_overwrite], rfl⟩
  have hst := codeStop_le_size m.bundle
  have hj := (Array.getElem?_eq_some_iff.mp h).1
  have hs : bytes.toList = bytes.toList.take (m.bundle.ownLayout.offset .code) ++
      ((bytes.toList.drop (m.bundle.ownLayout.offset .code)).take m.bundle.code.size ++
        (bytes.toList.drop (m.bundle.ownLayout.offset .code)).drop m.bundle.code.size) := by
    rw [take_append_drop, take_append_drop]
  have hb : (bytes.toList.take (m.bundle.ownLayout.offset .code)).length = m.bundle.ownLayout.offset .code := by
    rw [length_take, Array.length_toList]
    omega
  have hw := Bytes.toList_overwrite hs (show _ = m.bundle.code.toList.length by
    rw [length_take, length_drop, Array.length_toList, Array.length_toList]
    omega)
  rw [hb, ← hi] at hw
  rw [← Array.getElem?_toList, hw, hm.codeOffset, getElem?_append_right (by omega), hb,
    Nat.add_sub_cancel_left, getElem?_append_left (by rw [Array.length_toList]; exact hj),
    Array.getElem?_toList, h]

theorem Sited.codeStart_eq : m.codeStart = m.start + m.bundle.ownLayout.offset .code := by
  rw [← hm.codeOffset]
  rfl

theorem Sited.code_within : m.start ≤ m.codeStart ∧
    m.codeStart + m.bundle.code.size ≤ m.start + m.image.size := by
  have hs := codeStop_le_size m.bundle
  rw [hm.codeStart_eq, size_image]
  omega

theorem Sited.site_within {site} (hs : site ∈ callSitesOf m) :
    m.start ≤ site.address ∧ site.address + 4 ≤ m.start + m.image.size := by
  obtain ⟨hle, hst⟩ := hm.code_within
  obtain ⟨k, ha, he, -⟩ := hm.site site hs
  omega

theorem Sited.dvd_codeStart (hs : 4 ∣ m.start) : 4 ∣ m.codeStart := by
  have ho : 8 ∣ m.bundle.ownLayout.offset .code := dvd_alignUp (by decide)
  rw [hm.codeStart_eq]
  exact Nat.dvd_add hs (Nat.dvd_trans (by decide) ho)

theorem Sited.dvd_site (hs : 4 ∣ m.start) {site} (hsi : site ∈ callSitesOf m) :
    4 ∣ site.address := by
  obtain ⟨k, ha, -, -⟩ := hm.site site hsi
  rw [ha]
  exact Nat.dvd_add (hm.dvd_codeStart hs) (Nat.dvd_mul_right 4 k)

end

end CompiledMethod

/-- A window that holds the images of some methods and nothing else. -/
def Window.bare (e : Extent) (methods : List CompiledMethod) : Window :=
  methods.foldl (fun w m => w.put m.start m.image) { e with byte := fun _ => 0 }

namespace Window

theorem foldl_put_outside {x} : ∀ {methods : List CompiledMethod} (w : Window),
    (∀ m ∈ methods, ¬ m.Covers x) → (methods.foldl (fun w m => w.put m.start m.image) w).byte x = w.byte x
  | [], _, _ => rfl
  | m :: rest, w, h => by
    rw [forall_mem_cons] at h
    have hm : ¬ (m.start ≤ x ∧ x < m.start + m.image.size) := h.1
    rw [foldl_cons, foldl_put_outside _ h.2, byte_put_outside _ (by omega)]

theorem foldl_put_image {m i b} (hb : m.image[i]? = some b) :
    ∀ {methods : List CompiledMethod} (w : Window), methods.Pairwise (fun m n => ∀ x, m.Covers x → ¬ n.Covers x) →
      m ∈ methods → (methods.foldl (fun w m => w.put m.start m.image) w).byte (m.start + i) = b
  | [], _, _, hm => absurd hm not_mem_nil
  | first :: rest, w, h, hm => by
    rw [pairwise_cons] at h
    rw [foldl_cons]
    rcases mem_cons.mp hm with rfl | hr
    · have hlt := (Array.getElem?_eq_some_iff.mp hb).1
      rw [foldl_put_outside _ fun n hn => h.1 n hn _ ⟨Nat.le_add_right _ _, Nat.add_lt_add_left hlt _⟩]
      exact byte_put_inside _ _ hb
    · exact foldl_put_image hb _ h.2 hr

theorem bare_append (e : Extent) (methods : List CompiledMethod) (m : CompiledMethod) :
    bare e (methods ++ [m]) = (bare e methods).put m.start m.image := by
  rw [bare, foldl_append]
  rfl

theorem toExtent_bare (e : Extent) (methods : List CompiledMethod) : (bare e methods).toExtent = e := by
  have hf : ∀ (methods : List CompiledMethod) (w : Window),
      (methods.foldl (fun w m => w.put m.start m.image) w).toExtent = w.toExtent := by
    intro methods
    induction methods with
    | nil => exact fun w => rfl
    | cons m rest ih => exact fun w => ih (w.put m.start m.image)
  exact hf methods _

end Window

namespace CodeCache

/-! ## Arranged methods -/

/-- Installed methods have their places in the window, apart from each other. -/
structure Spread (c : CacheConfig) (s : CodeCache) : Prop where
  regular : s.Regular c
  sited : ∀ m ∈ s.installed, m.Sited
  inside : ∀ m ∈ s.installed, s.window.Holds m.start m.image.size
  handed : ∀ m ∈ s.installed, ∀ {x}, m.Covers x → s.Handed x
  apart : s.installed.Pairwise fun m n => ∀ x, m.Covers x → ¬ n.Covers x

/-- Their places are also aligned, so that calls reach them. -/
structure Arranged (c : CacheConfig) (s : CodeCache) : Prop extends Spread c s where
  aligned : ∀ m ∈ s.installed, 4 ∣ m.start

/-- The calls of all installed methods. -/
def allSites (s : CodeCache) : List CallSite := s.installed.flatMap callSitesOf

/-- The cache with every call recorded and linked. -/
def linked (s : CodeCache) : CodeCache :=
  let s := { s with callSites := s.allSites, unlinked := [] }
  s.overlaid (.bare s.window.toExtent s.installed) s.linkWord

/-- The cache with nothing linked and all methods waiting. -/
def deferred (s : CodeCache) : CodeCache := s.vary (.bare s.window.toExtent s.installed) [] s.installed

section
variable {c : CacheConfig} {s t : CodeCache} {m : Linear.Method} {a : Allocation}

theorem Spread.grows (hs : s.Spread c) (h : Grows c s t) : t.Spread c := by
  have hi := h.installed
  refine ⟨h.regular, ?_, ?_, ?_, ?_⟩ <;> rw [hi]
  · exact hs.sited
  · rw [h.window]
    exact hs.inside
  · exact fun m hm x hx => h.handed (hs.handed m hm hx)
  · exact hs.apart

theorem Spread.eq_of_covers (hs : s.Spread c) {m n} (hm : m ∈ s.installed) (hn : n ∈ s.installed) {x}
    (hx : m.Covers x) (hx' : n.Covers x) : m = n := by
  have hsy : Std.Symm fun m n : CompiledMethod => ∀ x, m.Covers x → ¬ n.Covers x :=
    ⟨fun _ _ h x hn hm => h x hm hn⟩
  by_contra hne
  exact hs.apart.forall hm hn hne x hx hx'

theorem Entered.forall_installed {cm} (h : Entered c s cm t) {p : CompiledMethod → Prop}
    (ho : ∀ m ∈ s.installed, p m) (hn : p cm) : ∀ m ∈ t.installed, p m := by
  intro m hm
  rw [h.installed, mem_append, mem_singleton] at hm
  exact hm.elim (ho m) fun heq => heq ▸ hn

theorem Spread.enter (hs : s.Spread c) {cm} (h : Entered c s cm t) : t.Spread c := by
  refine ⟨h.regular, h.forall_installed hs.sited h.sited, ?_, ?_, ?_⟩
  · refine h.forall_installed (fun m hm => ?_) h.inside
    rw [h.window]
    exact hs.inside m hm
  · exact h.forall_installed (fun m hm x hx => h.handed (hs.handed m hm hx)) h.handsOut
  · rw [h.installed, pairwise_append]
    refine ⟨hs.apart, pairwise_singleton _ _, fun m hm n hn x hx hx' => ?_⟩
    rw [mem_singleton] at hn
    subst hn
    exact h.fresh hx' (hs.handed m hm hx)

theorem Spread.vary (hs : s.Spread c) {w} (he : w.toExtent = s.window.toExtent) (sites : List CallSite)
    (unlinked : List CompiledMethod) : (s.vary w sites unlinked).Spread c := by
  obtain ⟨hr, hsit, hin, hh, ha⟩ := hs
  rw [← he] at hin
  exact ⟨hr.vary he _ _, hsit, hin, hh, ha⟩

theorem Spread.create {host} (h : create c host = .ok s) : s.Spread c := by
  obtain ⟨hr, hi, -⟩ := create_eq_ok h
  have hn : ∀ {q : CompiledMethod → Prop}, ∀ m ∈ s.installed, q m := by simp [hi]
  exact ⟨hr, hn, hn, hn, by rw [hi]; exact .nil⟩

variable (hbo : 4 ∣ c.bootRegionSize) (hre : 4 ∣ c.regionSize)
include hbo hre

theorem Arranged.accept (hs : s.Arranged c) (m : Linear.Method) (a : Allocation) : (s.accept m a).2.Arranged c := by
  rcases ha : s.accept m a with ⟨e | cm, t⟩
  · have hg := (accept_refused hs.regular ha).1
    exact ⟨hs.grows hg, by rw [hg.installed]; exact hs.aligned⟩
  · have he := accept_entered hs.regular ha
    exact ⟨hs.enter he, he.forall_installed hs.aligned (he.aligned hbo hre)⟩

end

/-! ## Linked calls -/

section
variable {c : CacheConfig} {s t : CodeCache}

theorem newest?_append {cm} (h : t.installed = s.installed ++ [cm]) (key : MethodKey) :
    t.newest? key = if cm.key = key then some cm else s.newest? key := by
  rw [newest?, t.versions_eq, h, filter_append]
  by_cases hk : cm.key = key
  · rw [if_pos hk, filter_cons_of_pos (by simpa using hk), filter_nil, getLast?_concat]
  · rw [if_neg hk, filter_cons_of_neg (by simpa using hk), filter_nil, append_nil, newest?, s.versions_eq]

theorem linkWord_of_no_site {x} (h : ∀ site ∈ s.callSites, site.address ≠ x) : s.linkWord x = none := by
  rw [linkWord, find?_eq_none.mpr fun site hs => by simpa using h site hs]
  rfl

theorem Arranged.site_within (hs : s.Arranged c) {site} (hsi : site ∈ s.allSites) :
    ∃ m ∈ s.installed, site ∈ callSitesOf m ∧ 4 ∣ site.address ∧
      m.start ≤ site.address ∧ site.address + 4 ≤ m.start + m.image.size := by
  obtain ⟨m, hm, hsi⟩ := mem_flatMap.mp hsi
  exact ⟨m, hm, hsi, (hs.sited m hm).dvd_site (hs.aligned m hm) hsi, (hs.sited m hm).site_within hsi⟩

theorem Arranged.linkable (hs : s.Arranged c) (hsi : s.callSites = s.allSites) : s.Linkable := by
  refine ⟨hs.regular.reach, ?_, ?_, ?_⟩
  · rw [hsi, allSites, pairwise_flatMap]
    constructor
    · exact fun m hm => (hs.sited m hm).rising.imp Nat.ne_of_lt
    · refine hs.apart.imp_of_mem fun {m n} hm hn ha x hx y hy heq => ?_
      obtain ⟨hle, hst⟩ := (hs.sited m hm).site_within hx
      obtain ⟨hl', hs'⟩ := (hs.sited n hn).site_within hy
      exact ha x.address ⟨hle, by omega⟩ ⟨by omega, by omega⟩
  · intro site hsit
    rw [hsi] at hsit
    obtain ⟨m, hm, -, hd, hle, hst⟩ := hs.site_within hsit
    obtain ⟨hb, hsto⟩ := hs.inside m hm
    exact ⟨hd, by omega, by omega⟩
  · intro m hm
    have hp := (hs.sited m hm).code_pos
    obtain ⟨hb, hst⟩ := hs.inside m hm
    obtain ⟨hle, hc⟩ := (hs.sited m hm).code_within
    exact ⟨(hs.sited m hm).dvd_codeStart (hs.aligned m hm), by omega, by omega⟩

theorem linkWord_append {cm} (hs : s.Linkable) (ht : t.Linkable) (hi : t.installed = s.installed ++ [cm])
    (hsit : t.callSites = s.callSites ++ callSitesOf cm) {x}
    (hx : x ∉ (t.linkCalls (t.callersOf cm.key ++ callSitesOf cm)).map (·.1)) : s.linkWord x = t.linkWord x := by
  -- a call that is left alone has no installed callee among those that are linked
  have hno : ∀ site ∈ t.callersOf cm.key ++ callSitesOf cm, site.address = x → t.newest? site.callee = none := by
    intro site hsi ha
    cases hn : t.newest? site.callee with
    | none => rfl
    | some m => exact absurd (mem_map.mpr ⟨_, mem_linkCalls.mpr ⟨site, hsi, m, hn, rfl⟩, ha⟩) hx
  by_cases ho : ∃ site ∈ s.callSites, site.address = x
  · obtain ⟨site, hsi, rfl⟩ := ho
    have hs' : site ∈ t.callSites := by
      rw [hsit]
      exact mem_append_left _ hsi
    have hk : cm.key ≠ site.callee := by
      intro hk
      have hc : site ∈ t.callersOf cm.key := mem_filter.mpr ⟨hs', decide_eq_true hk.symm⟩
      have hmi := hno site (mem_append_left _ hc) rfl
      rw [newest?_append hi, if_pos hk] at hmi
      cases hmi
    rw [hs.linkWord_eq hsi, ht.linkWord_eq hs', newest?_append hi, if_neg hk]
  · have hf : s.linkWord x = none := linkWord_of_no_site fun site hsi ha => ho ⟨site, hsi, ha⟩
    rw [hf]
    by_cases hne : ∃ site ∈ callSitesOf cm, site.address = x
    · obtain ⟨site, hsi, rfl⟩ := hne
      rw [ht.linkWord_eq (by rw [hsit]; exact mem_append_right _ hsi),
        hno site (mem_append_right _ hsi) rfl]
      rfl
    · refine (linkWord_of_no_site fun site hsi ha => ?_).symm
      rw [hsit, mem_append] at hsi
      exact hsi.elim (fun h => ho ⟨site, h, ha⟩) fun h => hne ⟨site, h, ha⟩

end

/-! ## Compiling methods one after the other -/

section
variable {c : CacheConfig} {s t : CodeCache}

theorem Arranged.vary (hs : s.Arranged c) {w} (he : w.toExtent = s.window.toExtent) (sites : List CallSite)
    (unlinked : List CompiledMethod) : (s.vary w sites unlinked).Arranged c :=
  ⟨hs.toSpread.vary he sites unlinked, hs.aligned⟩

theorem Arranged.linked (hs : s.Arranged c) : s.linked.Arranged c :=
  hs.vary (w := (bare s.window.toExtent s.installed).overlay _) (toExtent_bare _ _) s.allSites []

theorem Arranged.deferred (hs : s.Arranged c) : s.deferred.Arranged c :=
  hs.vary (toExtent_bare _ _) [] s.installed

theorem linked_eq (he : t.window.toExtent = s.window.toExtent) (hi : t.installed = s.installed) :
    t.linked = t.vary s.linked.window s.linked.callSites [] := by
  unfold linked overlaid vary allSites linkWord newest?
  simp only [he, hi, versions_eq]

theorem Arranged.create {host} (h : create c host = .ok s) : s.Arranged c ∧ s.linked = s ∧ s.deferred = s := by
  obtain ⟨-, hi, hs, hu, hby⟩ := create_eq_ok h
  have hb : bare s.window.toExtent s.installed = s.window := by
    rw [hi]
    exact eq_of_byte rfl fun x => (hby x).symm
  have hw : s.linked.window = s.window := by
    have hwo : s.linked.linkWord = fun _ => none := funext fun x =>
      linkWord_of_no_site fun site hsi => absurd hsi (by simp [CodeCache.linked, overlaid, allSites, hi])
    rw [show s.linked.window = (bare s.window.toExtent s.installed).overlay s.linked.linkWord from rfl, hwo,
      overlay_none, hb]
  refine ⟨⟨.create h, by simp [hi]⟩, ?_, ?_⟩
  · rw [linked_eq rfl rfl, hw, show s.linked.callSites = s.allSites from rfl, allSites, hi,
      flatMap_nil, ← hs, ← hu]
    rfl
  · rw [CodeCache.deferred, hb, hi, ← hs, ← hu]
    rfl

theorem put_linked (hs : s.Arranged c) (ht : t.Arranged c) {cm} (h : Entered c s cm t) :
    s.linked.window.put cm.start cm.image =
      (bare t.window.toExtent t.installed).overlay s.linked.linkWord := by
  have hd := ht.aligned cm h.mem
  rw [h.window, h.installed, bare_append]
  refine overlay_put _ fun {x} hx hx' => linkWord_of_no_site fun site hsi ha => ?_
  obtain ⟨m, hm, -, -, hle, hst⟩ := hs.site_within hsi
  exact h.fresh ⟨by omega, by omega⟩ (hs.handed m hm ⟨hle, by omega⟩)

theorem settle_linked (hs : s.Arranged c) (ht : t.Arranged c) {cm} (h : Entered c s cm t) :
    (t.vary s.linked.window s.linked.callSites []).settle cm true = (.ok (), t.linked) := by
  have hsi : t.allSites = s.linked.callSites ++ callSitesOf cm := by
    rw [allSites, h.installed, flatMap_append]
    simp [linked, overlaid, allSites]
  have hr : (t.vary s.linked.window s.linked.callSites []).recordCallSites cm =
      t.vary s.linked.window t.allSites [] := by
    rw [hsi]
    rfl
  have hex : s.linked.window.toExtent = t.window.toExtent := by
    rw [h.window]
    exact toExtent_bare _ _
  have hl := (ht.vary hex t.allSites []).linkable rfl
  have hli := @linkInstalled_eq (t.vary s.linked.window s.linked.callSites [])
    (bare t.window.toExtent t.installed) cm (hr ▸ hl)
    ((toExtent_bare _ _).trans hex.symm) s.linked.linkWord
  rw [hr] at hli
  unfold settle
  rw [if_pos rfl, show (t.vary s.linked.window s.linked.callSites []).window.put cm.start cm.image = _ from
    put_linked hs ht h]
  refine (hli fun x hx => ?_).trans rfl
  exact linkWord_append (hs.linked.linkable rfl) hl h.installed hsi hx

theorem generate_deferred (hs : s.Arranged c) (m : Linear.Method) (a : Allocation) :
    s.deferred.generate m a false = ((s.accept m a).1, (s.accept m a).2.deferred) := by
  have hv := accept_vary s s.deferred.window [] s.installed m a
  rcases ha : s.accept m a with ⟨e | cm, t⟩ <;> rw [ha] at hv
  · have hg := (accept_refused hs.regular ha).1
    have hsa : t.deferred = t.vary s.deferred.window [] s.installed := by
      unfold deferred
      rw [hg.window, hg.installed]
      rfl
    rw [hsa]
    exact generate_of_refused hv
  · have he := accept_entered hs.regular ha
    refine generate_of_accept hs.deferred.regular hv ?_
    unfold settle deferred
    rw [he.window, he.installed, bare_append]
    rfl

variable (hbo : 4 ∣ c.bootRegionSize) (hre : 4 ∣ c.regionSize)
include hbo hre

theorem generate_linked (hs : s.Arranged c) (m : Linear.Method) (a : Allocation) :
    s.linked.generate m a true = ((s.accept m a).1, (s.accept m a).2.linked) := by
  have hv := accept_vary s s.linked.window s.linked.callSites [] m a
  have hn := hs.accept hbo hre m a
  rcases ha : s.accept m a with ⟨e | cm, t⟩ <;> rw [ha] at hv hn
  · have hg := (accept_refused hs.regular ha).1
    rw [linked_eq (congrArg _ hg.window) hg.installed]
    exact generate_of_refused hv
  · have he := accept_entered hs.regular ha
    exact generate_of_accept hs.linked.regular hv (settle_linked hs hn he)

end

end CodeCache
end StackCompiler
