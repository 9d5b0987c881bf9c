/-
The linking invariant: every call goes to the newest version of its callee, and
all else is as emitted.
-/
import StackCompiler.Proofs.Arrangement
import StackCompiler.Proofs.ReferenceMaps

namespace StackCompiler

open CompiledMethod List

/-- The callees of the direct calls that are not native. -/
def CompiledMethod.linkedCallees (m : CompiledMethod) : List MethodKey :=
  m.bundle.callees.zipIdx.filterMap fun (callee, index) => if m.isNativeCall index then none else some callee

theorem CompiledMethod.Sited.map_callSitesOf {m} (hm : m.Sited) :
    (CodeCache.callSitesOf m).map (·.callee) = m.linkedCallees := by
  rw [CodeCache.callSitesOf, map_filterMap]
  refine filterMap_congr fun p hp => ?_
  obtain ⟨callee, index⟩ := p
  have hlt : index < m.bundle.stopPositions.length :=
    Nat.lt_of_lt_of_le (List.getElem?_eq_some_iff.mp (mem_zipIdx_iff_getElem?.mp hp)).1 hm.positions
  by_cases hn : m.isNativeCall index = true
  · simp [hn]
  · simp [hn, stopPosition?, hlt]

namespace CodeCache
variable {c : CacheConfig} {s p : CodeCache}

/-! ## The linked form -/

section
variable (hp : p.Arranged c) {m : CompiledMethod} (hm : m ∈ p.installed)
include hp hm

theorem byte_linked {x b} (hb : m.image[x]? = some b) (hw : p.linked.linkWord ((m.start + x) / 4 * 4) = none) :
    p.linked.window.byte (m.start + x) = b :=
  (Window.byte_overlay_none hw).trans (Window.foldl_put_image hb _ hp.apart hm)

theorem byte_linked_of_no_site {x b} (hb : m.image[x]? = some b)
    (hx : ∀ site ∈ callSitesOf m, ¬ (site.address ≤ m.start + x ∧ m.start + x < site.address + 4)) :
    p.linked.window.byte (m.start + x) = b := by
  refine byte_linked hp hm hb (linkWord_of_no_site fun site hsite ha => ?_)
  obtain ⟨n, hn, hsite, -, hle, hst⟩ := hp.site_within hsite
  have hlt := (Array.getElem?_eq_some_iff.mp hb).1
  -- the method that has the call takes up the byte, so it is this one
  have hs := hp.eq_of_covers hm hn ⟨Nat.le_add_right _ x, by omega⟩ ⟨by omega, by omega⟩
  subst hs
  exact hx site hsite ⟨by omega, by omega⟩

variable {site : CallSite} (hsite : site ∈ callSitesOf m)
include hsite

theorem linkWord_linked : p.linked.linkWord site.address =
    (p.newest? site.callee).map fun callee => callWord site.address callee.codeStart :=
  (hp.linked.linkable rfl).linkWord_eq (mem_flatMap.mpr ⟨m, hm, hsite⟩)

theorem site_linked : 4 ∣ site.address ∧ p.linked.window.Holds site.address 4 :=
  (hp.linked.linkable rfl).site site (mem_flatMap.mpr ⟨m, hm, hsite⟩)

theorem readWord_linked {target} (ht : p.newest? site.callee = some target) :
    p.linked.readCode site.address 4 = .ok (Bytes.ofWord (callWord site.address target.codeStart)).toArray ∧
      Opcode.bl.assemble [.rel ((target.codeStart : Int) - site.address)] =
        .ok (callWord site.address target.codeStart) := by
  obtain ⟨hd, hf⟩ := site_linked hp hm hsite
  have hl := hp.linked.linkable rfl
  have hw := linkWord_linked hp hm hsite
  rw [ht] at hw
  constructor
  · exact readCode_word hf fun i b hb => Window.byte_overlay_word hd hw hb
  · have hc : (site.address, target.codeStart) ∈ p.linked.linkCalls p.linked.callSites :=
      mem_linkCalls.mpr ⟨site, mem_flatMap.mpr ⟨m, hm, hsite⟩, target, ht, rfl⟩
    exact ((hl.callable (fun _ h => h) hc).encodes hl.reach).2

theorem readWord_unlinked (hn : p.newest? site.callee = none) :
    p.linked.readCode site.address 4 = .ok (Bytes.ofWord unlinkedCall).toArray := by
  obtain ⟨hdv, hf⟩ := site_linked hp hm hsite
  have hw := linkWord_linked hp hm hsite
  rw [hn] at hw
  obtain ⟨k, ha, he, hc⟩ := (hp.sited m hm).site site hsite
  refine readCode_word hf fun i b hb => ?_
  have hi : i < 4 := (List.getElem?_eq_some_iff.mp hb).1
  have him : m.image[m.bundle.codeOffset + (4 * k + i)]? = some b := by
    refine getElem?_image (hp.sited m hm) ?_
    rw [← hc, Array.getElem?_toList, Array.getElem?_extract] at hb
    split at hb
    next => exact hb
    next => cases hb
  have hpl : site.address + i = m.start + (m.bundle.codeOffset + (4 * k + i)) := by
    rw [ha, codeStart, CompiledMethod.start]
    omega
  have hd : (site.address + i) / 4 * 4 = site.address := by omega
  rw [hpl] at hd ⊢
  refine byte_linked hp hm him ?_
  rw [hd, hw]
  rfl

end

theorem pendingCallSites_linked (hp : p.Arranged c) : p.linked.pendingCallSites =
    ((p.installed.flatMap linkedCallees).filter fun callee => (p.newest? callee).isNone).length := by
  have hc : p.installed.flatMap linkedCallees = p.allSites.map (·.callee) := by
    rw [allSites, map_flatMap]
    exact flatMap_congr fun m hm => ((hp.sited m hm).map_callSitesOf).symm
  rw [hc, filter_map, length_map]
  rfl

/-! ## Runs -/

/-- The caches that are reached by compiling methods with linking, in a new cache on any host. -/
inductive Reached (c : CacheConfig) : CodeCache → Prop
  | create {host : Host} {s : CodeCache} (h : create c host = .ok s) : Reached c s
  | generate {s : CodeCache} (hs : Reached c s) (m : Linear.Method) (a : Allocation) :
      Reached c (s.generate m a true).2

/-- With linking at once, a cache stays in its linked form. -/
theorem Reached.exists_linked (hb : 4 ∣ c.bootRegionSize) (hr : 4 ∣ c.regionSize) (h : Reached c s) :
    ∃ p : CodeCache, p.Arranged c ∧ s = p.linked := by
  induction h with
  | create h => exact ⟨_, (Arranged.create h).1, (Arranged.create h).2.1.symm⟩
  | generate _ m a ih =>
    obtain ⟨p, hp, rfl⟩ := ih
    rw [generate_linked hb hr hp]
    exact ⟨_, hp.accept hb hr m a, rfl⟩

/-- Along every run each call of an installed method goes to the newest version of its callee, or is
as emitted when there is none; all other bytes of installed methods are as they were written, and
linking never fails. -/
theorem calls_stay_linked (hboot : 4 ∣ c.bootRegionSize) (hregion : 4 ∣ c.regionSize) (h : Reached c s) :
    (∀ m ∈ s.installed,
      (∀ i callee, m.bundle.callees[i]? = some callee → m.isNativeCall i = false → ∃ position word,
        m.stopPosition? i = some position ∧
        s.readCode (m.codeStart + position) 4 = .ok (Bytes.ofWord word).toArray ∧
        (∀ target, s.newest? callee = some target → ∃ distance : Int,
          (∀ preference, ({ preference } : Disassembler).decode word = [⟨Opcode.bl.template, [.rel distance]⟩]) ∧
            ((m.codeStart + position : Nat) : Int) + distance = target.codeStart) ∧
        (s.newest? callee = none → Opcode.bl.assemble [.rel 0] = .ok word ∧
          (m.bundle.code.extract position (position + 4)).toList = Bytes.ofWord word)) ∧
      (∀ x b, (m.bundle.image m.bundle.ownLayout)[x]? = some b →
        (∀ i position, i < m.directCalls → m.isNativeCall i = false → m.stopPosition? i = some position →
          ¬ (m.codeStart + position ≤ m.start + x ∧ m.start + x < m.codeStart + position + 4)) →
        s.window.byte (m.start + x) = b)) ∧
    s.pendingCallSites =
      ((s.installed.flatMap linkedCallees).filter fun callee => (s.newest? callee).isNone).length ∧
    ∀ m a e, (s.generate m a true).1 ≠ .error (.cache (.link e)) := by
  obtain ⟨p, hp, rfl⟩ := h.exists_linked hboot hregion
  refine ⟨fun m hm => ⟨fun i callee hc hna => ?_, fun x b hb hx => ?_⟩, pendingCallSites_linked hp, ?_⟩
  · have hm' : m ∈ p.installed := hm
    have hs := hp.sited m hm'
    have hlt := Nat.lt_of_lt_of_le (List.getElem?_eq_some_iff.mp hc).1 hs.positions
    obtain ⟨position, hpo⟩ : ∃ position, m.stopPosition? i = some position := by
      simp [stopPosition?, hlt]
    have hsite : ⟨callee, m.codeStart + position⟩ ∈ callSitesOf m :=
      mem_callSitesOf.mpr ⟨i, position, hc, hna, hpo, rfl⟩
    cases hn : p.newest? callee with
    | some target =>
      obtain ⟨hr, has⟩ := readWord_linked hp hm' hsite hn
      refine ⟨position, _, hpo, hr, fun target' ht => ?_, fun hno => ?_⟩
      · cases hn.symm.trans ht
        refine ⟨_, fun preference => @Disassembler.decode_call { preference } rfl rfl _ _ has, ?_⟩
        dsimp only
        omega
      · cases hn.symm.trans hno
    | none =>
      have hr := readWord_unlinked hp hm' hsite hn
      refine ⟨position, unlinkedCall, hpo, hr, fun target ht => ?_, fun _ => ?_⟩
      · cases hn.symm.trans ht
      · obtain ⟨k, ha, -, hco⟩ := hs.site _ hsite
        have hk : position = 4 * k := Nat.add_left_cancel ha
        rw [hk]
        exact ⟨rfl, hco⟩
  · refine byte_linked_of_no_site hp hm hb fun site hsite => ?_
    obtain ⟨i, position, hc, hna, hpo, ha⟩ := mem_callSitesOf.mp hsite
    rw [ha]
    exact hx i position (List.getElem?_eq_some_iff.mp hc).1 hna hpo
  · intro m a e
    rw [generate_linked hboot hregion hp]
    rcases hac : p.accept m a with ⟨err | cm, t⟩
    · exact fun h => (accept_refused hp.regular hac).2 e (Except.error.inj h)
    · exact fun h => by cases h

/-- The code of a method that makes one call. -/
def calling (key callee : MethodKey) : Linear.Method where
  key
  vars := #[]
  blocks := #[{ insns := [.call (.direct callee) [] none false 0], term := .ret none }]

/-- A caller, its callee, which calls itself, and the callee once more, compiled in this order. -/
def recompiled (s : CodeCache) : CodeCache :=
  [calling ⟨"T", "g", "()V"⟩ ⟨"T", "f", "()V"⟩, calling ⟨"T", "f", "()V"⟩ ⟨"T", "f", "()V"⟩,
    calling ⟨"T", "f", "()V"⟩ ⟨"T", "f", "()V"⟩].foldl (fun s m => (s.generate m (Allocation.ofCode m) true).2) s

/-- All three calls go to the method that was installed last. -/
theorem calls_stay_linked_recompiled : ∃ cache g f f', create ⟨2048, 1, 2048⟩ = .ok cache ∧
    cache.recompiled.installed = [g, f, f'] ∧ cache.recompiled.pendingCallSites = 0 ∧
    ∀ m ∈ [g, f, f'], ∃ position word distance, m.stopPosition? 0 = some position ∧
      cache.recompiled.readCode (m.codeStart + position) 4 = .ok (Bytes.ofWord word).toArray ∧
      ({} : Disassembler).decode word = [⟨Opcode.bl.template, [.rel distance]⟩] ∧
      ((m.codeStart + position : Nat) : Int) + distance = f'.codeStart := by
  have hru : (create ⟨2048, 1, 2048⟩).toOption.map (fun cache =>
      cache.recompiled.installed.map fun m => (m.key, m.bundle.callees, m.isNativeCall 0)) =
        some [(⟨"T", "g", "()V"⟩, [⟨"T", "f", "()V"⟩], false), (⟨"T", "f", "()V"⟩, [⟨"T", "f", "()V"⟩], false),
          (⟨"T", "f", "()V"⟩, [⟨"T", "f", "()V"⟩], false)] := by
    decide +kernel
  obtain ⟨cache, hc, hma⟩ := exists_ok_of_map hru
  have hr : Reached ⟨2048, 1, 2048⟩ cache.recompiled :=
    .generate (.generate (.generate (.create hc) _ _) _ _) _ _
  obtain ⟨hcal, hpe, -⟩ := calls_stay_linked (by decide) (by decide) hr
  obtain ⟨g, f, f', hg⟩ := length_eq_three.mp ((length_map _).symm.trans (congrArg length hma))
  simp only [hg, map_cons, map_nil, cons.injEq, Prod.mk.injEq] at hma
  obtain ⟨hgm, hf, hf', -⟩ := hma
  have hn : cache.recompiled.newest? ⟨"T", "f", "()V"⟩ = some f' := by
    simp [newest?, versions_eq, hg, hgm.1, hf.1, hf'.1]
  refine ⟨cache, g, f, f', hc, hg, ?_, fun m hm => ?_⟩
  · rw [hpe, hg]
    simp [linkedCallees, hgm, hf, hf', hn]
  · have hca : m.bundle.callees[0]? = some ⟨"T", "f", "()V"⟩ ∧ m.isNativeCall 0 = false := by
      simp only [mem_cons, not_mem_nil, or_false] at hm
      rcases hm with rfl | rfl | rfl
      · simp [hgm]
      · simp [hf]
      · simp [hf']
    obtain ⟨position, word, hpo, hrea, ht, -⟩ := (hcal m (hg ▸ hm)).1 0 _ hca.1 hca.2
    obtain ⟨distance, hde, hd⟩ := ht f' hn
    exact ⟨position, word, distance, hpo, hrea, hde _, hd⟩

end CodeCache
end StackCompiler
