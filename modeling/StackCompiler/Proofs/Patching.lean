/-
Patching of call instructions. A window whose words are written over is an
overlay (`Window.overlay`).
-/
import StackCompiler.Proofs.InstructionForms
import StackCompiler.Proofs.Installation

namespace StackCompiler

open List Bytes Window

/-! ## Windows -/

namespace Window

variable {w : Window} {address : Nat} {data : Bytes} {words : Nat → Option (BitVec 32)}

theorem eq_of_byte {w'} (he : w.toExtent = w'.toExtent) (hb : ∀ x, w.byte x = w'.byte x) :
    w = w' := by
  cases w
  cases w'
  cases he
  exact congrArg _ (funext hb)

theorem byte_put_inside (w : Window) (offset : Nat) {i b} (h : data[i]? = some b) :
    (w.put offset data).byte (offset + i) = b := by
  simp [put, h]

theorem byte_put_outside (w : Window) {offset x} (h : x < offset ∨ offset + data.size ≤ x) :
    (w.put offset data).byte x = w.byte x := by
  by_cases hx : offset ≤ x
  · have hn : data[x - offset]? = none := Array.getElem?_eq_none (by omega)
    simp [put, hn]
  · simp [put, hx]

/-- A window with the given words written over it, each at its address. -/
def overlay (w : Window) (words : Nat → Option (BitVec 32)) : Window :=
  { w with byte := fun x =>
      ((words (x / 4 * 4)).bind fun word => (ofWord word)[x % 4]?).getD (w.byte x) }

@[simp] theorem toExtent_overlay (w : Window) (words : Nat → Option (BitVec 32)) :
    (w.overlay words).toExtent = w.toExtent := rfl

@[simp] theorem overlay_none (w : Window) : w.overlay (fun _ => none) = w := rfl

theorem byte_overlay_none {x} (h : words (x / 4 * 4) = none) :
    (w.overlay words).byte x = w.byte x := by
  simp [overlay, h]

theorem byte_overlay_word {word} (ha : 4 ∣ address) (h : words address = some word) {i b}
    (hb : (ofWord word)[i]? = some b) :
    (w.overlay words).byte (address + i) = b := by
  have hi : i < 4 := (List.getElem?_eq_some_iff.mp hb).1
  have hd : (address + i) / 4 * 4 = address := by omega
  have hm : (address + i) % 4 = i := by omega
  simp [overlay, hd, hm, h, hb]

theorem put_overlay (w : Window) (words : Nat → Option (BitVec 32)) (ha : 4 ∣ address)
    (word : BitVec 32) : (w.overlay words).put address (ofWord word).toArray =
      w.overlay fun x => if x = address then some word else words x := by
  refine eq_of_byte rfl fun x => ?_
  by_cases hx : x / 4 * 4 = address
  · obtain ⟨i, rfl⟩ : ∃ i, x = address + i := ⟨x % 4, by omega⟩
    have hi : i < (ofWord word).length := by
      rw [length_ofWord]
      omega
    have hb := getElem?_eq_getElem hi
    rw [byte_put_inside _ _ (by rw [getElem?_toArray, hb]), byte_overlay_word ha (if_pos rfl) hb]
  · rw [byte_put_outside _ (by simp only [size_toArray, length_ofWord]; omega)]
    simp [overlay, hx]

theorem overlay_put (w : Window) {offset} (h : ∀ {x}, offset ≤ x → x < offset + data.size → words (x / 4 * 4) = none) :
    (w.overlay words).put offset data = (w.put offset data).overlay words := by
  refine eq_of_byte rfl fun x => ?_
  by_cases hx : offset ≤ x ∧ x < offset + data.size
  · obtain ⟨i, rfl⟩ := Nat.exists_eq_add_of_le hx.1
    have hb := Array.getElem?_eq_getElem (show i < data.size by omega)
    rw [byte_put_inside _ _ hb, byte_overlay_none (h hx.1 hx.2), byte_put_inside _ _ hb]
  · have ho : x < offset ∨ offset + data.size ≤ x := by omega
    rw [byte_put_outside _ ho]
    simp only [overlay, byte_put_outside w ho]

end Window

namespace CodeCache

theorem readCode_eq {s : CodeCache} {address} {data : List UInt8} (hin : s.window.Holds address data.length)
    (hp : 0 < data.length) (h : ∀ i b, data[i]? = some b → s.window.byte (address + i) = b) :
    s.readCode address data.length = .ok data.toArray := by
  obtain ⟨hle, hf⟩ := hin
  have hb : (Array.ofFn fun (i : Fin data.length) => s.window.byte (address + i)) = data.toArray := by
    refine Array.ext (by simp) fun i hi hi' => ?_
    rw [Array.getElem_ofFn]
    exact h i _ (getElem?_eq_getElem hi')
  rw [readCode, offsetOf, if_pos (by omega)]
  simp only [Window.read, Window.check, Nat.add_sub_of_le hle]
  rw [if_pos (by omega), ← hb]
  rfl

theorem readCode_word {s : CodeCache} {address word} (hin : s.window.Holds address 4)
    (h : ∀ i b, (ofWord word)[i]? = some b → s.window.byte (address + i) = b) :
    s.readCode address 4 = .ok (ofWord word).toArray :=
  @readCode_eq _ _ (ofWord word) hin (Nat.succ_pos 3) h

end CodeCache

/-! ## Calls -/

/-- The word of a call from one address to another. -/
def callWord (source target : Nat) : BitVec 32 := (encodeCall source target).toOption.getD 0

namespace CodeCache

/-- A call within a window. -/
structure Callable (e : Extent) (call : Nat × Nat) : Prop where
  source : 4 ∣ call.1
  target : 4 ∣ call.2
  holds_source : e.Holds call.1 4
  holds_target : e.Holds call.2 1

variable {call : Nat × Nat}

theorem Callable.encodes {e} (h : Callable e call) (hr : e.size ≤ callReach) :
    encodeCall call.1 call.2 = .ok (callWord call.1 call.2) ∧
      Opcode.bl.assemble [.rel ((call.2 : Int) - call.1)] = .ok (callWord call.1 call.2) := by
  obtain ⟨hle, hst⟩ := h.holds_source
  obtain ⟨hle', hst'⟩ := h.holds_target
  have hs' := h.source
  have ht' := h.target
  obtain ⟨w, he, ha⟩ := @encodeCall_isOk call.1 call.2 (by omega) (by omega) (by omega)
  have hw : callWord call.1 call.2 = w := by
    rw [callWord, he]
    rfl
  rw [hw]
  exact ⟨he, ha⟩

/-- The words that are written over after some calls were patched. -/
def patched (words : Nat → Option (BitVec 32)) : List (Nat × Nat) → Nat → Option (BitVec 32)
  | [] => words
  | call :: rest => patched (fun x => if x = call.1 then some (callWord call.1 call.2) else words x) rest

theorem patched_append : ∀ (xs ys : List (Nat × Nat)) (words : Nat → Option (BitVec 32)),
    patched words (xs ++ ys) = patched (patched words xs) ys
  | [], _, _ => rfl
  | _ :: xs, ys, _ => patched_append xs ys _

theorem patched_eq {goal} :
    ∀ {calls : List (Nat × Nat)} {words : Nat → Option (BitVec 32)},
    (∀ call ∈ calls, goal call.1 = some (callWord call.1 call.2)) →
      (∀ x, x ∉ calls.map (·.1) → words x = goal x) → patched words calls = goal
  | [], words, _, hr => funext fun x => hr x not_mem_nil
  | call :: rest, words, hg, hr => by
    rw [forall_mem_cons] at hg
    rw [patched]
    refine patched_eq hg.2 fun x hx => ?_
    by_cases heq : x = call.1
    · rw [if_pos heq, heq, hg.1]
    · rw [if_neg heq]
      exact hr x (by rw [map_cons, mem_cons]; exact fun h => h.elim heq hx)

/-- A cache whose window has words written over it. -/
def overlaid (s : CodeCache) (w : Window) (words : Nat → Option (BitVec 32)) : CodeCache :=
  { s with window := w.overlay words }

variable {s : CodeCache} {w : Window}

theorem patch_overlaid (hc : Callable w.toExtent call) (hr : w.size ≤ callReach)
    (words : Nat → Option (BitVec 32)) :
    (s.overlaid w words).patch call.1 call.2 = (.ok (), s.overlaid w (patched words [call])) := by
  obtain ⟨hle, hst⟩ := hc.holds_source
  have ho : (s.overlaid w words).offsetOf call.1 = .ok (call.1 - w.base) :=
    if_pos (show w.base ≤ call.1 ∧ call.1 - w.base < w.size by omega)
  have hw : (w.overlay words).write (call.1 - w.base) (ofWord (callWord call.1 call.2)).toArray =
      .ok (w.overlay (patched words [call])) := by
    rw [write_of_le (by simp only [List.size_toArray, length_ofWord, toExtent_overlay]; omega),
      toExtent_overlay, Nat.add_sub_of_le hle, put_overlay _ _ hc.source]
    rfl
  unfold patch
  rw [(hc.encodes hr).1]
  simp only [ho, writeWord]
  rw [show (s.overlaid w words).window.write (call.1 - w.base) _ = _ from hw]
  rfl

theorem patchAll_overlaid (hr : w.size ≤ callReach) :
    ∀ {calls : List (Nat × Nat)} (words : Nat → Option (BitVec 32)),
    (∀ call ∈ calls, Callable w.toExtent call) →
      (s.overlaid w words).patchAll calls = (.ok (), s.overlaid w (patched words calls))
  | [], _, _ => rfl
  | call :: rest, words, hc => by
    rw [forall_mem_cons] at hc
    unfold patchAll
    rw [patch_overlaid hc.1 hr]
    exact patchAll_overlaid hr _ hc.2

/-! ## Linking -/

/-- Records the calls of the waiting methods, as linking all calls does first. -/
def recorded (s : CodeCache) : CodeCache := { s.unlinked.foldl recordCallSites s with unlinked := [] }

theorem foldl_recordCallSites : ∀ (methods : List CompiledMethod) (s : CodeCache),
    methods.foldl recordCallSites s = { s with callSites := s.callSites ++ methods.flatMap callSitesOf }
  | [], s => by simp
  | m :: methods, s => by
    rw [foldl_cons, foldl_recordCallSites methods]
    simp [recordCallSites]

theorem recorded_eq (s : CodeCache) :
    s.recorded = s.vary s.window (s.callSites ++ s.unlinked.flatMap callSitesOf) [] := by
  rw [recorded, foldl_recordCallSites]
  rfl

/-- The calls that link some call sites: those whose callee is installed. -/
def linkCalls (s : CodeCache) (sites : List CallSite) : List (Nat × Nat) :=
  sites.filterMap fun site => (s.newest? site.callee).map fun callee => (site.address, callee.codeStart)

theorem mem_linkCalls {sites} : call ∈ s.linkCalls sites ↔
    ∃ site ∈ sites, ∃ m, s.newest? site.callee = some m ∧ (site.address, m.codeStart) = call := by
  simp [linkCalls]

/-- The word that the call at an address is to hold. -/
def linkWord (s : CodeCache) (address : Nat) : Option (BitVec 32) :=
  (s.callSites.find? (·.address = address)).bind fun site =>
    (s.newest? site.callee).map fun callee => callWord address callee.codeStart

/-- A cache whose recorded calls and installed methods have their places. -/
structure Linkable (s : CodeCache) : Prop where
  reach : s.window.size ≤ callReach
  distinct : s.callSites.Pairwise fun x y => x.address ≠ y.address
  site : ∀ site ∈ s.callSites, 4 ∣ site.address ∧ s.window.Holds site.address 4
  target : ∀ m ∈ s.installed, 4 ∣ m.codeStart ∧ s.window.Holds m.codeStart 1

theorem newest?_mem {key m} (h : s.newest? key = some m) :
    m ∈ s.installed ∧ m.key = key := by
  have hm := mem_of_getLast? h
  rw [s.versions_eq, mem_filter] at hm
  exact ⟨hm.1, of_decide_eq_true hm.2⟩

theorem find?_site {sites : List CallSite} (h : sites.Pairwise fun x y => x.address ≠ y.address) {site}
    (hs : site ∈ sites) : sites.find? (·.address = site.address) = some site := by
  induction sites with
  | nil => cases hs
  | cons first rest ih =>
    rw [pairwise_cons] at h
    rcases mem_cons.mp hs with rfl | hr
    · simp
    · rw [find?_cons_of_neg (by simpa using h.1 site hr)]
      exact ih h.2 hr

theorem linkWord_eq_none {x} (h : x ∉ (s.linkCalls s.callSites).map (·.1)) : s.linkWord x = none := by
  cases hf : s.callSites.find? (·.address = x) with
  | none =>
    rw [linkWord, hf]
    rfl
  | some site =>
    have ha : site.address = x := by simpa using find?_some hf
    cases hn : s.newest? site.callee with
    | none =>
      rw [linkWord, hf, Option.bind_some, hn]
      rfl
    | some m =>
      refine absurd (mem_map.mpr ⟨(x, m.codeStart), mem_linkCalls.mpr ⟨site, ?_, m, hn, ?_⟩, rfl⟩) h
      · exact mem_of_find?_eq_some hf
      · rw [ha]

/-- The recorded calls of a method. -/
def callersOf (s : CodeCache) (key : MethodKey) : List CallSite := s.callSites.filter (·.callee = key)

theorem callersOf_subset (s : CodeCache) (key : MethodKey) : s.callersOf key ⊆ s.callSites := filter_subset_self _

theorem linkCallersOf_eq (s : CodeCache) (key : MethodKey) : s.linkCallersOf key =
    ((s.patchAll (s.linkCalls (s.callersOf key))).1.map fun _ => (s.linkCalls (s.callersOf key)).length,
      (s.patchAll (s.linkCalls (s.callersOf key))).2) := by
  have hc : ∀ site ∈ s.callersOf key, site.callee = key := fun site hs =>
    of_decide_eq_true (mem_filter.mp hs).2
  unfold linkCallersOf
  cases hn : s.newest? key with
  | none =>
    have hni : s.linkCalls (s.callersOf key) = [] := by
      refine filterMap_eq_nil_iff.mpr fun site hs => ?_
      rw [hc site hs, hn]
      rfl
    rw [hni]
    rfl
  | some m =>
    have hm : s.linkCalls (s.callersOf key) =
        (s.callSites.filter (·.callee = key)).map fun site => (site.address, m.codeStart) := by
      rw [← filterMap_eq_map]
      refine filterMap_congr fun site hs => ?_
      rw [hc site hs, hn]
      rfl
    rw [hm]
    dsimp only
    rcases s.patchAll _ with ⟨_ | _, t⟩
    · rfl
    · rw [length_map]
      rfl

section
variable (hl : s.Linkable)
include hl

theorem Linkable.linkWord_eq {site : CallSite} (hs : site ∈ s.callSites) :
    s.linkWord site.address = (s.newest? site.callee).map fun callee => callWord site.address callee.codeStart := by
  rw [linkWord, find?_site hl.distinct hs]
  rfl

section
variable {sites : List CallSite} (hsit : sites ⊆ s.callSites)
include hsit

theorem Linkable.callable {call} (hc : call ∈ s.linkCalls sites) : Callable s.window.toExtent call := by
  obtain ⟨site, hsi, m, hm, rfl⟩ := mem_linkCalls.mp hc
  obtain ⟨hso, hs⟩ := hl.site site (hsit hsi)
  obtain ⟨hta, ht⟩ := hl.target m (newest?_mem hm).1
  exact ⟨hso, hta, hs, ht⟩

/-- In any order, patches lead each call to the newest version of its callee. -/
theorem Linkable.patched_linkCalls {words} (hr : ∀ x, x ∉ (s.linkCalls sites).map (·.1) → words x = s.linkWord x) :
    patched words (s.linkCalls sites) = s.linkWord := by
  refine patched_eq (fun call hc => ?_) hr
  obtain ⟨site, hs, m, hm, rfl⟩ := mem_linkCalls.mp hc
  rw [hl.linkWord_eq (hsit hs), hm]
  rfl

variable (hex : w.toExtent = s.window.toExtent)
include hex

theorem Linkable.patchAll_linkCalls (words : Nat → Option (BitVec 32)) :
    (s.overlaid w words).patchAll (s.linkCalls sites) = (.ok (), s.overlaid w (patched words (s.linkCalls sites))) :=
  patchAll_overlaid (hex ▸ hl.reach) words fun _ hc => hex ▸ hl.callable hsit hc

end

variable (hex : w.toExtent = s.window.toExtent)
include hex

theorem Linkable.linkCallersOf_overlaid (key : MethodKey) (words : Nat → Option (BitVec 32)) :
    (s.overlaid w words).linkCallersOf key = (.ok (s.linkCalls (s.callersOf key)).length,
      s.overlaid w (patched words (s.linkCalls (s.callersOf key)))) := by
  have hp : (s.overlaid w words).patchAll ((s.overlaid w words).linkCalls ((s.overlaid w words).callersOf key)) = _ :=
    hl.patchAll_linkCalls (s.callersOf_subset key) hex words
  rw [linkCallersOf_eq, hp]
  rfl

theorem Linkable.linkIn_eq : ∀ (keys : List MethodKey) (count : Nat) (words : Nat → Option (BitVec 32)),
    (s.overlaid w words).linkIn count keys = (.ok (count + (s.linkCalls (keys.flatMap s.callersOf)).length),
      s.overlaid w (patched words (s.linkCalls (keys.flatMap s.callersOf))))
  | [], _, _ => rfl
  | key :: rest, count, words => by
    have hc : s.linkCalls ((key :: rest).flatMap s.callersOf) =
        s.linkCalls (s.callersOf key) ++ s.linkCalls (rest.flatMap s.callersOf) := filterMap_append
    unfold linkIn
    rw [hl.linkCallersOf_overlaid hex, hc, patched_append, length_append, ← Nat.add_assoc]
    exact Linkable.linkIn_eq rest _ _

end

/-- Linking a method that was just installed brings its callers and its own calls to their words. -/
theorem linkInstalled_eq {m} (hl : (s.recordCallSites m).Linkable)
    (hex : w.toExtent = s.window.toExtent) {words}
    (hr : ∀ x, x ∉ ((s.recordCallSites m).linkCalls
      ((s.recordCallSites m).callersOf m.key ++ callSitesOf m)).map (·.1) →
        words x = (s.recordCallSites m).linkWord x) :
    (s.overlaid w words).linkInstalled m =
      (.ok (), (s.recordCallSites m).overlaid w (s.recordCallSites m).linkWord) := by
  have hc := (s.recordCallSites m).callersOf_subset m.key
  have ho : callSitesOf m ⊆ (s.recordCallSites m).callSites := subset_append_right _ _
  unfold linkInstalled
  rw [show (s.overlaid w words).recordCallSites m = (s.recordCallSites m).overlaid w words from rfl,
    hl.linkCallersOf_overlaid hex]
  refine (hl.patchAll_linkCalls ho hex _).trans ?_
  rw [← patched_append, linkCalls, linkCalls, ← filterMap_append, ← linkCalls, hl.patched_linkCalls ?_ hr]
  exact append_subset.mpr ⟨hc, ho⟩

end CodeCache
end StackCompiler
