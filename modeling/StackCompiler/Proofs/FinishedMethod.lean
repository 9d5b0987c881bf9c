/-
What a finished method says about its code. From its tables, the stop with a
given index is that of a site, with the maps that the emission recorded.
-/
import StackCompiler.Proofs.LiteralPool
import StackCompiler.Proofs.Stops

namespace StackCompiler

open Emission List CompiledMethod LiteralPool Convention

/-! ## Bit sets -/

theorem testBit_bitFold {bits : List Nat} {i} : ∀ (js : List Nat) (k : Nat),
    (js.foldr (fun j n => if bits.contains (8 * i + j) then n ||| 1 <<< j else n) 0).testBit k =
      decide (k ∈ js ∧ 8 * i + k ∈ bits) := by
  intro js k
  induction js with
  | nil => simp
  | cons j js ih =>
    rw [foldr_cons]
    by_cases hj : 8 * i + j ∈ bits
    · rw [if_pos (contains_iff_mem.mpr hj), Nat.testBit_or, ih, Nat.one_shiftLeft, Nat.testBit_two_pow]
      by_cases hk : j = k
      · subst hk
        simp [hj]
      · simp [hk, Ne.symm hk]
    · rw [if_neg (fun h => hj (contains_iff_mem.mp h)), ih]
      by_cases hk : j = k
      · subst hk
        simp [hj]
      · simp [Ne.symm hk]

theorem testBit_bitByte (bits : List Nat) (i : Nat) {k} (hk : k < 8) :
    (UInt8.ofNat ((List.range 8).foldr
      (fun j n => if bits.contains (8 * i + j) then n ||| 1 <<< j else n) 0)).toNat.testBit k =
        decide (8 * i + k ∈ bits) := by
  rw [UInt8.toNat_ofNat', Nat.testBit_mod_two_pow, testBit_bitFold]
  simp [hk]

theorem mem_setBits_bitmap {bytes bits bit} :
    bit ∈ setBits (bitmap bytes bits) ↔ bit ∈ bits ∧ bit < 8 * bytes := by
  have hl : (bitmap bytes bits).length = bytes := by simp [bitmap]
  unfold setBits
  rw [mem_filter, mem_range, hl, and_comm]
  refine and_congr_left fun hlt => ?_
  have hd : bit / 8 < bytes := by omega
  have hg : (bitmap bytes bits).getD (bit / 8) 0 = UInt8.ofNat ((List.range 8).foldr
      (fun j n => if bits.contains (8 * (bit / 8) + j) then n ||| 1 <<< j else n) 0) := by
    rw [getD_eq_getElem?_getD, bitmap, getElem?_map, getElem?_range hd]
    rfl
  rw [hg, testBit_bitByte bits (bit / 8) (Nat.mod_lt bit (by decide)), decide_eq_true_eq,
    Nat.div_add_mod]

/-! ## Tables -/

namespace Bundle

/-- The tables of a bundle come from an emission. -/
structure Tables (m : Linear.Method) (a : Allocation) (e : Emission) (b : Bundle) : Prop where
  stopPositions : b.stopPositions = stopPositionsOf (orderStops e.stops.toList)
  callees : b.callees = calleesOf (orderStops e.stops.toList)
  indirectCalls : b.indirectCalls = ((orderStops e.stops.toList).filter (·.kind = .indirect)).length
  safepoints : b.safepoints = ((orderStops e.stops.toList).filter (·.kind = .safepoint)).length
  frameMapBytes : b.frameMapBytes = (a.slots + 7) / 8
  registerMapBytes : b.registerMapBytes = Convention.registerMapBytes
  maps : b.maps = (referenceMaps ((a.slots + 7) / 8) (orderStops e.stops.toList)).toArray
  descriptors : b.descriptors = ((orderStops e.stops.toList).flatMap fun s => Leb128.encode s.bci).toArray
  code : b.code.size = e.buffer.offset
  /-- The code is what was emitted, with its placeholders replaced. -/
  finished : ∃ buffer buffer' : Buffer, buffer.code = e.buffer.code ∧
    buffer.placeholders = e.buffer.placeholders ∧ buffer.finish = (buffer', .ok b.code)
  codeOffset : b.codeOffset = b.ownLayout.offset .code
  inlineData : b.inlineData = InlineRun.encodeAll e.inlineData
  /-- Handlers are looked up among the labels of the code, which only literals changed. -/
  catchTable : ∃ buffer : Buffer,
    (∀ l, l ∉ e.literals.map (·.2) → buffer.labels[l]? = e.buffer.labels[l]?) ∧
      catchTableOf m.key.text { e with buffer } = .ok b.catchTable

theorem map_markNative (positions marked : List Nat) (s : Stop) :
    (markNative positions marked s).map (· % nativeBit) = marked.map (· % nativeBit) := by
  unfold markNative
  split
  · refine ext_getElem? fun i => ?_
    rw [getElem?_map, getElem?_map, getElem?_modify]
    cases marked[i]? with
    | none => rfl
    | some p =>
      refine congrArg some ?_
      dsimp only
      split
      · exact Nat.or_mod_two_pow (n := 31).trans (Nat.or_zero _)
      · rfl
  · rfl

/-- Marks change nothing but the bit of native calls. -/
theorem map_stopPositionsOf (stops : List Stop) :
    (stopPositionsOf stops).map (· % nativeBit) = stops.map (·.position % nativeBit) := by
  have hf : ∀ (xs : List Stop) (positions marked : List Nat),
      (xs.foldl (markNative positions) marked).map (· % nativeBit) = marked.map (· % nativeBit) := by
    intro xs
    induction xs with
    | nil => exact fun _ _ => rfl
    | cons s xs ih => exact fun positions marked => (ih _ _).trans (map_markNative positions marked s)
  rw [stopPositionsOf, hf, map_map]
  rfl

theorem length_stopPositionsOf (stops : List Stop) : (stopPositionsOf stops).length = stops.length := by
  simpa only [length_map] using congrArg length (map_stopPositionsOf stops)

theorem fixLabels_cons {label address rest b b'} (h : fixLabels b ((label, address) :: rest) = .ok b') :
    label < b.labels.size ∧
      fixLabels { b with labels := b.labels.setIfInBounds label (.fixed address) } rest = .ok b' := by
  unfold fixLabels at h
  split at h
  next b₁ hf =>
    unfold Buffer.fix at hf
    split at hf
    next hl =>
      cases hf
      exact ⟨(Array.getElem?_eq_some_iff.mp hl).1, h⟩
    next => cases hf
  next => cases h

theorem labels_fixLabels {l} : ∀ {addresses : List (Label × Nat)} {b b' : Buffer},
    fixLabels b addresses = .ok b' → l ∉ addresses.map (·.1) → b'.labels[l]? = b.labels[l]?
  | [], _, _, h, _ => by
    cases h
    rfl
  | _ :: rest, b, b', h, hl => by
    rw [map_cons, mem_cons, not_or] at hl
    rw [labels_fixLabels (fixLabels_cons h).2 hl.2]
    exact Array.getElem?_setIfInBounds_ne (Ne.symm hl.1)

theorem fixLabels_code : ∀ {addresses : List (Label × Nat)} {b b' : Buffer},
    fixLabels b addresses = .ok b' → b'.code = b.code ∧ b'.placeholders = b.placeholders
  | [], _, _, h => by
    cases h
    exact ⟨rfl, rfl⟩
  | _ :: rest, b, b', h => by
    have hc := fixLabels_code (fixLabels_cons h).2
    exact hc

theorem finish_spec {b b' : Buffer} {finished} (h : b.finish = (b', finished)) :
    b'.labels = b.labels ∧ ∀ code, finished = .ok code → code.size = b.code.size := by
  obtain ⟨code, hr, hf | ⟨e, hf⟩⟩ := b.redrawn_self.finish <;> cases hf.symm.trans h
  · exact ⟨rfl, fun _ hc => Except.ok.inj hc ▸ hr.size⟩
  · exact ⟨rfl, fun _ hc => nomatch hc⟩

theorem mem_addresses {used pool} (h : pack used = .ok pool) {base p}
    (hp : p ∈ pool.addresses 0 base) : p.1 ∈ used.map (·.2) := by
  rw [(pack_spec h).1] at hp
  obtain ⟨s, hs, rfl⟩ := mem_map.mp hp
  have hu := (perm_slots used base).mem_iff.mp (mem_map_of_mem hs)
  exact mem_map_of_mem (f := (·.2)) hu

/-- The literals that code refers to, with their labels, in pool order. -/
def usedLiterals (m : Linear.Method) (e : Emission) : List (Literal × Label) :=
  e.pool.map fun p => (m.literals.getD p.1 default, p.2)

/-- Only labels of literals are fixed. -/
theorem labels_literals {m} {e} {pool} {buffer}
    {base} (hpo : pack (usedLiterals m e) = .ok pool)
    (hf : fixLabels e.buffer (pool.addresses 0 base) = .ok buffer) {l}
    (hl : l ∉ e.literals.map (·.2)) : buffer.labels[l]? = e.buffer.labels[l]? := by
  refine labels_fixLabels hf fun hm => hl ?_
  obtain ⟨p, hp, rfl⟩ := mem_map.mp hm
  have hu := mem_addresses hpo hp
  rw [usedLiterals, map_map] at hu
  exact ((mergeSort_perm _ _).map _).mem_iff.mp hu

theorem ofEmission_eq_ok {m a e b} (h : ofEmission m a e = .ok b) : Tables m a e b ∧
    ∃ pool buffer buffer', pack (usedLiterals m e) = .ok pool ∧
      b.scalars = pool.scalarBytes ∧ b.references = pool.references.map (·.2) ∧
      fixLabels e.buffer (pool.addresses 0 (b.ownLayout.offset .references)) = .ok buffer ∧
      { buffer with start := b.codeOffset }.finish = (buffer', .ok b.code) := by
  unfold ofEmission at h
  obtain ⟨pool, hpo, h⟩ := bind_eq_ok.mp h
  obtain ⟨buffer, hfix, h⟩ := bind_eq_ok.mp h
  generalize hf : Buffer.finish _ = result at h
  obtain ⟨buffer', finished⟩ := result
  cases finished with
  | error err => cases h
  | ok code =>
  obtain ⟨hfi, hp⟩ := fixLabels_code hfix
  obtain ⟨hla, hs⟩ := finish_spec hf
  have hla : buffer'.labels = buffer.labels := hla
  have hs : code.size = buffer.code.size := hs code rfl
  obtain ⟨code', hco, h⟩ := bind_eq_ok.mp h
  cases hco
  obtain ⟨catchTable, hc, h⟩ := bind_eq_ok.mp h
  cases h
  refine ⟨?_, pool, buffer, buffer', hpo, rfl, rfl, hfix, hf⟩
  exact {
    stopPositions := rfl
    callees := rfl
    indirectCalls := rfl
    safepoints := rfl
    frameMapBytes := rfl
    registerMapBytes := rfl
    maps := rfl
    descriptors := rfl
    code := hs.trans (congrArg Array.size hfi)
    finished := by
      refine ⟨_, buffer', ?_, ?_, hf⟩
      · exact hfi
      · exact hp
    codeOffset := by
      simp only [ownLayout, layout, Layout.offset, referenceBytes, length_map]
    inlineData := rfl
    catchTable := by
      refine ⟨buffer', fun l hl => ?_, hc⟩
      rw [hla]
      exact labels_literals hpo hfix hl }

/-- The bundle of linear code, still without a place. -/
def make (m : Linear.Method) (a : Allocation) : Except CodegenError Bundle :=
  Emission.ofMethod m a >>= ofEmission m a

/-- A bundle at its place, as the code of a method. -/
def placed (b : Bundle) (key : MethodKey) (p : Placement) : CompiledMethod :=
  ⟨key, some { b with region := p.region, start := p.start }⟩

end Bundle

/-- The image that is written when a method is installed. -/
def CompiledMethod.image (m : CompiledMethod) : Bytes := m.bundle.image m.bundle.ownLayout

namespace CodeCache

variable {s t : CodeCache} {alignment : Nat} {link : Bool} {cm : CompiledMethod}

theorem le_alignUp (n alignment : Nat) : n ≤ alignUp n alignment := by
  unfold alignUp
  split
  · exact Nat.le_refl n
  next hp =>
    have hd := Nat.div_add_mod' (n + alignment - 1) alignment
    have hm := Nat.mod_lt (n + alignment - 1) (Nat.pos_of_ne_zero hp)
    omega

/-- The region that is opened next. -/
def nextRegion (s : CodeCache) : Region where
  index := s.currentRegion + 1
  name := "runtime-" ++ toString s.currentRegion
  start := s.runtimeStart + s.currentRegion * s.regionSize
  size := s.regionSize

theorem rotate?_eq (s : CodeCache) : s.rotate? = if s.currentRegion ≥ s.regionCount then none else
    some { s.register s.nextRegion.memoryRegion with runtime := s.runtime.push s.nextRegion } := rfl

theorem register_eq (s : CodeCache) (r : MemoryRegion) :
    s.register r = { s with registered := (s.register r).registered } := by
  unfold register
  split <;> rfl

theorem rotate?_eq_some (h : s.rotate? = some t) : s.currentRegion < s.regionCount ∧
    ∃ registered, t = { s with registered, runtime := s.runtime.push s.nextRegion } := by
  rw [rotate?_eq] at h
  split at h
  next => cases h
  next hlt =>
    rw [register_eq] at h
    cases h
    exact ⟨Nat.lt_of_not_ge hlt, _, rfl⟩

/-- Bytes are placed at the next multiple of the alignment in the current region, if they fit. -/
theorem tryAllocate_eq_some {bytes p} :
    s.tryAllocate bytes alignment = some (p, t) ↔ ∃ r, s.region? s.currentRegion = some r ∧
      alignUp r.used (max alignment 1) + bytes ≤ r.size ∧
      p = ⟨s.currentRegion, r.start + alignUp r.used (max alignment 1), bytes⟩ ∧
      t = s.setRegion s.currentRegion { r with used := alignUp r.used (max alignment 1) + bytes } := by
  unfold tryAllocate
  cases hr : s.region? s.currentRegion with
  | none => simp
  | some r =>
    unfold Region.allocate?
    by_cases hf : alignUp r.used (max alignment 1) + bytes > r.size
    · have hle : ¬ alignUp r.used (max alignment 1) + bytes ≤ r.size := Nat.not_le_of_gt hf
      simp [hf, hle]
    · have hle : alignUp r.used (max alignment 1) + bytes ≤ r.size := Nat.le_of_not_gt hf
      simp [hf, hle, eq_comm]

/-- A placement is made in the current region or else in a new one. -/
theorem allocate_eq_ok {bytes p} (h : s.allocate bytes alignment = (.ok p, t)) :
    s.tryAllocate bytes alignment = some (p, t) ∨
      ∃ u, s.rotate? = some u ∧ u.tryAllocate bytes alignment = some (p, t) := by
  unfold allocate at h
  grind

theorem tryAllocate_same {bytes p} (h : s.tryAllocate bytes alignment = some (p, t)) :
    p.size = bytes ∧ t.window = s.window := by
  obtain ⟨r, -, -, rfl, rfl⟩ := tryAllocate_eq_some.mp h
  unfold setRegion
  split <;> exact ⟨rfl, rfl⟩

theorem allocate_same {bytes p} (h : s.allocate bytes alignment = (.ok p, t)) :
    p.size = bytes ∧ t.window = s.window := by
  obtain h | ⟨u, hr, h⟩ := allocate_eq_ok h
  · exact tryAllocate_same h
  · obtain ⟨-, registered, rfl⟩ := rotate?_eq_some hr
    have hw := tryAllocate_same h
    exact hw

theorem install_fits {m image} (h : (s.install m image link).1 = .ok ()) :
    image.size ≤ s.window.size := by
  unfold install at h
  split at h
  · cases h
  · split at h
    · cases h
    next offset _ =>
      split at h
      · cases h
      next window hw =>
        unfold Window.write Window.check at hw
        split at hw
        · omega
        · cases hw

theorem size_image (b : Bundle) (l : Layout) : (b.image l).size = l.size := by
  simp [Bundle.image, Bytes.size_overwrite]

theorem codeStop_le_size (b : Bundle) : b.ownLayout.offset .code + b.code.size ≤ b.ownLayout.size :=
  le_alignUp (b.ownLayout.stop .code) b.ownLayout.alignment

theorem installBundle_of_full {b e} (h : s.allocate b.ownLayout.size bundleAlignment = (.error e, t))
    (key : MethodKey) (link : Bool) : s.installBundle key b link = (.error (.cache e), t) := by
  unfold installBundle
  simp only [h]

/-- Where there is room a bundle is installed: its layout does not depend on its place. -/
theorem installBundle_of_place {b p} (h : s.allocate b.ownLayout.size bundleAlignment = (.ok p, t))
    (key : MethodKey) (link : Bool) : s.installBundle key b link =
      (((t.install (b.placed key p) (b.placed key p).image link).1.mapError .cache).map fun _ => b.placed key p,
        (t.install (b.placed key p) (b.placed key p).image link).2) := by
  have hsa : ¬ ((b.placed key p).bundle.ownLayout ≠ b.ownLayout ∨
      (b.placed key p).bundle.ownLayout.size ≠ p.size) :=
    not_or.mpr ⟨not_not_intro rfl, not_not_intro (allocate_same h).1.symm⟩
  unfold installBundle
  simp only [h]
  rw [show publish { key } { b with region := p.region, start := p.start } =
    .ok (b.placed key p) from rfl]
  simp only
  rw [if_neg hsa, show (b.placed key p).bundle.image b.ownLayout = (b.placed key p).image from rfl]
  cases t.install _ _ _ with
  | mk result u => cases result <;> rfl

/-- An installed bundle is the given one at its place, and its code fits into the window. -/
theorem installBundle_eq_ok {key b} (h : (s.installBundle key b link).1 = .ok cm) :
    (∃ region start, cm.bundle = { b with region, start }) ∧ b.code.size ≤ s.window.size := by
  have hs := codeStop_le_size b
  rcases hp : s.allocate b.ownLayout.size bundleAlignment with ⟨e | p, t⟩
  · rw [installBundle_of_full hp] at h
    cases h
  · rw [installBundle_of_place hp] at h
    cases hi : (t.install (b.placed key p) (b.placed key p).image link).1 with
    | error e =>
      rw [hi] at h
      cases h
    | ok =>
      rw [hi] at h
      cases h
      have hf := install_fits hi
      rw [image, size_image, (allocate_same hp).2] at hf
      exact ⟨⟨p.region, p.start, rfl⟩, Nat.le_trans (Nat.le_trans (Nat.le_add_left _ _) hs) hf⟩

theorem generate_of_bundle {m a b} (h : Bundle.make m a = .ok b) (s : CodeCache) (link : Bool) :
    s.generate m a link = s.installBundle m.key b link := by
  obtain ⟨e, he, hb⟩ := bind_eq_ok.mp h
  unfold generate
  rw [he]
  simp only [hb]

theorem generate_of_error {m a e} (h : Bundle.make m a = .error e) (s : CodeCache) (link : Bool) :
    s.generate m a link = (.error e, s) := by
  unfold generate
  cases he : ofMethod m a with
  | error err =>
    rw [Bundle.make, he] at h
    cases h
    rfl
  | ok e =>
    rw [Bundle.make, he] at h
    simp only [show Bundle.ofEmission m a e = _ from h]

theorem generate_eq_ok {m a} (h : (s.generate m a link).1 = .ok cm) :
    ∃ e b, ofMethod m a = .ok e ∧ Bundle.ofEmission m a e = .ok b ∧
      (s.installBundle m.key b link).1 = .ok cm := by
  unfold generate at h
  split at h
  next => cases h
  next e he =>
  split at h
  next => cases h
  next b hb => exact ⟨e, b, he, hb, h⟩

theorem generate_fits {m a} (h : (s.generate m a link).1 = .ok cm) :
    cm.bundle.code.size ≤ s.window.size := by
  obtain ⟨e, b, -, -, h⟩ := generate_eq_ok h
  obtain ⟨⟨region, start, hb⟩, hf⟩ := installBundle_eq_ok h
  rw [hb]
  exact hf

/-- A compiled method has the tables of its emission. -/
theorem generate_tables {m a} (h : (s.generate m a link).1 = .ok cm) :
    ∃ e, ofMethod m a = .ok e ∧ Bundle.Tables m a e cm.bundle := by
  obtain ⟨e, b, he, hb, h⟩ := generate_eq_ok h
  obtain ⟨⟨region, start, hbu⟩, -⟩ := installBundle_eq_ok h
  have hta := (Bundle.ofEmission_eq_ok hb).1
  rw [hbu]
  exact ⟨e, he, { hta with }⟩

end CodeCache

/-! ## Stops by their index -/

theorem take_drop_flatMap {α β : Type} {f size} (hs : ∀ x, (f x).length = size) (rest : List β) :
    ∀ {items : List α} {i : Nat} {x : α}, items[i]? = some x →
      ((items.flatMap f ++ rest).drop (i * size)).take size = f x
  | [], _, _, h => by simp at h
  | y :: items, 0, x, h => by
    cases h
    rw [Nat.zero_mul, drop_zero, flatMap_cons, append_assoc]
    exact take_left' (hs y)
  | y :: items, i + 1, x, h => by
    rw [flatMap_cons, append_assoc, Nat.succ_mul, Nat.add_comm (i * size), ← drop_drop,
      drop_left' (hs y)]
    exact take_drop_flatMap hs rest h

theorem length_flatMap_of_size {α β : Type} {f : α → List β} {size} (hs : ∀ x, (f x).length = size)
    (items : List α) : (items.flatMap f).length = items.length * size := by
  induction items with
  | nil => simp
  | cons x items ih =>
    rw [flatMap_cons, length_append, hs, ih, length_cons, Nat.succ_mul]
    omega

theorem length_bitmap (bytes : Nat) (bits : List Nat) : (bitmap bytes bits).length = bytes := by
  simp [bitmap]

theorem toList_extract_toArray (bytes : List UInt8) (i j : Nat) :
    (bytes.toArray.extract i j).toList = (bytes.drop i).take (j - i) := by
  simp

namespace Linear.Method

theorem filter_stopOrder (m : Linear.Method) {k} (hk : k ≤ 2) :
    m.stopOrder.filter (·.kind.rank = k) = m.sites.filter (·.kind.rank = k) := by
  have hs : ∀ j, (m.sites.filter (·.kind.rank = j)).filter (·.kind.rank = k) =
      if j = k then m.sites.filter (·.kind.rank = k) else [] := by
    intro j
    rw [filter_filter]
    by_cases hj : j = k
    · subst hj
      simp
    · rw [if_neg hj]
      refine filter_eq_nil_iff.mpr fun s _ => ?_
      simp only [Bool.and_eq_true, decide_eq_true_eq]
      omega
  have hc : k = 0 ∨ k = 1 ∨ k = 2 := by omega
  simp only [stopOrder, filter_append, hs]
  rcases hc with rfl | rfl | rfl <;> simp

def callCount (m : Linear.Method) : Nat :=
  (m.sites.filter (·.kind.rank = 0)).length + (m.sites.filter (·.kind.rank = 1)).length

theorem kind_eq_safepoint_iff {kind : StopKind} : kind = .safepoint ↔ kind.rank = 2 := by
  cases kind <;> simp [StopKind.rank]

theorem kind_eq_indirect_iff {kind : StopKind} : kind = .indirect ↔ kind.rank = 1 := by
  cases kind <;> simp [StopKind.rank]

theorem safepoint_at {m : Linear.Method} {s} {i} (h : m.stopOrder[i]? = some s) (hs : s.kind = .safepoint) :
    m.callCount ≤ i ∧
      (m.sites.filter (·.kind.rank = 2))[i - m.callCount]? = some s := by
  have hl : (m.sites.filter (·.kind.rank = 0) ++ m.sites.filter (·.kind.rank = 1)).length =
      m.callCount := length_append
  have hle : m.callCount ≤ i := by
    by_cases hlt : i < m.callCount
    · rw [stopOrder, getElem?_append_left (by rw [hl]; exact hlt)] at h
      have hm := mem_of_getElem? h
      simp only [mem_append, mem_filter, decide_eq_true_eq, hs, StopKind.rank] at hm
      omega
    · omega
  refine ⟨hle, ?_⟩
  rw [stopOrder, getElem?_append_right (by rw [hl]; exact hle), hl] at h
  exact h

end Linear.Method

namespace Bundle.Tables
open Linear

variable {m : Linear.Method} {a : Allocation} {e : Emission} {cm : CompiledMethod}

section
variable (he : ofMethod m a = .ok e) (ht : Tables m a e cm.bundle)
include he ht

theorem stopCount : cm.stopCount = m.stopOrder.length := by
  rw [CompiledMethod.stopCount, ht.stopPositions, length_stopPositionsOf, orderStops_sites he, length_map]

theorem stopPosition_at {i s} (hs : m.stopOrder[i]? = some s) :
    cm.stopPosition? i = some (stopPosition a m s.block s.index % nativeBit) := by
  rw [stopPosition?, ht.stopPositions, ← getElem?_map, map_stopPositionsOf, orderStops_sites he,
    getElem?_map, getElem?_map, hs]
  rfl

/-- The frame map of a stop has the slots that hold references. -/
theorem frameMap_at {i s} (hs : m.stopOrder[i]? = some s) :
    cm.frameMap? i = some (bitmap ((a.slots + 7) / 8) (liveRefs m a s.block s.index).1) := by
  have hlt : i < cm.stopCount := by
    rw [ht.stopCount he]
    exact (List.getElem?_eq_some_iff.mp hs).1
  have hst : (orderStops e.stops.toList)[i]? = some (stopOf a m s) := by
    rw [orderStops_sites he, getElem?_map, hs]
    rfl
  unfold frameMap?
  simp only
  rw [if_pos hlt, ht.frameMapBytes, ht.maps, toList_extract_toArray, Nat.succ_mul, Nat.add_sub_cancel_left,
    referenceMaps, take_drop_flatMap (fun _ => length_bitmap _ _) _ hst]
  rfl

end

theorem filter_stops (he : ofMethod m a = .ok e) (p : StopKind → Prop) [DecidablePred p] {k}
    (hp : ∀ {kind}, p kind ↔ kind.rank = k) (hk : k ≤ 2) :
    (orderStops e.stops.toList).filter (fun s => p s.kind) =
      (m.sites.filter (·.kind.rank = k)).map (stopOf a m) := by
  rw [orderStops_sites he, filter_map, ← m.filter_stopOrder hk]
  congr 1
  exact filter_congr fun s _ => decide_eq_decide.mpr hp

theorem safepoints_eq (he : ofMethod m a = .ok e) :
    (orderStops e.stops.toList).filter (·.kind = .safepoint) =
      (m.sites.filter (·.kind.rank = 2)).map (stopOf a m) :=
  filter_stops he (· = .safepoint) Linear.Method.kind_eq_safepoint_iff (Nat.le_refl 2)

theorem length_calleesOf (stops : List Stop) :
    (calleesOf stops).length = (stops.filter (·.kind.rank = 0)).length := by
  induction stops with
  | nil => rfl
  | cons stop stops ih =>
    unfold calleesOf at ih ⊢
    cases hk : stop.kind <;> simp [hk, StopKind.rank, ih]

theorem calls_eq (he : ofMethod m a = .ok e) (ht : Tables m a e cm.bundle) :
    cm.directCalls + cm.bundle.indirectCalls = m.callCount := by
  have hi := filter_stops he (· = .indirect) Linear.Method.kind_eq_indirect_iff (Nat.le_succ 1)
  rw [directCalls, ht.callees, length_calleesOf, filter_stops he (·.rank = 0) .rfl (Nat.zero_le 2),
    ht.indirectCalls, hi, length_map, length_map]
  rfl

/-- The map of registers at a safepoint has the registers that the emission recorded. -/
theorem registerMap_at (he : ofMethod m a = .ok e) (ht : Tables m a e cm.bundle) {i s}
    (hs : m.stopOrder[i]? = some s) (hk : s.kind = .safepoint) :
    cm.directCalls + cm.bundle.indirectCalls ≤ i ∧
      cm.registerMap? (i - (cm.directCalls + cm.bundle.indirectCalls)) =
        some (bitmap Convention.registerMapBytes (liveRefs m a s.block s.index).2) := by
  rw [ht.calls_eq he]
  obtain ⟨hle, hsa⟩ := Linear.Method.safepoint_at hs hk
  refine ⟨hle, ?_⟩
  have hst : ((orderStops e.stops.toList).filter (·.kind = .safepoint))[i - m.callCount]? =
      some (stopOf a m s) := by
    rw [safepoints_eq he, getElem?_map, hsa]
    rfl
  have hlt : i - m.callCount < cm.bundle.safepoints := by
    rw [ht.safepoints]
    exact (List.getElem?_eq_some_iff.mp hst).1
  have hf : ((orderStops e.stops.toList).flatMap fun s => bitmap ((a.slots + 7) / 8) s.slots).length =
      cm.stopCount * ((a.slots + 7) / 8) := by
    rw [length_flatMap_of_size fun _ => length_bitmap _ _, CompiledMethod.stopCount, ht.stopPositions,
      length_stopPositionsOf]
  have hp := take_drop_flatMap
    (fun s : Stop => length_bitmap Convention.registerMapBytes s.registers) [] hst
  rw [append_nil] at hp
  unfold registerMap?
  simp only
  rw [if_pos hlt, ht.frameMapBytes, ht.registerMapBytes, ht.maps, toList_extract_toArray, referenceMaps,
    ← drop_drop, drop_left' hf, Nat.succ_mul, ← Nat.add_assoc, Nat.add_sub_cancel_left,
    hp]
  rfl

end Bundle.Tables
end StackCompiler
