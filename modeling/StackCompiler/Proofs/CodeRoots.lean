/-
Roots in installed code are the cells of reference literals, and a load of such a
literal leads into one of them.
-/
import StackCompiler.Collector.Roots
import StackCompiler.Proofs.ExactConstants
import StackCompiler.Proofs.MarkingRuns

namespace StackCompiler

open Emission List Marking Bytes Convention

/-! ## Cells of a bundle -/

theorem getElem?_flatMap_of_size {α β : Type} {f : α → List β} {size} (hsi : ∀ x, (f x).length = size)
    {xs : List α} {i j} {x} {y} (hx : xs[i]? = some x) (hy : (f x)[j]? = some y) :
    (xs.flatMap f)[i * size + j]? = some y := by
  have hj : j < size := hsi x ▸ (List.getElem?_eq_some_iff.mp hy).1
  have ht := take_drop_flatMap hsi [] hx
  rw [append_nil] at ht
  rwa [← ht, getElem?_take_of_lt hj, getElem?_drop] at hy

/-- The references of a bundle have their cells one behind the other. -/
theorem Bundle.holds_reference {b : Bundle} {i r} (h : b.references[i]? = some r) :
    b.Holds (.reference r) (b.ownLayout.offset .references + i * referenceSize) := by
  have hi := (List.getElem?_eq_some_iff.mp h).1
  refine ⟨Nat.le_add_right _ _, ?_, ?_, fun j byte hb => ?_⟩
  · show _ + 8 ≤ b.ownLayout.offset .references + b.references.length * 8
    show b.ownLayout.offset .references + i * 8 + 8 ≤ _
    omega
  · have hba : 8 ∣ b.ownLayout.offset .references := CodeCache.dvd_alignUp (by decide)
    exact Nat.dvd_add hba (Nat.dvd_mul_left 8 i)
  · rw [Nat.add_assoc]
    exact getElem?_image_references (getElem?_flatMap_of_size (fun _ => length_littleEndian _ _) h hb)

namespace CodeCache

theorem length_rootsOf (m : CompiledMethod) : (rootsOf m).length = m.bundle.references.length := by
  rw [rootsOf, length_map, length_range]

variable {m : CompiledMethod}

theorem mem_rootsOf_of_holds {r place} (h : m.bundle.Holds (.reference r) place) : m.start + place ∈ rootsOf m := by
  have hb : 8 ∣ m.bundle.ownLayout.offset .references := dvd_alignUp (by decide)
  have hp : 8 ∣ place := h.aligned
  have hs : m.bundle.ownLayout.offset .references ≤ place := h.start
  have hst : place + 8 ≤ m.bundle.ownLayout.offset .references + m.bundle.references.length * 8 := h.stop
  obtain ⟨i, hi⟩ := Nat.dvd_sub hp hb
  refine mem_map.mpr ⟨i, mem_range.mpr (by omega), ?_⟩
  show m.start + m.bundle.ownLayout.offset .references + i * 8 = _
  omega

theorem nodup_rootsOf (m : CompiledMethod) : (rootsOf m).Nodup := by
  refine nodup_range.map fun i j hij => ?_
  exact Nat.eq_of_mul_eq_mul_right (by decide) (Nat.add_left_cancel hij)

theorem covers_of_mem_rootsOf {cell} (h : cell ∈ rootsOf m) : m.Covers cell := by
  obtain ⟨i, hi, rfl⟩ := mem_map.mp h
  have hs : m.bundle.ownLayout.offset .references + i * referenceSize + 8 ≤
      m.bundle.ownLayout.stop .references :=
    (Bundle.holds_reference (getElem?_eq_getElem (mem_range.mp hi))).stop
  obtain ⟨-, hc, hsi⟩ := m.bundle.offsets_le
  unfold CompiledMethod.Covers
  rw [CompiledMethod.size_image]
  omega

variable {c : CacheConfig} {s t : CodeCache}

/-- No two cells coincide. -/
theorem Spread.nodup_roots (hs : s.Spread c) : s.roots.Nodup := by
  refine nodup_flatMap.mpr ⟨fun m _ => nodup_rootsOf m, hs.apart.imp fun h cell hm hn => ?_⟩
  exact h cell (covers_of_mem_rootsOf hm) (covers_of_mem_rootsOf hn)

theorem Kept.readCode_literal (ht : t.Kept c) (hm : m ∈ t.installed) {l place} (h : m.bundle.Holds l place) :
    t.readCode (m.start + place) l.width = .ok l.bytes.toArray := by
  obtain ⟨hf, hb⟩ := ht.literal hm h
  have hw := l.width_cases
  rw [← l.length_bytes] at hf hw ⊢
  exact readCode_eq hf (by omega) hb

end CodeCache

/-! ## Where installed methods come from -/

namespace CodeCache
variable {c : CacheConfig} {s t : CodeCache}

theorem Kept.installed_generate (hs : s.Kept c) (m : Linear.Method) (a : Allocation) (link : Bool) {cm}
    (h : cm ∈ (s.generate m a link).2.installed) : cm ∈ s.installed ∨ cm.MadeFrom m a := by
  rcases ha : s.accept m a with ⟨e | new, t⟩
  · rw [generate_of_refused ha, (accept_refused hs.regular ha).1.installed] at h
    exact .inl h
  · rw [generate_eq_settle hs.regular ha, (hs.settle (accept_entered hs.regular ha) link).2] at h
    rcases mem_append.mp h with h | h
    · exact .inl h
    · exact .inr (mem_singleton.mp h ▸ accept_madeFrom ha)

theorem Later.madeFrom (h : Later s t) (hs : s.Kept c) (hn : s.installed = []) :
    ∀ cm ∈ t.installed, ∃ m a, cm.MadeFrom m a := by
  induction h with
  | refl =>
    rw [hn]
    exact fun cm hcm => absurd hcm not_mem_nil
  | generate hl m a link ih =>
    intro cm hcm
    rcases (hl.kept hs).1.installed_generate m a link hcm with hcm | hm
    · exact ih cm hcm
    · exact ⟨m, a, hm⟩
  | linkAll hl ih =>
    rw [(hl.kept hs).1.linkAll.2]
    exact ih

end CodeCache

/-! ## Scans -/

namespace Marking
variable {s t : MarkingStack}

theorem pushAll_run : ∀ {fuel : Nat} {cells : List Cell} {s : MarkingStack}, Ends (pushAll fuel cells) s (.ok ()) t →
    Run s (cells.map fun cell => (.push cell, .done)) t
  | 0, _, _, h => absurd h not_ends_outOfFuel
  | _ + 1, [], _, h => by
    obtain ⟨-, rfl⟩ := ends_pure.mp h
    exact .nil t
  | fuel + 1, cell :: rest, s, h => by
    obtain ⟨_, u, hf, hr⟩ := ends_bind_eq_ok.mp h
    have ha : Ends (answer (fuel + 1) (.push cell)) s (.ok .done) u := ends_reply.mpr ⟨_, hf, rfl⟩
    exact .cons ha (pushAll_run hr)

theorem exists_pushAll_of_run : ∀ {cells : List Cell} {s : MarkingStack},
    Run s (cells.map fun cell => (.push cell, .done)) t → ∃ fuel, Ends (pushAll fuel cells) s (.ok ()) t
  | [], _, h => by
    cases h
    exact ⟨1, ends_pure.mpr ⟨rfl, rfl⟩⟩
  | cell :: rest, s, h => by
    cases h with
    | @cons fuel _ _ _ u _ _ hf hre =>
      obtain ⟨n, hp⟩ : ∃ n, Ends (push n cell) s (.ok ()) u := by
        cases fuel with
        | zero => exact absurd hf not_ends_outOfFuel
        | succ n =>
          obtain ⟨r, hp, hr⟩ := ends_reply.mp hf
          cases r with
          | ok => exact ⟨n, hp⟩
          | error => cases hr
      obtain ⟨n', hpu⟩ := exists_pushAll_of_run hre
      refine ⟨max n n' + 1, ends_bind_eq_ok.mpr ⟨(), u, ?_, ?_⟩⟩
      · exact within_of_le (fun fuel => (within_succ fuel).1 cell) (Nat.le_max_left n n') _ _ _ hp
      · exact within_of_le (fun fuel => (within_succ fuel).2.1 rest) (Nat.le_max_right n n') _ _ _ hpu

end Marking

namespace CodeCache

/-- A scan is one push for each root. -/
theorem scanRoots_ends {t : CodeCache} {n stack stack'} :
    (∃ fuel, Marking.Ends (t.scanRoots fuel) stack (.ok n) stack') ↔
      n = t.roots.length ∧ Marking.Run stack (t.roots.map fun cell => (.push cell, .done)) stack' := by
  constructor
  · rintro ⟨fuel, h⟩
    obtain ⟨_, u, hp, hr⟩ := ends_bind_eq_ok.mp h
    obtain ⟨hn, rfl⟩ := ends_pure.mp hr
    exact ⟨Except.ok.inj hn, pushAll_run hp⟩
  · rintro ⟨rfl, hru⟩
    obtain ⟨fuel, hp⟩ := exists_pushAll_of_run hru
    exact ⟨fuel, ends_bind_eq_ok.mpr ⟨(), stack', hp, ends_pure.mpr ⟨rfl, rfl⟩⟩⟩

/-- **The scan of roots in code is complete and exact**, however methods have been compiled and
linked. It succeeds if all its pushes do, and pushes the cells of the reference literals, method by
method, and nothing else. No two cells coincide, and each holds the handle of its literal. All that
is installed is the code of some method, where each load of a reference literal reads a cell with
the reference. -/
theorem code_roots_are_exact {c : CacheConfig} {host : Host} {new t : CodeCache} (hcreate : create c host = .ok new)
    (hlater : new.Later t) :
    (∀ stack n stack', (∃ fuel, Marking.Ends (t.scanRoots fuel) stack (.ok n) stack') ↔
      n = (t.installed.flatMap rootsOf).length ∧
        Marking.Run stack ((t.installed.flatMap rootsOf).map fun cell => (.push cell, .done)) stack') ∧
    (t.installed.flatMap rootsOf).Nodup ∧
    ∀ cm ∈ t.installed,
      List.Forall₂ (fun cell r => t.readCode cell 8 = .ok (littleEndian 8 r.handle.toNat).toArray) (rootsOf cm)
        cm.bundle.references ∧
      (∃ m a, cm.MadeFrom m a) ∧
      ∀ m a, cm.MadeFrom m a → ∀ id b pre dst k rest r, m.blocks[id]? = some b →
        b.insns = pre ++ .literal dst k :: rest → m.literals[k]? = some (.reference r) →
        ∃ word distance, ∃ cell ∈ rootsOf cm,
          t.readCode (cm.codeStart + codeSize (linesBefore a m id pre.length)) 4 = .ok (ofWord word).toArray ∧
          Processor.decoder.decode word =
            [⟨Opcode.ldrLiteral.template, [.reg (Emission.dest a dst scratch), .rel distance]⟩] ∧
          ((cm.codeStart + codeSize (linesBefore a m id pre.length) : Nat) : Int) + distance =
            (cell : Nat) ∧
          t.readCode cell 8 = .ok (littleEndian 8 r.handle.toNat).toArray := by
  have hk := (hlater.kept (.create hcreate)).1
  refine ⟨fun stack n stack' => scanRoots_ends, hk.nodup_roots, fun cm hcm => ⟨?_, ?_, ?_⟩⟩
  · refine forall₂_iff_get.mpr ⟨length_rootsOf cm, fun i hi hr => ?_⟩
    have hre := hk.readCode_literal hcm (Bundle.holds_reference (getElem?_eq_getElem hr))
    rw [get_eq_getElem, get_eq_getElem]
    simp only [rootsOf, getElem_map, getElem_range, Nat.add_assoc]
    exact hre
  · exact hlater.madeFrom (.create hcreate) (create_eq_ok hcreate).2.1 cm hcm
  · intro m a hm id b pre dst k rest r hb hin hr
    obtain ⟨words, slot, hs⟩ := hm.stocked
    obtain ⟨hh, word, distance, hw, hde, hd⟩ := hk.load_decodes hcm hs hb hin hr
    exact ⟨word, distance, _, mem_rootsOf_of_holds hh, hw, hde, hd, hk.readCode_literal hcm hh⟩

/-- The cache after `loading` was compiled twice and linked. -/
def loadedTwice (cache : CodeCache) : CodeCache :=
  let first := (cache.generate loadingCode (.ofCode loadingCode) true).2
  (first.generate loadingCode (.ofCode loadingCode) false).2.linkAll.2

theorem roots_loadedTwice : ∃ cache cm, create ⟨2048, 1, 2048⟩ = .ok cache ∧
    (cache.generate loadingCode (.ofCode loadingCode) true).1 = .ok cm ∧
    cache.loadedTwice.installed.flatMap rootsOf = [16, 88] ∧
    ∀ m ∈ cache.loadedTwice.installed, m.bundle.references = [⟨0⟩] := by
  have h : (create ⟨2048, 1, 2048⟩).toOption.map (fun cache =>
      ((cache.generate loadingCode (Allocation.ofCode loadingCode) true).1.isOk, cache.loadedTwice.roots,
        cache.loadedTwice.installed.map (·.bundle.references))) = some (true, [16, 88], [[⟨0⟩], [⟨0⟩]]) := by cbv
  obtain ⟨cache, hc, h⟩ := exists_ok_of_map h
  obtain ⟨hok, h⟩ := Prod.mk.inj h
  obtain ⟨hro, hr⟩ := Prod.mk.inj h
  obtain ⟨cm, hcm⟩ := exists_ok_of_isOk hok
  refine ⟨cache, cm, hc, hcm, hro, fun m hm => ?_⟩
  have hme := mem_map_of_mem (f := (·.bundle.references)) hm
  rw [hr] at hme
  simpa using hme

/-- A scan finds the cells of both versions of `loading`, and a load of the older one reads one of them. -/
theorem loadedTwice_roots_are_exact : ∃ cache cm stack stack', create ⟨2048, 1, 2048⟩ = .ok cache ∧
    cache.Later cache.loadedTwice ∧ cm ∈ cache.loadedTwice.installed ∧ MarkingStack.create 4 50 = .ok stack ∧
    (∃ fuel, Marking.Ends (cache.loadedTwice.scanRoots fuel) stack (.ok 2) stack') ∧ stack'.cells = [88, 16] ∧
    (∀ cell ∈ [16, 88], cache.loadedTwice.readCode cell 8 = .ok (littleEndian 8 0).toArray) ∧
    ∃ word distance, ∃ cell ∈ [16, 88],
      cache.loadedTwice.readCode (cm.addressOf loadingCode 0 2) 4 = .ok (ofWord word).toArray ∧
      Processor.decoder.decode word =
        [⟨Opcode.ldrLiteral.template, [.reg (loadingCode.target 2), .rel distance]⟩] ∧
      (cm.addressOf loadingCode 0 2 : Int) + distance = (cell : Nat) := by
  obtain ⟨cache, cm, hca, hcm, hro, hr⟩ := roots_loadedTwice
  have hg := (Kept.create hca).generated hcm
  have hres : (cache.generate loadingCode (.ofCode loadingCode) true).2.Later cache.loadedTwice :=
    .linkAll (.generate .refl loadingCode (.ofCode loadingCode) false)
  have hl : cache.Later cache.loadedTwice :=
    .linkAll (.generate (.generate .refl loadingCode (.ofCode loadingCode) true) _ _ _)
  have hme := (hres.kept (CodeCache.Kept.generate (.create hca) _ _ _).1).2 hg.1
  obtain ⟨hs, -, hce⟩ := code_roots_are_exact hca hl
  let stack (cells : List Cell) : MarkingStack := { capacity := 4, threshold := 2, cells }
  have hf : Marking.Ends (answer 2 (.push 16)) (stack []) (.ok .done) (stack [16]) := rfl
  have hse : Marking.Ends (answer 2 (.push 88)) (stack [16]) (.ok .done) (stack [88, 16]) := rfl
  have hs := (hs (stack []) 2 (stack [88, 16])).mpr (by
    rw [hro]
    exact ⟨rfl, .cons hf (.cons hse (.nil _))⟩)
  refine ⟨cache, cm, stack [], stack [88, 16], hca, hl, hme, rfl, hs, rfl, ?_, ?_⟩
  · intro cell hc
    rw [← hro] at hc
    obtain ⟨m, hm, hc⟩ := mem_flatMap.mp hc
    have hre := (hce m hm).1
    rw [hr m hm, forall₂_cons_right_iff] at hre
    obtain ⟨cell', none, hre, hn, hce⟩ := hre
    rw [hce, forall₂_nil_right_iff.mp hn] at hc
    rwa [mem_singleton.mp hc]
  · obtain ⟨word, distance, cell, hc, hw, hde, hd, -⟩ := (hce cm hme).2.2 loadingCode
      (.ofCode loadingCode) hg.2 0 loadingBlock [.literal 0 0, .literal 1 1] 2 2 _ ⟨0⟩ rfl rfl rfl
    exact ⟨word, distance, cell, hro ▸ mem_flatMap.mpr ⟨cm, hme, hc⟩, hw, hde, hd⟩

end CodeCache
end StackCompiler
