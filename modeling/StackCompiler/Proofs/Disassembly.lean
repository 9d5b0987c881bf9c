/-
Compiled methods are disassembled to themselves. A method records its traps as
data, and what it records is read back (`decode_reads_records`).
-/
import StackCompiler.Machine.InlineData
import StackCompiler.Proofs.EmittedCode
import StackCompiler.Proofs.ExceptionTable
import StackCompiler.Proofs.InstructionForms

namespace StackCompiler

open InlineRun Bytes Emission List Disassembler InlineTable CodeCache Allocation Catalog

/-! ## Tables of inline data -/

theorem InlineTag.ofCode?_code (tag : InlineTag) : ofCode? (UInt8.ofNat tag.code).toNat = some tag := by
  cases tag <;> rfl

theorem InlineTag.code_of_ofCode? {n tag} (h : ofCode? n = some tag) : tag.code = n := by
  unfold ofCode? at h
  split at h <;> cases h <;> rfl

theorem Bytes.littleEndian_ofLittleEndian : ∀ bytes : List UInt8,
    littleEndian bytes.length (ofLittleEndian bytes) = bytes
  | [] => rfl
  | b :: bytes => by
    have hlt := b.toNat_lt
    have hb : UInt8.ofNat (b.toNat + 256 * ofLittleEndian bytes) = b := by
      refine UInt8.toNat.inj ?_
      rw [UInt8.toNat_ofNat']
      omega
    have hr : (b.toNat + 256 * ofLittleEndian bytes) / 256 = ofLittleEndian bytes := by omega
    rw [length_cons, ofLittleEndian, littleEndian, hb, hr, littleEndian_ofLittleEndian bytes]

/-- Runs that can be recorded. -/
def InlineRun.Recordable (r : InlineRun) : Prop := 0 < r.size ∧ r.start + r.size < 0x100000000

theorem InlineRun.length_encode (r : InlineRun) : r.encode.length = 9 := rfl

namespace InlineTable

theorem decodeFrom_encode : ∀ {runs : List InlineRun} {offset : Nat}, (∀ r ∈ runs, r.Recordable) →
    decodeFrom offset (runs.flatMap encode) = .ok runs
  | [], offset, _ => rfl
  | r :: runs, offset, h => by
    obtain ⟨⟨hp, hst⟩, hr⟩ := forall_mem_cons.mp h
    have hs : ofLittleEndian (littleEndian 4 r.start) = r.start :=
      ofLittleEndian_four (by omega)
    have hsi : ofLittleEndian (littleEndian 4 r.size) = r.size :=
      ofLittleEndian_four (by omega)
    rw [flatMap_cons]
    simp only [encode, littleEndian, cons_append, nil_append] at hs hsi ⊢
    rw [decodeFrom, InlineTag.ofCode?_code]
    simp only [hs, hsi]
    rw [if_neg (by omega), decodeFrom_encode hr]
    rfl

theorem eq_encode_of_decodeFrom {offset} {bytes} {runs}
    (hr : decodeFrom offset bytes = .ok runs) (hl : bytes.length % 9 = 0) :
    bytes = runs.flatMap encode ∧ ∀ r ∈ runs, r.Recordable := by
  fun_induction decodeFrom offset bytes generalizing runs with
  | case1 | case2 => cases hr
  | case3 _ tag a b c d e f g h rest kind hk start size hra =>
    rename_i ih
    obtain ⟨runs, hre, rfl⟩ := map_eq_ok.mp hr
    obtain ⟨rfl, hru⟩ := ih hre (by simp only [length_cons] at hl; omega)
    have ht : UInt8.ofNat kind.code = tag := by rw [InlineTag.code_of_ofCode? hk, UInt8.ofNat_toNat]
    have hs : littleEndian 4 start = [a, b, c, d] := littleEndian_ofLittleEndian [a, b, c, d]
    have hsi : littleEndian 4 size = [e, f, g, h] := littleEndian_ofLittleEndian [e, f, g, h]
    refine ⟨?_, forall_mem_cons.mpr ⟨⟨?_, ?_⟩, hru⟩⟩
    · rw [flatMap_cons, encode, ht, hs, hsi]
      rfl
    · show 0 < size
      omega
    · show start + size < _
      omega
  | case4 bytes _ hsh =>
    cases hr
    refine ⟨?_, by simp⟩
    obtain _ | ⟨_, _ | ⟨_, _ | ⟨_, _ | ⟨_, _ | ⟨_, _ | ⟨_, _ | ⟨_, _ | ⟨_, _ | _⟩⟩⟩⟩⟩⟩⟩⟩ := bytes <;>
      simp at hl ⊢
    exact hsh _ _ _ _ _ _ _ _ _ _ rfl

theorem ofRuns_eq {runs} (h : ∀ r ∈ runs, r.Recordable) : ofRuns runs = ⟨runs⟩ := by
  rw [ofRuns, filter_eq_self.mpr fun r hr => decide_eq_true (h r hr).1]

/-- Recorded runs are read back. -/
theorem decode_encodeAll {runs} (h : ∀ r ∈ runs, r.Recordable) : decode (encodeAll runs) = .ok ⟨runs⟩ := by
  have hs : (encodeAll runs).size % 9 = 0 := by
    rw [encodeAll, size_toArray, length_flatMap_of_size length_encode, Nat.mul_mod_left]
  rw [decode, if_neg (not_not_intro hs), encodeAll, toList_toArray, decodeFrom_encode h, ← ofRuns_eq h]
  rfl

theorem at?_ofRuns {runs} (h : ∀ r ∈ runs, r.Recordable) (position : Nat) :
    (ofRuns runs).at? position = (runs.filter (·.start = position)).getLast? := by
  rw [ofRuns_eq h, at?, ← head?_filter, filter_reverse, head?_reverse]

/-- **Tables are read exactly.** Bytes are read as a table if and only if they are the records of
runs that are not empty and end in 32 bits. At a position it has the last run that starts there. -/
theorem decode_reads_records (bytes : Bytes) (table : InlineTable) :
    decode bytes = .ok table ↔ ∃ runs, (∀ r ∈ runs, 0 < r.size ∧ r.start + r.size < 0x100000000) ∧
      bytes = encodeAll runs ∧ table = ofRuns runs ∧
      ∀ position, table.at? position = (runs.filter (·.start = position)).getLast? := by
  constructor
  · intro h
    unfold decode at h
    split at h
    next => cases h
    next hl =>
      obtain ⟨runs, hre, rfl⟩ := map_eq_ok.mp h
      obtain ⟨hb, hr⟩ := eq_encode_of_decodeFrom hre (by simpa using hl)
      exact ⟨runs, hr, by rw [encodeAll, ← hb], rfl, at?_ofRuns hr⟩
  · rintro ⟨runs, hr, rfl, rfl, -⟩
    rw [decode_encodeAll hr, ofRuns_eq hr]

end InlineTable

/-! ## Traps -/

theorem append_eq_append_cons {α : Type} {xs ys before behind} {z : α}
    (h : xs ++ ys = before ++ z :: behind) :
    (∃ outer, xs = before ++ z :: outer) ∨ ∃ inner, before = xs ++ inner ∧ ys = inner ++ z :: behind := by
  rcases append_eq_append_iff.mp h with ⟨mid, rfl, hys⟩ | ⟨mid, rfl, hb⟩
  · exact .inr ⟨mid, rfl, hys⟩
  · cases mid with
    | nil => exact .inr ⟨[], by simp, hb.symm⟩
    | cons _ outer =>
      cases hb
      exact .inl ⟨outer, rfl⟩

namespace Emission
open Linear

section
variable {a : Allocation} {m : Linear.Method} {id index : Nat}

/-- A trap stands at a position, behind a call that does not return and the lines for its result. -/
def TrapAt (a : Allocation) (m : Linear.Method) (position : Nat) : Prop :=
  ∃ id b pre target args result bci rest, m.blocks[id]? = some b ∧
    b.insns = pre ++ .call target args result true bci :: rest ∧
    position = stopPosition a m id pre.length + 4 + codeSize (storeResult a result)

/-- The position of the trap that an instruction has. -/
def trapsOf (a : Allocation) (m : Linear.Method) (id index : Nat) : Insn → List Nat
  | .call _ _ result true _ => [stopPosition a m id index + 4 + codeSize (storeResult a result)]
  | _ => []

theorem trapsFrom_append : ∀ (position : Nat) (xs ys : List Line),
    trapsFrom position (xs ++ ys) = trapsFrom position xs ++ trapsFrom (position + codeSize xs) ys
  | _, [], _ => rfl
  | position, line :: xs, ys => by
    rw [cons_append, trapsFrom_cons, trapsFrom_cons position line xs, trapsFrom_append, codeSize, append_assoc,
      Nat.add_assoc]

theorem gathers_trapsFrom : Gathers trapsFrom where
  append := trapsFrom_append
  plain h position := by
    refine eq_nil_iff_forall_not_mem.mpr fun q hq => ?_
    obtain ⟨before, behind, rfl, -⟩ := mem_trapsFrom.mp hq
    cases h _ (mem_append_right _ mem_cons_self)
  block _ _ _ := rfl

theorem trapsFrom_insn {b pre i rest} (hb : m.blocks[id]? = some b) (hi : b.insns = pre ++ i :: rest)
    (ha : ∀ what, Line.refuse what ∉ insn m a id pre.length i) :
    trapsFrom (codeSize (linesBefore a m id pre.length)) (insn m a id pre.length i) = trapsOf a m id pre.length i := by
  have hp {lines} (h : Plain lines) := gathers_trapsFrom.plain h
  cases i with
  | call target args result noreturn bci =>
    obtain ⟨inside, heq, hin⟩ := insn_call a m id pre.length ha
    have hto := linesToStop_eq hb hi heq hin rfl
    rw [heq, trapsFrom_append, hp hin, nil_append]
    simp only [stopLine, trapsFrom, Line.size, trapsFrom_append, hp (plain_storeResult a result), nil_append]
    rw [← codeSize_append, ← hto]
    cases noreturn <;> rfl
  | safepoint => rfl
  | _ => exact hp (plain_insn a m id pre.length rfl) _

theorem mem_traps (ha : ∀ what, Line.refuse what ∉ lines m a) {position} :
    position ∈ trapsFrom 0 (lines m a) ↔ TrapAt a m position := by
  rw [gathers_trapsFrom.lines (trapsOf a m) trapsFrom_insn ha]
  simp only [mem_flatMap, Prod.exists, mem_zipIdx_iff_getElem?, Array.getElem?_toList]
  constructor
  · rintro ⟨b, id, hb, i, index, hi, hm⟩
    obtain ⟨pre, rest, hins, rfl⟩ := getElem?_eq_some_iff_split.mp hi
    unfold trapsOf at hm
    split at hm
    · exact ⟨id, b, pre, _, _, _, _, rest, hb, hins, mem_singleton.mp hm⟩
    · cases hm
  · rintro ⟨id, b, pre, target, args, result, bci, rest, hb, hins, rfl⟩
    exact ⟨b, id, hb, _, _, getElem?_eq_some_iff_split.mpr ⟨pre, rest, hins, rfl⟩, mem_singleton.mpr rfl⟩

end
end Emission

/-! ## Recorded data -/

theorem InlineTable.at?_traps (traps : List Nat) (q : Nat) :
    (⟨traps.map trapRun⟩ : InlineTable).at? q = if q ∈ traps then some (trapRun q) else none := by
  unfold at?
  by_cases hq : q ∈ traps
  · rw [if_pos hq]
    have hm : trapRun q ∈ (traps.map trapRun).reverse :=
      mem_reverse.mpr (mem_map_of_mem hq)
    cases hf : (traps.map trapRun).reverse.find? (·.start = q) with
    | none =>
      have hn := find?_eq_none.mp hf _ hm
      exact absurd (decide_eq_true rfl) hn
    | some r =>
      have hs : r.start = q := by simpa using find?_some hf
      obtain ⟨t, -, rfl⟩ := mem_map.mp (mem_reverse.mp (mem_of_find?_eq_some hf))
      rw [show t = q from hs]
  · rw [if_neg hq]
    refine find?_eq_none.mpr fun r hr hs => hq ?_
    obtain ⟨t, ht, rfl⟩ := mem_map.mp (mem_reverse.mp hr)
    rw [← of_decide_eq_true hs]
    exact ht

/-! ## Scanning -/

namespace Disassembler

def entryOf (d : Disassembler) (traps : List Nat) (k : Nat) (w : BitVec 32) : Entry :=
  ⟨d.start + 4 * k, ofWord w, if 4 * k ∈ traps then none else d.select? (d.decode w)⟩

variable {x : Decoding}

theorem scanOne_word {d : Disassembler} {code} {offset w}
    (hb : (code.extract offset (offset + 4)).toList = ofWord w) (hx : x ∈ d.decode w) :
    ∃ y, d.select? (d.decode w) = some y ∧
      d.scanOne code offset = .ok (some ⟨d.start + offset, ofWord w, some y⟩) := by
  obtain ⟨y, hy⟩ := Option.isSome_iff_exists.mp (d.select?_isSome hx)
  have hw : d.word (d.start + offset) (ofWord w) = .ok ⟨d.start + offset, ofWord w, some y⟩ := by
    rw [word, toWord_ofWord, hy]
  refine ⟨y, hy, ?_⟩
  unfold scanOne
  simp only [hb]
  rw [if_neg (by simp [ofWord, littleEndian]), if_neg (by simp), hw]
  rfl

section
variable {d : Disassembler} {code : Bytes} {words : List (BitVec 32)} {traps : List Nat}
  (hcode : code.toList = words.flatMap ofWord) (hsize : code.size < 0x100000000)
  (htable : d.inlineData = ⟨traps.map trapRun⟩)
  (hread : ∀ {k w}, words[k]? = some w → 4 * k ∉ traps → ∃ x, x ∈ d.decode w)
include hcode hsize htable hread

theorem scanFrom_words : ∀ {rest done : List (BitVec 32)} {fuel : Nat}, words = done ++ rest →
    rest.length ≤ fuel → d.scanFrom code fuel (4 * done.length) =
      .ok ((rest.zipIdx done.length).map fun p => d.entryOf traps p.2 p.1)
  | [], done, fuel, hwo, _ => by
    have he : code.size = 4 * done.length := by
      rw [← Array.length_toList, hcode, hwo, append_nil, length_words]
    cases fuel with
    | zero => rfl
    | succ fuel =>
      rw [scanFrom, if_pos (Nat.le_of_eq he)]
      rfl
  | w :: rest, done, 0, _, hf => by cases hf
  | w :: rest, done, fuel + 1, hwo, hf => by
    have he : code.size = 4 * done.length + 4 + 4 * rest.length := by
      rw [← Array.length_toList, hcode, hwo, length_words, length_append, length_cons]
      omega
    have hw : words[done.length]? = some w := by
      rw [hwo, getElem?_append_right (Nat.le_refl _), Nat.sub_self]
      rfl
    have hb := extract_words hcode hw
    have hn : 4 * (done ++ [w]).length = 4 * done.length + 4 := by
      rw [length_append, length_singleton, Nat.mul_add]
    have hr := @scanFrom_words rest (done ++ [w]) fuel (hwo.trans (append_cons done w rest))
      (Nat.le_of_succ_le_succ hf)
    rw [hn, length_append, length_singleton] at hr
    rw [scanFrom, if_neg (by omega), htable, at?_traps, zipIdx_cons, map_cons]
    by_cases ht : 4 * done.length ∈ traps
    · have hs : min (trapRun (4 * done.length)).stop code.size = 4 * done.length + 4 := by
        show min (min (4 * done.length + 4) 0xFFFFFFFF) code.size = _
        omega
      have hm : max (4 * done.length + 4) (4 * done.length + 1) = 4 * done.length + 4 := by omega
      have hta : (trapRun (4 * done.length)).tag = .bytes := rfl
      simp only [if_pos ht, hs, hm, hr, hb]
      rw [if_neg (not_not_intro hta), entryOf, if_pos ht]
      rfl
    · obtain ⟨x, hx⟩ := hread hw ht
      obtain ⟨y, hy, ho⟩ := scanOne_word hb hx
      simp only [if_neg ht, ho, length_ofWord, hr]
      rw [entryOf, if_neg ht, hy]
      rfl

/-- A scan goes word by word: traps are data, other words are instructions. -/
theorem scan_words : d.scan code = .ok (words.zipIdx.map fun p => d.entryOf traps p.2 p.1) := by
  have hl : words.length ≤ code.size := by
    rw [← Array.length_toList, hcode, length_words]
    omega
  exact scanFrom_words hcode hsize htable hread (nil_append words).symm hl

end
end Disassembler

/-! ## Compiled methods -/

theorem CodeCache.generate_words {cache : CodeCache} (hca : cache.window.size ≤ callReach) {cm}
    {m a link} (h : (cache.generate m a link).1 = .ok cm) :
    ∃ words, Coded (lines m a) words ∧ cm.bundle.code.toList = words.flatMap ofWord ∧
      cm.bundle.code.size < 0x100000000 ∧ decode cm.bundle.inlineData =
        .ok ⟨(trapsFrom 0 (lines m a)).map trapRun⟩ := by
  obtain ⟨e, he, ht⟩ := generate_tables h
  obtain ⟨⟨words, hc, hcode⟩, hd⟩ := ht.coded he
  have hs : cm.bundle.code.size < 0x100000000 := by
    have hf := generate_fits h
    simp only [callReach] at hca
    omega
  refine ⟨words, hc, hcode, hs, ?_⟩
  rw [hd]
  refine decode_encodeAll fun r hr => ?_
  obtain ⟨t, ht, rfl⟩ := mem_map.mp hr
  obtain ⟨before, behind, hl, rfl⟩ := mem_trapsFrom.mp ht
  have hen := hc.size
  rw [← length_words, ← hcode, Array.length_toList, hl, codeSize_append,
    codeSize] at hen
  simp only [Recordable, trapRun, trapSize, Emission.Line.size] at hen ⊢
  omega

/-- **Compiled methods are disassembled to themselves.** The recorded data of a compiled method can
be read, and with it the code is scanned without an error, whatever is preferred or falls back.
There is an entry for each word, in order; those reported as data are the traps behind calls that do
not return; every other entry has a template that assembles its operands to the word. -/
theorem compiled_code_reads_back {cache : CodeCache} (hcache : cache.window.size ≤ callReach)
    {m : Linear.Method} {a : Allocation} {link : Bool} {cm : CompiledMethod}
    (h : (cache.generate m a link).1 = .ok cm) :
    ∃ table, decode cm.bundle.inlineData = .ok table ∧
      ∀ d : Disassembler, d.catalog = aarch64 → d.expected = none → d.inlineData = table →
        ∃ entries, d.scan cm.bundle.code = .ok entries ∧ 4 * entries.length = cm.bundle.code.size ∧
          ∀ k entry, entries[k]? = some entry →
            entry.position = d.start + 4 * k ∧
            entry.bytes = (cm.bundle.code.extract (4 * k) (4 * k + 4)).toList ∧ entry.bytes.length = 4 ∧
            (entry.decoding = none ↔ Emission.TrapAt a m (4 * k)) ∧
            ∀ x, entry.decoding = some x → x.template ∈ aarch64.templates ∧
              d.skips x.template = false ∧ x.template.assemble x.operands = .ok (toWord entry.bytes) := by
  obtain ⟨words, hco, hcode, hsm, hd⟩ := generate_words hcache h
  obtain ⟨e, he, -⟩ := generate_tables h
  have htr : ∀ {position}, position ∈ trapsFrom 0 (lines m a) ↔ Emission.TrapAt a m position :=
    mem_traps (added_of_addAll he).allowed
  refine ⟨_, hd, ?_⟩
  intro d hc hexp htable
  have hread : ∀ {k w}, words[k]? = some w → 4 * k ∉ trapsFrom 0 (lines m a) →
      ∃ x, x ∈ d.decode w := by
    intro k w hw ht
    rw [← Nat.zero_add (4 * k)] at ht
    obtain ⟨o, operands, ha⟩ := hco.insn_of_not_trap hw ht
    exact exists_mem_decode hc hexp ha
  refine ⟨_, scan_words hcode hsm htable hread, ?_, ?_⟩
  · rw [length_map, length_zipIdx, ← length_words, ← hcode, Array.length_toList]
  · intro k entry hen
    rw [getElem?_map, getElem?_zipIdx, Nat.zero_add] at hen
    obtain ⟨p, hp, rfl⟩ := Option.map_eq_some_iff.mp hen
    obtain ⟨w, hw, rfl⟩ := Option.map_eq_some_iff.mp hp
    refine ⟨rfl, (extract_words hcode hw).symm, rfl, ?_, ?_⟩
    · rw [← htr]
      simp only [entryOf, ite_eq_left_iff]
      constructor
      · intro hn
        refine Decidable.byContradiction fun ht => ?_
        obtain ⟨x, hx⟩ := hread hw ht
        have hs := d.select?_isSome hx
        rw [hn ht] at hs
        cases hs
      · exact fun ht hno => absurd ht hno
    · intro x hx
      simp only [entryOf] at hx ⊢
      split at hx
      next => cases hx
      next =>
        rw [toWord_ofWord]
        exact (mem_decode aarch64_eq sound_aarch64 hc).mp
          (mem_of_select? hx)

/-- The code of `guarded` has 17 words, and the one behind its first call of `throwException` is data. -/
theorem compiled_code_reads_back_guarded : ∃ cache cm table, create ⟨2048, 1, 2048⟩ = .ok cache ∧
    (cache.generate guardedCode (ofCode guardedCode) false).1 = .ok cm ∧
    decode cm.bundle.inlineData = .ok table ∧ ∀ preference, ∃ entries,
      ({ preference, bytesForInvalid := false, inlineData := table } : Disassembler).scan cm.bundle.code =
        .ok entries ∧ entries.length = 17 ∧ ∃ entry, entries[7]? = some entry ∧ entry.decoding = none := by
  have hr : (create ⟨2048, 1, 2048⟩).toOption.map (fun cache =>
      (cache.generate guardedCode (ofCode guardedCode) false).1.toOption.map
        fun cm => cm.bundle.code.size) = some (some 68) := by cbv
  obtain ⟨cache, hc, hr⟩ := exists_ok_of_map hr
  obtain ⟨cm, h, hsize⟩ := exists_ok_of_map hr
  obtain ⟨table, htable, hs⟩ := compiled_code_reads_back (create_reach hc) h
  refine ⟨cache, cm, table, hc, h, htable, fun preference => ?_⟩
  obtain ⟨entries, he, hl, hen⟩ := hs { preference, bytesForInvalid := false, inlineData := table }
    rfl rfl rfl
  have ht : Emission.TrapAt (ofCode guardedCode) guardedCode (4 * 7) := by
    have hst : stopPosition (ofCode guardedCode) guardedCode 2 0 = 24 := by cbv
    refine ⟨2, _, [], _, _, _, _, _, rfl, rfl, ?_⟩
    rw [length_nil, hst]
    rfl
  have hlt : 7 < entries.length := by omega
  refine ⟨entries, he, by omega, entries[7], getElem?_eq_getElem hlt, ?_⟩
  exact (hen 7 _ (getElem?_eq_getElem hlt)).2.2.2.1.mpr ht

end StackCompiler
