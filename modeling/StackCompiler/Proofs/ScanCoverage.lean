/-
A scan covers the code. Whatever runs of data are recorded, the entries of a
scan follow each other without a gap (`Covering`), and each step goes on behind
the bytes that it reports. What a scan can end with is `Scanned`.
-/
import StackCompiler.Proofs.Disassembly

namespace StackCompiler

open List

/-- Entries of one to four bytes that make up `bytes`, each at its place from `start` on. -/
structure Covering (start : Nat) (entries : List Entry) (bytes : List UInt8) : Prop where
  sizes : ∀ e ∈ entries, 1 ≤ e.bytes.length ∧ e.bytes.length ≤ 4
  bytes : entries.flatMap (·.bytes) = bytes
  positions : ∀ {before e behind}, entries = before ++ e :: behind →
    e.position = start + (before.flatMap (·.bytes)).length

theorem Covering.nil (start : Nat) : Covering start [] [] := by
  refine ⟨by simp, rfl, fun h => ?_⟩
  simp at h

theorem Covering.single {start bytes decoding} (hp : 1 ≤ bytes.length) (hle : bytes.length ≤ 4) :
    Covering start [⟨start, bytes, decoding⟩] bytes := by
  refine ⟨by simp [hp, hle], by simp, fun {before e behind} h => ?_⟩
  cases before with
  | nil =>
    cases h
    rfl
  | cons => simp at h

theorem Covering.append {start front rest bytes bytes'} (h : Covering start front bytes)
    (h' : Covering (start + bytes.length) rest bytes') : Covering start (front ++ rest) (bytes ++ bytes') where
  sizes e he := (mem_append.mp he).elim (h.sizes e) (h'.sizes e)
  bytes := by rw [flatMap_append, h.bytes, h'.bytes]
  positions := by
    intro before e behind heq
    rcases append_eq_append_cons heq with ⟨outer, hf⟩ | ⟨inner, rfl, hr⟩
    · exact h.positions hf
    · rw [h'.positions hr, flatMap_append, length_append, h.bytes, Nat.add_assoc]

namespace Disassembler

theorem covering_dataEntries (position : Nat) (bytes : List UInt8) :
    Covering position (dataEntries position bytes) bytes := by
  fun_induction dataEntries position bytes with
  | case1 position => exact .nil position
  | case2 position a b c e rest ih =>
    have hf : Covering position [⟨position, [a, b, c, e], none⟩] [a, b, c, e] := .single (by simp) (by simp)
    exact hf.append ih
  | case3 position few hne hfe =>
    refine .single ?_ ?_
    · cases few with
      | nil => exact absurd rfl hne
      | cons => simp
    · rcases few with _ | ⟨a, _ | ⟨b, _ | ⟨c, _ | ⟨e, rest⟩⟩⟩⟩
      · simp
      · simp
      · simp
      · simp
      · exact absurd rfl (hfe a b c e rest)

/-- Without the fallback, a scan may fail at a word that has no decoding, and leaves a part at the
end that is shorter than a word. -/
def Scanned (d : Disassembler) (position : Nat) (bytes : List UInt8) : Except DisassemblyError (List Entry) → Prop
  | .ok entries => ∃ covered rest, bytes = covered ++ rest ∧ Covering position entries covered ∧ rest.length ≤ 3 ∧
      (d.bytesForInvalid = true → rest = [])
  | .error e => d.bytesForInvalid = false ∧ ∃ position hex, e = .noMatch position hex

theorem Scanned.after {d : Disassembler} {position front bytes tail result} (hf : Covering position front bytes)
    (h : d.Scanned (position + bytes.length) tail result) :
    d.Scanned position (bytes ++ tail) (result.map (front ++ ·)) := by
  cases result with
  | error e => exact h
  | ok entries =>
    obtain ⟨covered, rest, rfl, he, hr⟩ := h
    exact ⟨bytes ++ covered, rest, (append_assoc _ _ _).symm, hf.append he, hr⟩

theorem scanOne_spec (d : Disassembler) {code} {offset} (hlt : offset < code.size) :
    (∃ decoding, d.scanOne code offset =
      .ok (some ⟨d.start + offset, (code.extract offset (offset + 4)).toList, decoding⟩)) ∨
    d.bytesForInvalid = false ∧ (code.size - offset ≤ 3 ∧ d.scanOne code offset = .ok none ∨
      ∃ position hex, d.scanOne code offset = .error (.noMatch position hex)) := by
  have hl : (code.extract offset (offset + 4)).toList.length = min 4 (code.size - offset) := by simp
  unfold scanOne
  simp only
  rw [if_neg (by rw [isEmpty_iff_length_eq_zero]; omega)]
  cases hb : d.bytesForInvalid with
  | true =>
    left
    split
    · exact ⟨none, rfl⟩
    · unfold word
      split
      · exact ⟨_, rfl⟩
      · exact ⟨none, by rw [if_pos hb]; rfl⟩
  | false =>
    split
    · exact .inr ⟨rfl, .inl ⟨by omega, rfl⟩⟩
    · unfold word
      split
      · exact .inl ⟨_, rfl⟩
      · exact .inr ⟨rfl, .inr ⟨_, _, by rw [hb]; rfl⟩⟩

theorem Scanned.over {d : Disassembler} {code : Bytes} {offset front bytes result}
    (hb : bytes <+: code.toList.drop offset) (hf : Covering (d.start + offset) front bytes)
    (h : d.Scanned (d.start + (offset + bytes.length)) (code.toList.drop (offset + bytes.length)) result) :
    d.Scanned (d.start + offset) (code.toList.drop offset) (result.map (front ++ ·)) := by
  obtain ⟨tail, ht⟩ := hb
  rw [← drop_drop, ← ht, drop_left, ← Nat.add_assoc] at h
  rw [← ht]
  exact .after hf h

theorem extract_prefix_drop (code : Bytes) (offset stop : Nat) :
    (code.extract offset stop).toList <+: code.toList.drop offset := by
  rw [Array.toList_extract, extract_eq_take_drop]
  exact take_prefix _ _

theorem scanned_scanFrom {code : Bytes} (hs : code.size < 0x100000000) {d : Disassembler}
    (hr : ∀ r ∈ d.inlineData.runs, 0 < r.size ∧ r.tag = .bytes) : ∀ {fuel offset : Nat},
    offset ≤ code.size → code.size ≤ offset + fuel →
    d.Scanned (d.start + offset) (code.toList.drop offset) (d.scanFrom code fuel offset)
  | 0, offset, _, hf => by
    rw [drop_eq_nil_of_le (by simpa using hf)]
    exact ⟨[], [], rfl, .nil _, by simp, fun _ => rfl⟩
  | fuel + 1, offset, hle, hf => by
    unfold scanFrom
    by_cases he : offset ≥ code.size
    · rw [if_pos he, drop_eq_nil_of_le (by simpa using he)]
      exact ⟨[], [], rfl, .nil _, by simp, fun _ => rfl⟩
    · rw [if_neg he]
      cases hru : d.inlineData.at? offset with
      | some run =>
        obtain ⟨hp, ht⟩ := hr run (mem_reverse.mp (mem_of_find?_eq_some hru))
        have hsta : run.start = offset := by simpa using find?_some hru
        -- a run is not empty, and it starts below the greatest 32-bit number
        have hst : offset + 1 ≤ min run.stop code.size := by
          simp only [InlineRun.stop]
          omega
        simp only [ht, ne_eq, not_true_eq_false, ite_false, Nat.max_eq_left hst]
        have hw : min run.stop code.size ≤ code.size := Nat.min_le_right _ _
        generalize min run.stop code.size = stop at hst hw
        have hl : offset + (code.extract offset stop).toList.length = stop := by simp; omega
        refine .over (extract_prefix_drop code offset stop) (covering_dataEntries _ _) ?_
        rw [hl]
        exact scanned_scanFrom hs hr hw (by omega)
      | none =>
        rcases d.scanOne_spec (Nat.lt_of_not_le he) with ⟨decoding, ho⟩ | ⟨hb, ⟨hla, ho⟩ | ⟨p, hex, ho⟩⟩
        · have hl : (code.extract offset (offset + 4)).toList.length = min 4 (code.size - offset) := by simp
          simp only [ho]
          refine .over (extract_prefix_drop code offset (offset + 4)) (.single (by omega) (by omega)) ?_
          exact scanned_scanFrom hs hr (by omega) (by omega)
        · simp only [ho]
          exact ⟨[], _, rfl, .nil _, by simpa using hla, fun h => by rw [hb] at h; cases h⟩
        · simp only [ho]
          exact ⟨hb, p, hex, rfl⟩

/-- **A scan covers every byte once.** Let the code be shorter than `2^32` bytes, and let any runs
of bytes be recorded, wherever they are. With the fallback to bytes the scan succeeds and its
entries make up the code. Without it the scan fails at a word that no template accepts, or it covers
all but at most three bytes at the end. -/
theorem scan_covers_once {code : Bytes} (hsize : code.size < 0x100000000) {runs : List InlineRun}
    (hruns : ∀ r ∈ runs, r.tag = .bytes) {d : Disassembler} (hd : d.inlineData = InlineTable.ofRuns runs) :
    (d.bytesForInvalid = true → ∃ entries, d.scan code = .ok entries ∧ Covering d.start entries code.toList) ∧
    (d.bytesForInvalid = false → (∃ position hex, d.scan code = .error (.noMatch position hex)) ∨
      ∃ entries covered rest, d.scan code = .ok entries ∧ code.toList = covered ++ rest ∧ rest.length ≤ 3 ∧
        Covering d.start entries covered) := by
  have hk : ∀ r ∈ d.inlineData.runs, 0 < r.size ∧ r.tag = .bytes := by
    intro r hr
    rw [hd] at hr
    obtain ⟨hr, hp⟩ := mem_filter.mp hr
    exact ⟨of_decide_eq_true hp, hruns r hr⟩
  have hs := scanned_scanFrom hsize hk (Nat.zero_le _) (Nat.le_of_eq (Nat.zero_add code.size).symm)
  rw [Nat.add_zero, drop_zero] at hs
  cases hre : d.scan code with
  | error e =>
    rw [show d.scanFrom code code.size 0 = .error e from hre] at hs
    obtain ⟨hb, p, hex, rfl⟩ := hs
    simp [hb]
  | ok entries =>
    rw [show d.scanFrom code code.size 0 = .ok entries from hre] at hs
    obtain ⟨covered, rest, hc, he, hres, ha⟩ := hs
    refine ⟨fun hb => ⟨entries, rfl, ?_⟩, fun _ => .inr ⟨entries, covered, rest, rfl, hc, hres, he⟩⟩
    rw [hc, ha hb, append_nil]
    exact he

/-- An empty run, one that goes beyond the code, and one that starts inside it. -/
def crossingRuns : List InlineRun := [⟨.bytes, 0, 0⟩, ⟨.bytes, 4, 100⟩, ⟨.bytes, 5, 1⟩]

theorem scan_covers_once_crossing : (∀ r ∈ crossingRuns, r.tag = .bytes) ∧ ∃ entries,
    ({ start := 64, inlineData := .ofRuns crossingRuns } : Disassembler).scan #[31, 32, 3, 213, 7, 8, 9] = .ok entries ∧
      Covering 64 entries [31, 32, 3, 213, 7, 8, 9] := by
  have hr : ∀ r ∈ crossingRuns, r.tag = .bytes := by decide
  exact ⟨hr, (scan_covers_once (by decide) hr rfl).1 rfl⟩

end Disassembler
end StackCompiler
