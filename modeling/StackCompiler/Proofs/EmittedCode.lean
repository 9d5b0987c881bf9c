/-
The words of emitted code. Lines are first put down as a draft; then every word
that refers to a place is replaced (`patch_drafted`).
-/
import StackCompiler.Proofs.FinishedMethod

namespace StackCompiler

open List Bytes Emission Buffer

/-! ## Words in bytes -/

namespace Bytes

theorem ofLittleEndian_littleEndian : ∀ width n : Nat,
    ofLittleEndian (littleEndian width n) = n % Nat.pow 256 width
  | 0, n => (Nat.mod_one n).symm
  | width + 1, n => by
    have hb : (UInt8.ofNat n).toNat = n % 256 := UInt8.toNat_ofNat'
    have hp : Nat.pow 256 (width + 1) = 256 * Nat.pow 256 width := Nat.pow_succ'
    rw [littleEndian, ofLittleEndian, ofLittleEndian_littleEndian width, hb, hp, Nat.mod_mul]

theorem ofLittleEndian_four {n} (h : n < 0x100000000) : ofLittleEndian (littleEndian 4 n) = n := by
  rw [ofLittleEndian_littleEndian]
  exact Nat.mod_eq_of_lt h

@[simp] theorem toWord_ofWord (w : BitVec 32) : toWord (ofWord w) = w := by
  have hlt : w.toNat < 0x100000000 := w.isLt
  have ht : (ofWord w).take 4 = littleEndian 4 w.toNat := rfl
  rw [toWord, ht, ofLittleEndian_four hlt, BitVec.ofNat_toNat, BitVec.setWidth_eq]

theorem length_words (ws : List (BitVec 32)) : (ws.flatMap ofWord).length = 4 * ws.length := by
  rw [length_flatMap_of_size length_ofWord, Nat.mul_comm]

theorem extract_words {code : Bytes} {words : List (BitVec 32)} (hc : code.toList = words.flatMap ofWord) {k w}
    (hw : words[k]? = some w) :
    (code.extract (4 * k) (4 * k + 4)).toList = ofWord w := by
  have hp := take_drop_flatMap length_ofWord [] hw
  rw [append_nil, ← hc, Nat.mul_comm] at hp
  rw [Array.toList_extract, extract_eq_take_drop, Nat.add_sub_cancel_left, hp]

theorem toList_overwrite {data old} {bytes} {before behind}
    (h : bytes.toList = before ++ (old ++ behind)) (hl : old.length = data.length) :
    (overwrite bytes before.length data).toList = before ++ (data ++ behind) := by
  have hs := congrArg length h
  rw [Array.length_toList, length_append, length_append] at hs
  refine ext_getElem? fun x => ?_
  rw [Array.getElem?_toList, getElem?_overwrite, ← Array.getElem?_toList, h]
  grind

end Bytes

namespace Emission

/-! ## Lines and words -/

/-- The words of a line, once its place has an address. -/
inductive Line.Encodes : Line → List (BitVec 32) → Prop
  | insn {opcode operands w}
      (h : opcode.assemble operands = .ok w) : Encodes (.insn opcode operands) [w]
  | toPlace {opcode operands place distance w}
      (h : opcode.assemble (operands ++ [.rel distance]) = .ok w) :
      Encodes (.toPlace opcode operands place) [w]
  | trap : Encodes .trap [0#32]
  | stop {kind bci slots registers} : Encodes (.stop kind bci slots registers) []
  | block {id handler} : Encodes (.block id handler) []

inductive Coded : List Line → List (BitVec 32) → Prop
  | nil : Coded [] []
  | cons {line lines ws words} (hline : line.Encodes ws)
      (hrest : Coded lines words) : Coded (line :: lines) (ws ++ words)

variable {words : List (BitVec 32)} {line : Line} {lines : List Line}
  {placeholders : List Placeholder}

theorem Line.Encodes.size {ws} (h : line.Encodes ws) :
    line.size = 4 * ws.length := by
  cases h <;> rfl

theorem Coded.size (h : Coded lines words) : codeSize lines = 4 * words.length := by
  induction h with
  | nil => rfl
  | cons hl _ ih =>
    rw [codeSize, hl.size, ih, length_append]
    omega

/-! ## The draft -/

/-- The positions of traps among some lines, from a position on. -/
def trapsFrom : Nat → List Line → List Nat
  | _, [] => []
  | position, .trap :: rest => position :: trapsFrom (position + 4) rest
  | position, line :: rest => trapsFrom (position + line.size) rest

theorem trapsFrom_cons (position : Nat) (line : Line) (rest : List Line) :
    trapsFrom position (line :: rest) = trapsFrom position [line] ++ trapsFrom (position + line.size) rest := by
  cases line <;> rfl

theorem mem_trapsFrom {q} : ∀ {lines : List Line} {position : Nat}, q ∈ trapsFrom position lines ↔
    ∃ before behind, lines = before ++ .trap :: behind ∧ q = position + codeSize before
  | [], position => by simp [trapsFrom]
  | line :: lines, position => by
    have hl : q ∈ trapsFrom position [line] ↔ line = .trap ∧ q = position := by
      cases line <;> simp [trapsFrom]
    rw [trapsFrom_cons, mem_append, hl, mem_trapsFrom]
    constructor
    · rintro (⟨rfl, rfl⟩ | ⟨before, behind, rfl, rfl⟩)
      · exact ⟨[], lines, rfl, rfl⟩
      · exact ⟨line :: before, behind, rfl, Nat.add_assoc ..⟩
    · rintro ⟨before, behind, heq, rfl⟩
      cases before with
      | nil =>
        cases heq
        exact .inl ⟨rfl, rfl⟩
      | cons _ before =>
        cases heq
        exact .inr ⟨before, behind, rfl, (Nat.add_assoc ..).symm⟩

theorem Coded.insn_of_not_trap (h : Coded lines words) :
    ∀ {position k : Nat} {w : BitVec 32}, words[k]? = some w → position + 4 * k ∉ trapsFrom position lines →
      ∃ (o : Opcode) (operands : List Operand), o.assemble operands = .ok w := by
  induction h with
  | nil =>
    intro position k w hw
    cases hw
  | @cons line lines ws words hl _ ih =>
    intro position k w hw ht
    rw [trapsFrom_cons, mem_append, not_or] at ht
    by_cases hk : k < ws.length
    · rw [getElem?_append_left hk] at hw
      cases hl with
      | insn h | toPlace h =>
        obtain rfl : k = 0 := Nat.lt_one_iff.mp hk
        cases hw
        exact ⟨_, _, h⟩
      | trap =>
        obtain rfl : k = 0 := Nat.lt_one_iff.mp hk
        exact absurd mem_cons_self ht.1
      | stop | block => cases hk
    · rw [getElem?_append_right (Nat.le_of_not_lt hk)] at hw
      have hp : position + 4 * k = position + line.size + 4 * (k - ws.length) := by
        rw [hl.size]
        omega
      rw [hp] at ht
      exact ih hw ht.2

/-- The data that stands for a trap. -/
def trapRun (position : Nat) : InlineRun := ⟨.bytes, position, trapSize⟩

/-- What a line at a position puts down before places have addresses. -/
inductive Line.Drafts (position : Nat) : Line → List (BitVec 32) → List Placeholder → Prop
  | insn {opcode operands w}
      (h : opcode.assemble operands = .ok w) : Drafts position (.insn opcode operands) [w] []
  | toPlace {opcode operands place} (label : Label) :
      Drafts position (.toPlace opcode operands place) [0#32] [⟨position, opcode, operands, label⟩]
  | trap : Drafts position .trap [0#32] []
  | stop {kind bci slots registers} :
      Drafts position (.stop kind bci slots registers) [] []
  | block {id handler} : Drafts position (.block id handler) [] []

/-- What some lines put down from a position on. -/
inductive Drafted : Nat → List Line → List (BitVec 32) → List Placeholder → Prop
  | nil {position} : Drafted position [] [] []
  | cons {position line lines ws words ps placeholders} (hline : line.Drafts position ws ps)
      (hrest : Drafted (position + line.size) lines words placeholders) :
      Drafted position (line :: lines) (ws ++ words) (ps ++ placeholders)

/-- Code that got some words, placeholders and data. -/
structure Extends (e : Emission) (words : List (BitVec 32)) (placeholders : List Placeholder)
    (traps : List Nat) (e' : Emission) : Prop where
  code : e'.buffer.code.toList = e.buffer.code.toList ++ words.flatMap ofWord
  placeholders : e'.buffer.placeholders.toList = e.buffer.placeholders.toList ++ placeholders
  inlineData : e'.inlineData = e.inlineData ++ traps.map trapRun

theorem Extends.trans {e e₁ e₂ words' placeholders' traps traps'} (h : Extends e words placeholders traps e₁)
    (h' : Extends e₁ words' placeholders' traps' e₂) :
    Extends e (words ++ words') (placeholders ++ placeholders') (traps ++ traps') e₂ where
  code := by rw [h'.code, h.code, flatMap_append, append_assoc]
  placeholders := by rw [h'.placeholders, h.placeholders, append_assoc]
  inlineData := by rw [h'.inlineData, h.inlineData, map_append, append_assoc]

theorem toList_emitWord (b : Buffer) (w : BitVec 32) :
    (b.emitWord w).code.toList = b.code.toList ++ [w].flatMap ofWord := by
  simp [emitWord, emitBytes]

theorem Labels.extends {e e' place label} (h : Labels e place label e') : Extends e [] [] [] e' := by
  cases h <;> exact ⟨(append_nil _).symm, (append_nil _).symm, (append_nil _).symm⟩

theorem Adds.drafts {e e'} (h : Adds e line e') :
    ∃ ws ps, line.Drafts e.buffer.offset ws ps ∧ Extends e ws ps (trapsFrom e.buffer.offset [line]) e' := by
  cases h with
  | insn h => exact ⟨_, _, .insn h, toList_emitWord .., (append_nil _).symm, (append_nil _).symm⟩
  | @toPlace o operands place label e₁ h =>
    refine ⟨_, _, .toPlace label, h.extends.trans ⟨toList_emitWord _ 0#32, ?_, (append_nil _).symm⟩⟩
    have ho : e₁.buffer.offset = e.buffer.offset := h.added.offset
    rw [← ho]
    exact Array.toList_push
  | stop => exact ⟨_, _, .stop, (append_nil _).symm, (append_nil _).symm, (append_nil _).symm⟩
  | trap => exact ⟨_, _, .trap, toList_emitWord _ 0#32, (append_nil _).symm, rfl⟩
  | block handler =>
    refine ⟨_, _, .block, ?_, ?_, ?_⟩
    · rw [(changeHandler_buffer _ handler).1]
      exact (append_nil _).symm
    · rw [(changeHandler_buffer _ handler).1]
      exact (append_nil _).symm
    · unfold changeHandler
      split <;> exact (append_nil _).symm

/-- In a draft, an instruction that refers to a place is a zero word. -/
theorem addAll_drafted {method} : ∀ {lines : List Line} {e e' : Emission},
    addAll method lines e = .ok e' → ∃ words placeholders,
      Drafted e.buffer.offset lines words placeholders ∧
        Extends e words placeholders (trapsFrom e.buffer.offset lines) e'
  | [], e, e', h => by
    cases h
    exact ⟨[], [], .nil, (append_nil _).symm, (append_nil _).symm, (append_nil _).symm⟩
  | line :: lines, e, e', h => by
    obtain ⟨e₁, ha, h⟩ := addAll_cons h
    obtain ⟨ws, ps, hl, he⟩ := ha.drafts
    obtain ⟨words, placeholders, hr, he'⟩ := addAll_drafted h
    rw [show e₁.buffer.offset = e.buffer.offset + line.size from ha.added.offset] at hr he'
    refine ⟨_, _, .cons hl hr, ?_⟩
    rw [trapsFrom_cons]
    exact he.trans he'

/-! ## Placeholders -/

/-- What stands for a line is final once its placeholder, if it has one, is replaced. -/
theorem Line.Drafts.patch {done} {b : Buffer} {position ws ps b'} (h : line.Drafts position ws ps)
    (hpo : position = 4 * done.length) (hc : b.code.toList = (done ++ (ws ++ words)).flatMap ofWord)
    (hpa : b.patch (ps ++ placeholders) = (b', .ok ())) :
    ∃ (ws' : List (BitVec 32)) (code : Bytes), line.Encodes ws' ∧
      code.toList = ((done ++ ws') ++ words).flatMap ofWord ∧
      { b with code }.patch placeholders = (b', .ok ()) ∧
      ∀ p ∈ ps, p.offset = position ∧ ∃ w, ws' = [w] ∧ b.resolve p = .ok w := by
  rw [← append_assoc] at hc
  have hn : ∀ p ∈ ([] : List Placeholder), p.offset = position ∧ ∃ w, ws = [w] ∧ b.resolve p = .ok w :=
    fun p hp => absurd hp not_mem_nil
  cases h with
  | insn ha => exact ⟨_, b.code, .insn ha, hc, hpa, hn⟩
  | trap => exact ⟨_, b.code, .trap, hc, hpa, hn⟩
  | stop => exact ⟨_, b.code, .stop, hc, hpa, hn⟩
  | block => exact ⟨_, b.code, .block, hc, hpa, hn⟩
  | toPlace label =>
    rw [cons_append, nil_append] at hpa
    unfold patch at hpa
    split at hpa
    next => cases hpa
    next w hr =>
      have hpl := hr
      unfold resolve at hr
      split at hr
      next => cases hr
      next target _ =>
        refine ⟨[w], _, .toPlace hr, ?_, hpa, fun p hp => ?_⟩
        case refine_2 =>
          obtain rfl := mem_singleton.mp hp
          exact ⟨rfl, w, rfl, hpl⟩
        have hs : b.code.toList = done.flatMap ofWord ++
            (ofWord 0#32 ++ words.flatMap ofWord) := by
          rw [hc]
          simp
        have ho := toList_overwrite hs (show _ = (ofWord w).length from rfl)
        rw [length_words, ← hpo] at ho
        rw [ho]
        simp

/-- Patching a draft gives the words of its lines, each placeholder the word that it is resolved to. -/
theorem patch_drafted {position} (h : Drafted position lines words placeholders) :
    ∀ {b b' : Buffer} {done : List (BitVec 32)}, position = 4 * done.length →
      b.code.toList = (done ++ words).flatMap ofWord → b.patch placeholders = (b', .ok ()) →
      ∃ final, Coded lines final ∧ b'.code.toList = (done ++ final).flatMap ofWord ∧
        ∀ p ∈ placeholders, ∃ k w, p.offset = 4 * k ∧ (done ++ final)[k]? = some w ∧ b.resolve p = .ok w := by
  induction h with
  | nil =>
    intro b b' done _ hc hpa
    cases hpa
    exact ⟨[], .nil, hc, fun p hp => absurd hp not_mem_nil⟩
  | @cons position line lines ws words ps placeholders hl _ ih =>
    intro b b' done hpo hc hpa
    obtain ⟨ws', code, he, hc₁, hpa₁, hpl⟩ := hl.patch hpo hc hpa
    have hp₁ : position + line.size = 4 * (done ++ ws').length := by
      rw [he.size, length_append]
      omega
    obtain ⟨final, hf, hc', hre⟩ := ih hp₁ hc₁ hpa₁
    rw [append_assoc] at hc' hre
    refine ⟨ws' ++ final, .cons he hf, hc', fun p hp => ?_⟩
    rcases mem_append.mp hp with hp | hp
    · obtain ⟨ho, w, rfl, hr⟩ := hpl p hp
      refine ⟨done.length, w, ho.trans hpo, ?_, hr⟩
      rw [getElem?_append_right (Nat.le_refl _), Nat.sub_self]
      rfl
    · exact hre p hp

end Emission

/-! ## Compiled methods -/

namespace Bundle

variable {m : Linear.Method} {a : Allocation} {e : Emission} (he : ofMethod m a = .ok e)
include he

/-- The words of finished code; a placeholder got the word that it is resolved to. -/
theorem finish_words {buffer buffer' : Buffer} {code} (hf : buffer.finish = (buffer', .ok code))
    (hc : buffer.code = e.buffer.code) (hp : buffer.placeholders = e.buffer.placeholders) :
    ∃ words, Emission.Coded (lines m a) words ∧ code.toList = words.flatMap ofWord ∧
      ∀ p ∈ e.buffer.placeholders.toList, ∃ k w, p.offset = 4 * k ∧ words[k]? = some w ∧ buffer.resolve p = .ok w := by
  obtain ⟨words, placeholders, hd, hext⟩ := addAll_drafted he
  unfold finish at hf
  split at hf
  next b hpa =>
    rw [hp, hext.placeholders] at hpa
    have hdr : buffer.code.toList = ([] ++ words).flatMap ofWord := by
      rw [hc, hext.code]
      rfl
    rw [hext.placeholders, ← Except.ok.inj (Prod.mk.inj hf).2]
    exact patch_drafted hd rfl hdr hpa
  next => cases hf

/-- The code of a compiled method is one word for each line that has a size. -/
theorem Tables.coded {b} (ht : Tables m a e b) :
    (∃ words, Emission.Coded (lines m a) words ∧ b.code.toList = words.flatMap ofWord) ∧
      b.inlineData = InlineRun.encodeAll ((trapsFrom 0 (lines m a)).map trapRun) := by
  constructor
  · obtain ⟨buffer, buffer', hc, hp, hf⟩ := ht.finished
    obtain ⟨words, hw, hb, -⟩ := finish_words he hf hc hp
    exact ⟨words, hw, hb⟩
  · obtain ⟨words, placeholders, -, hext⟩ := addAll_drafted he
    rw [ht.inlineData, hext.inlineData]
    rfl

end Bundle
end StackCompiler
