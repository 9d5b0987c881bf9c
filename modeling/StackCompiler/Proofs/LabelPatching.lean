/-
Code buffers over any sequence of operations. Finishing the code replaces every
placeholder by an instruction that depends on labels and start only. So what
earlier attempts wrote stands only under placeholders (`Redrawn`).
-/
import Mathlib.Data.List.Basic
import StackCompiler.Machine.Buffer

namespace StackCompiler

open List Bytes

/-! ## Writing over bytes -/

namespace Bytes

@[simp] theorem length_littleEndian : ∀ width n : Nat, (littleEndian width n).length = width
  | 0, _ => rfl
  | width + 1, n => congrArg Nat.succ (length_littleEndian width (n / 256))

@[simp] theorem length_ofWord (w : BitVec 32) : (ofWord w).length = 4 := rfl

theorem size_overwrite : ∀ (data : List UInt8) (bytes : Bytes) (offset : Nat),
    (overwrite bytes offset data).size = bytes.size
  | [], _, _ => rfl
  | b :: data, bytes, offset => by rw [overwrite, size_overwrite data, Array.size_setIfInBounds]

theorem getElem?_overwrite : ∀ (data : List UInt8) (bytes : Bytes) (offset x : Nat),
    (overwrite bytes offset data)[x]? =
      if offset ≤ x ∧ x < offset + data.length ∧ x < bytes.size then data[x - offset]? else bytes[x]?
  | [], _, _, _ => by
    rw [if_neg (by rw [length_nil]; omega)]
    rfl
  | b :: data, bytes, offset, x => by
    rw [overwrite, getElem?_overwrite data, Array.getElem?_setIfInBounds, Array.size_setIfInBounds, length_cons]
    grind

/-- The data stand at an offset. -/
def Has (bytes : Bytes) (offset : Nat) (data : List UInt8) : Prop :=
  ∀ i byte, data[i]? = some byte → bytes[offset + i]? = some byte

theorem has_overwrite {data} {bytes} {offset} (h : offset + data.length ≤ bytes.size) :
    Has (overwrite bytes offset data) offset data := by
  intro i byte hi
  have hlt := (List.getElem?_eq_some_iff.mp hi).1
  rw [getElem?_overwrite, if_pos (by omega), Nat.add_sub_cancel_left, hi]

theorem exists_overwrite_word (bytes : Bytes) (offset : Nat) (w : BitVec 32) : ∃ bytes' : Bytes,
    overwrite bytes offset (ofWord w) = bytes' ∧ bytes'.size = bytes.size ∧
      (∀ i, ¬ (offset ≤ i ∧ i < offset + 4) → bytes'[i]? = bytes[i]?) ∧
      (offset + 4 ≤ bytes.size → Has bytes' offset (ofWord w)) := by
  refine ⟨_, rfl, size_overwrite .., fun i hi => ?_, fun h => has_overwrite (by rwa [length_ofWord])⟩
  rw [getElem?_overwrite, length_ofWord, if_neg (by omega)]

theorem Has.agree {bytes bytes'} {offset i} {data} (h : Has bytes offset data)
    (h' : Has bytes' offset data) (hi : offset ≤ i ∧ i < offset + data.length) : bytes[i]? = bytes'[i]? := by
  have hb := List.getElem?_eq_getElem (show i - offset < data.length by omega)
  rw [show i = offset + (i - offset) by omega, h _ _ hb, h' _ _ hb]

end Bytes

/-- What can be done with a code buffer. -/
inductive BufferStep where
  | word (w : BitVec 32)
  | bytes (data : List UInt8)
  | toLabel (opcode : Opcode) (operands : List Operand) (label : Label)
  | newLabel
  | bind (label : Label)
  | fix (label : Label) (address : Nat)
  | start (address : Nat)
  | finish
deriving DecidableEq

namespace BufferStep

/-- The bytes that a step puts down. -/
def draft : BufferStep → List UInt8
  | word w => ofWord w
  | bytes data => data
  | toLabel _ _ _ => ofWord 0
  | _ => []

/-- The placeholder that a step puts down behind `offset` bytes, if it is one. -/
def placeholder (offset : Nat) : BufferStep → List Placeholder
  | toLabel opcode operands label => [⟨offset, opcode, operands, label⟩]
  | _ => []

def placeholders : Nat → List BufferStep → List Placeholder
  | _, [] => []
  | offset, step :: steps => step.placeholder offset ++ placeholders (offset + step.draft.length) steps

theorem placeholder_spec {offset} {step : BufferStep} {p} (hp : p ∈ step.placeholder offset) :
    step = .toLabel p.opcode p.operands p.label ∧ p.offset = offset ∧ step.draft.length = 4 := by
  cases step <;> simp_all [placeholder, draft, ofWord, littleEndian]

theorem placeholders_append : ∀ (steps more : List BufferStep) (offset : Nat), placeholders offset (steps ++ more) =
    placeholders offset steps ++ placeholders (offset + (steps.flatMap draft).length) more
  | [], _, _ => rfl
  | step :: steps, more, offset => by
    simp [placeholders, placeholders_append steps more, Nat.add_assoc]

theorem placeholders_within : ∀ {steps : List BufferStep} {offset : Nat} {p : Placeholder},
    p ∈ placeholders offset steps →
    offset ≤ p.offset ∧ p.offset + 4 ≤ offset + (steps.flatMap draft).length
  | [], _, _, h => absurd h not_mem_nil
  | step :: steps, offset, p, h => by
    rw [flatMap_cons, length_append]
    obtain hp | hp := mem_append.mp h
    · obtain ⟨-, ho, hl⟩ := placeholder_spec hp
      omega
    · have := placeholders_within hp
      omega

theorem placeholders_apart : ∀ (steps : List BufferStep) (offset : Nat),
    (placeholders offset steps).Pairwise fun p q => p.offset + 4 ≤ q.offset
  | [], _ => .nil
  | step :: steps, offset => by
    refine pairwise_append.mpr ⟨?_, placeholders_apart steps _, fun p hp q hq => ?_⟩
    · cases step <;> simp [placeholder]
    · obtain ⟨-, ho, hl⟩ := placeholder_spec hp
      have := placeholders_within hq
      omega

theorem exists_of_mem_placeholders : ∀ {steps : List BufferStep} {offset : Nat} {p : Placeholder},
    p ∈ placeholders offset steps → ∃ before behind, steps = before ++ .toLabel p.opcode p.operands p.label :: behind ∧
      p.offset = offset + (before.flatMap draft).length
  | [], _, _, h => absurd h not_mem_nil
  | step :: steps, offset, p, h => by
    obtain hp | hp := mem_append.mp h
    · obtain ⟨rfl, ho, -⟩ := placeholder_spec hp
      exact ⟨[], steps, rfl, ho⟩
    · obtain ⟨before, behind, rfl, ho⟩ := exists_of_mem_placeholders hp
      exact ⟨step :: before, behind, rfl, by rw [ho, flatMap_cons, length_append, Nat.add_assoc]⟩

end BufferStep

namespace Buffer

/-- A step that fails leaves the buffer as it is, but for what finishing has replaced until then. -/
def perform (b : Buffer) : BufferStep → Buffer
  | .word w => b.emitWord w
  | .bytes data => b.emitBytes data
  | .toLabel opcode operands label => b.emitToLabel opcode operands label
  | .newLabel => b.newLabel.2
  | .bind label => (b.bind label).toOption.getD b
  | .fix label address => (b.fix label address).toOption.getD b
  | .start start => { b with start }
  | .finish => b.finish.1

def performAll (steps : List BufferStep) : Buffer := steps.foldl perform empty

/-! ## Replacing placeholders -/

variable {b b' : Buffer} {p : Placeholder} {ps : List Placeholder} {code : Bytes}

theorem resolve_fixed {address} (h : b.labels[p.label]? = some (.fixed address)) :
    b.resolve p = p.opcode.assemble (p.operands ++ [.rel (distance (b.start + p.offset) address)]) := by
  rw [resolve, Buffer.address, h]

theorem resolve_bound {position} (h : b.labels[p.label]? = some (.bound position)) :
    b.resolve p = p.opcode.assemble (p.operands ++ [.rel (distance (b.start + p.offset) (b.start + position))]) := by
  rw [resolve, address, h]

/-- A placeholder takes the four bytes from its offset on. -/
def Covered (ps : List Placeholder) (i : Nat) : Prop := ∃ p ∈ ps, p.offset ≤ i ∧ i < p.offset + 4

theorem patch_frame : ∀ (ps : List Placeholder) (b : Buffer), ∃ code, (b.patch ps).1 = { b with code } ∧
    code.size = b.code.size ∧ ∀ i, ¬ Covered ps i → code[i]? = b.code[i]?
  | [], b => ⟨b.code, rfl, rfl, fun _ _ => rfl⟩
  | p :: ps, b => by
    rw [patch]
    split
    · exact ⟨b.code, rfl, rfl, fun _ _ => rfl⟩
    next w _ =>
      obtain ⟨c, hc, hsi, ho, -⟩ := exists_overwrite_word b.code p.offset w
      obtain ⟨code, he, hs, hr⟩ := patch_frame ps { b with code := c }
      rw [hc]
      refine ⟨code, he, hs.trans hsi, fun i hi => ?_⟩
      rw [hr i fun ⟨q, hq, hin⟩ => hi ⟨q, mem_cons_of_mem _ hq, hin⟩]
      exact ho i fun hin => hi ⟨p, mem_cons_self, hin⟩

/-- The placeholders stand one behind the other in that many bytes. -/
def Spaced (ps : List Placeholder) (size : Nat) : Prop :=
  ps.Pairwise (fun p q => p.offset + 4 ≤ q.offset) ∧ ∀ p ∈ ps, p.offset + 4 ≤ size

theorem patch_words : ∀ {ps : List Placeholder} {b b' : Buffer}, b.patch ps = (b', .ok ()) → Spaced ps b.code.size →
    ∀ p ∈ ps, ∃ w, b.resolve p = .ok w ∧ Bytes.Has b'.code p.offset (ofWord w)
  | [], _, _, _, _ => fun _ hp => absurd hp not_mem_nil
  | q :: ps, b, b', h, ⟨hp, hf⟩ => by
    obtain ⟨hq, hp⟩ := pairwise_cons.mp hp
    obtain ⟨hqf, hf⟩ := forall_mem_cons.mp hf
    rw [patch] at h
    split at h
    next => cases h
    next w hw =>
      obtain ⟨c, hc, hs, -, ho⟩ := exists_overwrite_word b.code q.offset w
      rw [hc] at h
      have hps := patch_words h ⟨hp, by rwa [hs]⟩
      obtain ⟨code, he, -, hr⟩ := patch_frame ps { b with code := c }
      rw [h] at he
      obtain rfl : b' = _ := he
      refine forall_mem_cons.mpr ⟨⟨w, hw, fun i byte hi => ?_⟩, hps⟩
      have hlt := (List.getElem?_eq_some_iff.mp hi).1
      rw [length_ofWord] at hlt
      show code[_]? = _
      rw [hr _ fun ⟨p, hp, hin⟩ => by have := hq p hp; omega]
      exact ho hqf i byte hi

/-- Only the code changes while placeholders are replaced, and no placeholder reads it. -/
theorem patch_fails {err} (h : b.patch ps = (b', .error err)) : ∃ p ∈ ps, b.resolve p = .error err := by
  induction ps generalizing b with
  | nil => cases h
  | cons p rest ih =>
    unfold patch at h
    split at h
    next err' hr =>
      cases h
      exact ⟨p, mem_cons_self, hr⟩
    next w _ =>
      generalize overwrite b.code p.offset (ofWord w) = code at h
      obtain ⟨q, hq, hr⟩ := ih h
      exact ⟨q, mem_cons_of_mem _ hq, hr⟩

theorem finish_fails {err} (h : b.finish = (b', .error err)) : ∃ p ∈ b.placeholders, b.resolve p = .error err := by
  unfold finish at h
  split at h
  next => cases h
  next hpa =>
    cases h
    obtain ⟨p, hp, hr⟩ := patch_fails hpa
    exact ⟨p, Array.mem_toList_iff.mp hp, hr⟩

/-- What may stand in a buffer that was finished: a draft, but for bytes under placeholders. -/
structure Redrawn (b : Buffer) (code : Bytes) : Prop where
  size : code.size = b.code.size
  rest : ∀ i, ¬ Covered b.placeholders.toList i → code[i]? = b.code[i]?

theorem redrawn_self (b : Buffer) : Redrawn b b.code := ⟨rfl, fun _ _ => rfl⟩

theorem Redrawn.finish (h : Redrawn b code) : ∃ code', Redrawn b code' ∧
    ({ b with code }.finish = ({ b with code := code' }, .ok code') ∨
      ∃ e, { b with code }.finish = ({ b with code := code' }, .error e)) := by
  obtain ⟨code', hc, hs, hr⟩ := patch_frame b.placeholders.toList { b with code }
  refine ⟨code', ⟨hs.trans h.size, fun i hi => (hr i hi).trans (h.rest i hi)⟩, ?_⟩
  unfold Buffer.finish
  split
  next c hp =>
    rw [hp] at hc
    obtain rfl : c = _ := hc
    exact .inl rfl
  next c e hp =>
    rw [hp] at hc
    obtain rfl : c = _ := hc
    exact .inr ⟨e, rfl⟩

/-- The final code of a draft: each placeholder is replaced, and all else stands. -/
structure Finished (b : Buffer) (code : Bytes) : Prop extends Redrawn b code where
  word : ∀ p ∈ b.placeholders.toList, ∃ w, b.resolve p = .ok w ∧ Bytes.Has code p.offset (ofWord w)

theorem Redrawn.finished {final} (h : Redrawn b code) (hs : Spaced b.placeholders.toList b.code.size)
    (hf : { b with code }.finish = (b', .ok final)) : Finished b final := by
  obtain ⟨code', hr, he | ⟨e, he⟩⟩ := h.finish <;> rw [hf] at he <;> cases he
  refine ⟨hr, ?_⟩
  unfold Buffer.finish at hf
  split at hf
  next hp =>
    cases hf
    exact patch_words hp (by rwa [show ({ b with code } : Buffer).code.size = _ from h.size])
  next => cases hf

theorem Finished.unique {code'} (h : Finished b code) (h' : Finished b code') : code = code' := by
  refine Array.ext_getElem? fun i => ?_
  by_cases hi : Covered b.placeholders.toList i
  · obtain ⟨p, hp, hin⟩ := hi
    obtain ⟨w, hw, hc⟩ := h.word p hp
    obtain ⟨w', hw', hc'⟩ := h'.word p hp
    obtain rfl : w = w' := Except.ok.inj (hw.symm.trans hw')
    exact hc.agree hc' (by rwa [length_ofWord])
  · rw [h.rest i hi, h'.rest i hi]

/-! ## Steps -/

theorem Redrawn.append {code} (h : Redrawn b code) (data : List UInt8) {placeholders}
    (hps : ∀ p ∈ b.placeholders.toList, p ∈ placeholders.toList) :
    Redrawn { b with code := b.code ++ data, placeholders } (code ++ data) := by
  have hs := h.size
  refine ⟨?_, fun i hi => ?_⟩
  · simp only [← Array.length_toList, Array.toList_appendList, length_append] at hs ⊢
    rw [hs]
  · have ho := h.rest i fun ⟨p, hp, hin⟩ => hi ⟨p, hps p hp, hin⟩
    simp only [← Array.getElem?_toList, ← Array.length_toList, Array.toList_appendList, getElem?_append] at ho hs ⊢
    rw [hs, ho]

theorem Redrawn.perform {code} (h : Redrawn b code) {step} (hst : step ≠ .finish) :
    ∃ code', { b with code }.perform step = { b.perform step with code := code' } ∧ Redrawn (b.perform step) code' := by
  have hs := h.size
  cases step with
  | finish => exact absurd rfl hst
  | word w => exact ⟨_, rfl, h.append _ fun _ => id⟩
  | bytes data => exact ⟨_, rfl, h.append _ fun _ => id⟩
  | toLabel opcode operands label =>
    refine ⟨code ++ ofWord 0, ?_, h.append _ fun p hp => ?_⟩
    · simp [Buffer.perform, emitToLabel, offset, hs, emitWord, emitBytes]
    · simp [Array.mem_toList_iff.mp hp]
  | newLabel => exact ⟨code, rfl, h.size, h.rest⟩
  | start address => exact ⟨code, rfl, h.size, h.rest⟩
  | bind label =>
    refine ⟨code, ?_, ?_⟩
    · simp only [Buffer.perform, Buffer.bind, offset, hs]
      split <;> rfl
    · simp only [Buffer.perform, Buffer.bind]
      split <;> exact ⟨h.size, h.rest⟩
  | fix label address =>
    refine ⟨code, ?_, ?_⟩
    · simp only [Buffer.perform, Buffer.fix]
      split <;> rfl
    · simp only [Buffer.perform, Buffer.fix]
      split <;> exact ⟨h.size, h.rest⟩

/-- A draft of steps: the bytes that they put down, and their placeholders. -/
structure Drafts (steps : List BufferStep) (b : Buffer) : Prop where
  code : b.code.toList = steps.flatMap BufferStep.draft
  placeholders : b.placeholders.toList = BufferStep.placeholders 0 steps

section
variable {steps : List BufferStep} {step : BufferStep} (h : Drafts steps b)
include h

theorem Drafts.size : b.code.size = (steps.flatMap BufferStep.draft).length := by
  rw [← h.code, Array.length_toList]

theorem Drafts.append (hc : b'.code.toList = b.code.toList ++ step.draft)
    (hps : b'.placeholders.toList = b.placeholders.toList ++ step.placeholder b.code.size) :
    Drafts (steps ++ [step]) b' := by
  refine ⟨?_, ?_⟩
  · rw [hc, h.code]
    simp
  · rw [hps, h.placeholders, BufferStep.placeholders_append, h.size]
    simp [BufferStep.placeholders]

theorem Drafts.perform (hs : step ≠ .finish) : Drafts (steps ++ [step]) (b.perform step) := by
  cases step with
  | finish => exact absurd rfl hs
  | word | bytes => exact h.append Array.toList_appendList (append_nil _).symm
  | toLabel => exact h.append Array.toList_appendList Array.toList_push
  | newLabel | start => exact h.append (append_nil _).symm (append_nil _).symm
  | bind | fix =>
    simp only [Buffer.perform, Buffer.bind, Buffer.fix]
    split <;> exact h.append (append_nil _).symm (append_nil _).symm

end

/-- Steps, next to the same steps without an attempt to finish the code. -/
theorem foldl_redrawn : ∀ (steps : List BufferStep) {done : List BufferStep} {b : Buffer} {code : Bytes},
    Redrawn b code → Drafts done b → ∃ code',
      steps.foldl perform { b with code } = { (steps.filter (· ≠ .finish)).foldl perform b with code := code' } ∧
      Redrawn ((steps.filter (· ≠ .finish)).foldl perform b) code' ∧
      Drafts (done ++ steps) ((steps.filter (· ≠ .finish)).foldl perform b)
  | [], done, b, code, h, hdo => ⟨code, rfl, h, by rwa [append_nil]⟩
  | step :: steps, done, b, code, h, hdo => by
    rw [append_cons, foldl_cons]
    by_cases hs : step = .finish
    · subst hs
      have hd : Drafts (done ++ [.finish]) b := hdo.append (append_nil _).symm (append_nil _).symm
      obtain ⟨code', h, hc | ⟨e, hc⟩⟩ := h.finish <;> rw [perform, hc] <;> exact foldl_redrawn steps h hd
    · obtain ⟨code', hco, h⟩ := h.perform hs
      rw [filter_cons_of_pos (by simpa using hs), hco]
      exact foldl_redrawn steps h (hdo.perform hs)

theorem performAll_redrawn (steps : List BufferStep) : ∃ code,
    performAll steps = { performAll (steps.filter (· ≠ .finish)) with code } ∧
      Redrawn (performAll (steps.filter (· ≠ .finish))) code ∧ Drafts steps (performAll (steps.filter (· ≠ .finish))) :=
  @foldl_redrawn steps [] empty #[] ⟨rfl, fun _ _ => rfl⟩ ⟨rfl, rfl⟩

/-- What a step leaves in finished code: of a placeholder the instruction with the distance from its
address to that of its label, of any other step its bytes. -/
def Leaves (final : Buffer) (code : Bytes) (offset : Nat) : BufferStep → Prop
  | .toLabel opcode operands label => ∃ target w, final.address label = .ok target ∧
      opcode.assemble (operands ++ [.rel (distance (final.start + offset) target)]) = .ok w ∧
      Bytes.Has code offset (ofWord w)
  | step => Bytes.Has code offset step.draft

variable {steps : List BufferStep}

theorem Drafts.spaced (h : Drafts steps b) : Spaced b.placeholders.toList b.code.size := by
  rw [h.placeholders, h.size]
  refine ⟨BufferStep.placeholders_apart steps 0, fun p hp => ?_⟩
  have := BufferStep.placeholders_within hp
  omega

theorem Finished.leaves (h : Finished b code) (hd : Drafts steps b) {before behind}
    {step} (hs : steps = before ++ step :: behind) :
    b.Leaves code (before.flatMap BufferStep.draft).length step := by
  have hps := hd.placeholders
  have hc := hd.code
  rw [hs, BufferStep.placeholders_append, Nat.zero_add, BufferStep.placeholders] at hps
  rw [hs, flatMap_append, flatMap_cons] at hc
  have hk (hn : step.placeholder (before.flatMap BufferStep.draft).length = []) :
      Bytes.Has code (before.flatMap BufferStep.draft).length step.draft := by
    intro i byte hb
    have hi := (List.getElem?_eq_some_iff.mp hb).1
    rw [h.rest, ← Array.getElem?_toList, hc, getElem?_append_right (by omega), Nat.add_sub_cancel_left,
      getElem?_append_left hi, hb]
    rintro ⟨p, hp, hin⟩
    rw [hps, hn, nil_append, mem_append] at hp
    obtain hp | hp := hp <;> have := BufferStep.placeholders_within hp <;> omega
  cases step with
  | toLabel opcode operands label =>
    obtain ⟨w, hw, hh⟩ := h.word ⟨(before.flatMap BufferStep.draft).length, opcode, operands, label⟩
      (by rw [hps]; exact mem_append_right _ mem_cons_self)
    unfold resolve at hw
    split at hw
    next => cases hw
    next target ht => exact ⟨target, w, ht, hw, hh⟩
  | _ => exact hk rfl

theorem resolve_start {position} (h : b.labels[p.label]? = some (.bound position)) (start : Nat) :
    { b with start }.resolve p = b.resolve p := by
  have hd : distance (start + p.offset) (start + position) = distance (b.start + p.offset) (b.start + position) := by
    unfold distance
    congr 1
    omega
  rw [resolve_bound h, ← hd]
  exact resolve_bound (b := { b with start }) h

/-- Another start changes only instructions that refer to fixed labels. -/
theorem Finished.restart {start} {code'} (h : Finished b code) (h' : Finished { b with start } code')
    {i} (hne : code'[i]? ≠ code[i]?) : ∃ p ∈ b.placeholders.toList, (p.offset ≤ i ∧ i < p.offset + 4) ∧
      ∃ address, b.labels[p.label]? = some (.fixed address) := by
  by_cases hi : Covered b.placeholders.toList i
  · obtain ⟨p, hp, hin⟩ := hi
    refine ⟨p, hp, hin, ?_⟩
    obtain ⟨w, hw, hh⟩ := h.word p hp
    obtain ⟨w', hw', hh'⟩ := h'.word p hp
    cases hl : b.labels[p.label]? with
    | none => simp [resolve, address, hl] at hw
    | some state =>
      cases state with
      | unbound => simp [resolve, address, hl] at hw
      | fixed address => exact ⟨address, rfl⟩
      | bound position =>
        rw [resolve_start hl, hw] at hw'
        cases hw'
        exact absurd (hh'.agree hh (by rwa [length_ofWord])) hne
  · exact absurd ((h'.rest i hi).trans (h.rest i hi).symm) hne

/-- **Finished code depends on the final labels only**, whatever was finished or failed to be
finished on the way. Each placeholder is the instruction with the distance from its own address to
the final address of its label, and all other bytes are those that were put down. Without the
earlier attempts the code is the same, and another start changes only what refers to fixed labels.
-/
theorem finished_by_final_labels (steps : List BufferStep) {code : Bytes}
    (h : (performAll steps).finish = (b, .ok code)) :
    code.size = (steps.flatMap BufferStep.draft).length ∧
    (∀ before step behind, steps = before ++ step :: behind →
      (performAll steps).Leaves code (before.flatMap BufferStep.draft).length step) ∧
    (performAll (steps.filter (· ≠ .finish))).finish.2 = .ok code ∧
    ∀ start code', (performAll (steps ++ [.start start])).finish.2 = .ok code' → code'.size = code.size ∧
      ∀ i, code'[i]? ≠ code[i]? → ∃ before opcode operands label behind,
        steps = before ++ .toLabel opcode operands label :: behind ∧ (before.flatMap BufferStep.draft).length ≤ i ∧
        i < (before.flatMap BufferStep.draft).length + 4 ∧
        ∃ address, (performAll steps).labels[label]? = some (.fixed address) := by
  obtain ⟨now, ha, hre, hd⟩ := performAll_redrawn steps
  have hres : ∀ start, performAll (steps ++ [.start start]) =
      { performAll (steps.filter (· ≠ .finish)) with code := now, start } := by
    intro start
    rw [performAll, foldl_append]
    show { performAll steps with start } = _
    rw [ha]
  generalize performAll (steps.filter (· ≠ .finish)) = draft at *
  rw [ha] at h ⊢
  have hf := hre.finished hd.spaced h
  refine ⟨hf.size.trans hd.size, fun before step behind hs => ?_, ?_, fun start code' h' => ?_⟩
  · have := hf.leaves hd hs
    cases step <;> exact this
  · obtain ⟨code', -, hc | ⟨e, hc⟩⟩ := draft.redrawn_self.finish
    · rw [hc, hf.unique (draft.redrawn_self.finished hd.spaced hc)]
    · obtain ⟨p, hp, hr⟩ := finish_fails hc
      obtain ⟨w, hw, -⟩ := hf.word p (Array.mem_toList_iff.mpr hp)
      cases hr.symm.trans hw
  · rw [hres] at h'
    have hr' : Redrawn { draft with start } now := ⟨hre.size, hre.rest⟩
    have hf' := hr'.finished hd.spaced (Prod.ext rfl h')
    refine ⟨hf'.size.trans hf.size.symm, fun i hne => ?_⟩
    obtain ⟨p, hp, ⟨hle, hlt⟩, hfi⟩ := hf.restart hf' hne
    rw [hd.placeholders] at hp
    obtain ⟨before, behind, hs, ho⟩ := BufferStep.exists_of_mem_placeholders hp
    rw [Nat.zero_add] at ho
    exact ⟨before, _, _, _, behind, hs, by omega, by omega, hfi⟩

/-- A branch and a load, finished three times: first the labels have no address, then the literal
has another. -/
def moved : List BufferStep :=
  [.newLabel, .toLabel .b [] 0, .finish, .newLabel, .toLabel .ldrLiteral [.reg .x0] 1, .word 0xd503201f, .bind 0,
    .fix 1 8,
    .start 16, .finish, .fix 1 0]

theorem finished_by_final_labels_moved : ∃ b code, (performAll moved).finish = (b, .ok code) ∧
    code = (([0x14000003, 0x58ffff60, 0xd503201f] : List (BitVec 32)).flatMap ofWord).toArray ∧
    (performAll moved).Leaves code 4 (.toLabel .ldrLiteral [.reg .x0] 1) ∧
    (performAll (moved.filter (· ≠ .finish))).finish.2 = .ok code := by
  have he : (performAll moved).finish.2.toOption =
      some (([0x14000003, 0x58ffff60, 0xd503201f] : List (BitVec 32)).flatMap ofWord).toArray := by decide +kernel
  cases hf : (performAll moved).finish with
  | mk b result =>
    rw [hf] at he
    cases result with
    | error e => cases he
    | ok code =>
      cases he
      obtain ⟨-, hl, hs, -⟩ := finished_by_final_labels moved hf
      exact ⟨b, _, rfl, rfl, hl (moved.take 4) _ (moved.drop 5) rfl, hs⟩

end Buffer
end StackCompiler
