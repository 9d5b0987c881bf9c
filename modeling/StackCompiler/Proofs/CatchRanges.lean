/-
The catch table of emitted code. The ranges noted so far say which handler is in
effect at every position (`Ranged`), and a later line never changes that.
-/
import StackCompiler.Proofs.FinishedMethod

namespace StackCompiler

open List Emission

/-! ## Ranges -/

section
variable {α β : Type}

/-- The handler in effect at a position: that of the last range that starts at or before it. -/
def inEffect (ranges : List (Nat × Option α)) (position : Nat) : Option α :=
  (ranges.takeWhile (·.1 ≤ position)).getLast?.bind (·.2)

/-- A range behind a position does not matter there. -/
theorem inEffect_append_of_lt {start position} (h : position < start) (handler : Option α) :
    ∀ ranges : List (Nat × Option α),
      inEffect (ranges ++ [(start, handler)]) position = inEffect ranges position := by
  intro ranges
  have ht : (ranges ++ [(start, handler)]).takeWhile (·.1 ≤ position) =
      ranges.takeWhile (·.1 ≤ position) := by
    induction ranges with
    | nil => simp [show ¬ start ≤ position by omega]
    | cons r ranges ih => simp only [cons_append, takeWhile_cons, ih]
  rw [inEffect, ht, inEffect]

theorem inEffect_concat {ranges} {start position} {handler : Option α}
    (h : ∀ r ∈ ranges, r.1 ≤ position) (hs : start ≤ position) :
    inEffect (ranges ++ [(start, handler)]) position = handler := by
  have ht : (ranges ++ [(start, handler)]).takeWhile (·.1 ≤ position) = ranges ++ [(start, handler)] := by
    rw [takeWhile_append_of_pos fun r hr => decide_eq_true (h r hr)]
    simp [hs]
  rw [inEffect, ht, getLast?_concat, Option.bind_some]

theorem inEffect_map (f : α → Option β) (ranges : List (Nat × Option α)) (position : Nat) :
    inEffect (ranges.map fun r => (r.1, r.2.bind f)) position = (inEffect ranges position).bind f := by
  rw [inEffect, takeWhile_map, getLast?_map, inEffect]
  have hc : ((fun r : Nat × Option β => decide (r.1 ≤ position)) ∘ fun r : Nat × Option α =>
      (r.1, r.2.bind f)) = fun r => decide (r.1 ≤ position) := rfl
  rw [hc]
  cases (ranges.takeWhile fun r => decide (r.1 ≤ position)).getLast? with
  | none => rfl
  | some r => rfl

end

namespace Emission
open Linear

/-- The ranges so far lie in the code, and the handler of what comes next is in effect. -/
structure Ranged (e : Emission) : Prop where
  le : ∀ r ∈ e.ranges.toList, r.1 ≤ e.buffer.offset
  current : ∀ {position}, e.buffer.offset ≤ position → inEffect e.ranges.toList position = e.handler

theorem start_ranged (m : Linear.Method) : (start m).Ranged := by
  cases hm : m.hasHandlers with
  | false =>
    have hr : (start m).ranges = #[] := by simp [start, hm]
    constructor
    · simp [hr]
    · intro position _
      rw [hr]
      rfl
  | true =>
    have hr : (start m).ranges = #[(0, none)] := by simp [start, hm]
    constructor
    · simp [hr]
    · intro position _
      rw [hr]
      exact @inEffect_concat Label [] 0 position none (by simp) (Nat.zero_le position)

/-- Another handler comes in a range of its own, which may take the place of an empty one. -/
theorem changeHandler_ranges {e : Emission} {handler} (h : handler ≠ e.handler) :
    ∃ front, (e.changeHandler handler).ranges.toList = front ++ [(e.buffer.offset, handler)] ∧
      (e.ranges.toList = front ∨ ∃ old, e.ranges.toList = front ++ [(e.buffer.offset, old)]) := by
  unfold changeHandler
  rw [if_neg h]
  dsimp only
  cases hba : e.ranges.back? with
  | none => exact ⟨e.ranges.toList, by simp, .inl rfl⟩
  | some last =>
    obtain ⟨position, old⟩ := last
    dsimp only
    by_cases hl : position = e.buffer.offset
    · rw [if_pos hl]
      refine ⟨e.ranges.toList.dropLast, by simp, .inr ⟨old, ?_⟩⟩
      rw [← Array.getLast?_toList] at hba
      rw [← hl]
      exact (dropLast_append_getLast? _ hba).symm
    · rw [if_neg hl]
      exact ⟨e.ranges.toList, by simp, .inl rfl⟩

theorem changeHandler_ranged {e : Emission} (h : e.Ranged) (handler : Option Nat) :
    (e.changeHandler handler).Ranged ∧ (e.changeHandler handler).handler = handler ∧
      ∀ {position}, position < e.buffer.offset →
        inEffect (e.changeHandler handler).ranges.toList position = inEffect e.ranges.toList position := by
  by_cases heq : handler = e.handler
  · have hs : e.changeHandler handler = e := if_pos heq
    rw [hs]
    exact ⟨h, heq.symm, fun _ => rfl⟩
  · obtain ⟨front, hn, ho⟩ := changeHandler_ranges heq
    have hh : (e.changeHandler handler).handler = handler := by
      unfold changeHandler
      rw [if_neg heq]
    have hbu := (changeHandler_buffer e handler).1
    have hf : ∀ r ∈ front, r.1 ≤ e.buffer.offset := by
      intro r hr
      refine h.le r ?_
      rcases ho with ho | ⟨old, ho⟩
      · rw [ho]
        exact hr
      · rw [ho]
        exact mem_append_left _ hr
    refine ⟨⟨?_, ?_⟩, hh, ?_⟩
    · intro r hr
      rw [hbu]
      rw [hn, mem_append, mem_singleton] at hr
      rcases hr with hr | hr
      · exact hf r hr
      · exact Nat.le_of_eq (congrArg Prod.fst hr)
    · intro position hle
      rw [hbu] at hle
      rw [hn, hh]
      exact inEffect_concat (fun r hr => Nat.le_trans (hf r hr) hle) hle
    · intro position hlt
      rw [hn, inEffect_append_of_lt hlt]
      rcases ho with ho | ⟨old, ho⟩
      · rw [ho]
      · rw [ho, inEffect_append_of_lt hlt]

theorem Ranged.congr {e e' : Emission} (h : e.Ranged) (ho : e.buffer.offset ≤ e'.buffer.offset)
    (hs : e'.ranges = e.ranges ∧ e'.handler = e.handler) : e'.Ranged := by
  refine ⟨fun r hr => ?_, fun {position} hp => ?_⟩
  · rw [hs.1] at hr
    exact Nat.le_trans (h.le r hr) ho
  · rw [hs.1, hs.2]
    exact h.current (Nat.le_trans ho hp)

/-- A line keeps what the ranges say of the code before it; a block puts its handler into effect. -/
theorem Adds.ranged {e e' line} (h : Adds e line e') (hr : e.Ranged) :
    e'.Ranged ∧ (∀ {handler}, line.handler? = some handler → e'.handler = handler) ∧
      ∀ {position}, position < e.buffer.offset →
        inEffect e'.ranges.toList position = inEffect e.ranges.toList position := by
  cases hl : line.handler? with
  | none =>
    have hs := h.same hl
    exact ⟨hr.congr (Nat.le.intro h.added.offset.symm) hs, (by simp), by simp [hs.1]⟩
  | some handler =>
    cases h with
    | @block id =>
      cases hl
      have hc := changeHandler_ranged (e := { e with buffer := { e.buffer with
        labels := e.buffer.labels.setIfInBounds id (.bound e.buffer.offset) } }) (hr.congr (Nat.le_refl _) ⟨rfl, rfl⟩)
      exact ⟨(hc handler).1, fun {_} hs => (hc handler).2.1.trans (Option.some.inj hs), (hc handler).2.2⟩
    | _ => cases hl

theorem addAll_ranged {method} : ∀ {lines : List Line} {e e' : Emission},
    addAll method lines e = .ok e' → e.Ranged → e'.Ranged ∧ (∀ {position}, position < e.buffer.offset →
      inEffect e'.ranges.toList position = inEffect e.ranges.toList position) ∧
      ((∀ line ∈ lines, line.handler? = none) → e'.handler = e.handler)
  | [], _, _, h, hr => by
    cases h
    exact ⟨hr, fun _ => rfl, fun _ => rfl⟩
  | line :: rest, e, e', h, hr => by
    obtain ⟨e₁, hl, hre⟩ := addAll_cons h
    obtain ⟨hr₁, -, hb₁⟩ := hl.ranged hr
    obtain ⟨hr', hbe, hh⟩ := addAll_ranged hre hr₁
    refine ⟨hr', fun {position} hlt => ?_, fun hn => ?_⟩
    · have ho := hl.added.offset
      rw [hbe (by omega), hb₁ hlt]
    · obtain ⟨hn, hne⟩ := forall_mem_cons.mp hn
      rw [hh hne, (hl.same hn).2]

/-! ## Blocks and stops in the lines -/

section
variable {m : Linear.Method} {a : Allocation} {id index : Nat} {b : Linear.Block}

/-- The position where the code of a block starts. -/
def blockPosition (a : Allocation) (m : Linear.Method) (id : Nat) : Nat := codeSize (linesBeforeBlock a m id)

theorem blockPosition_pos (a : Allocation) (m : Linear.Method) (id : Nat) : 0 < blockPosition a m id := by
  simp only [blockPosition, linesBeforeBlock, prologue, codeSize_append, codeSize, Line.size]
  omega

/-- No block starts within an instruction. -/
theorem handler?_insn {i line} (hl : line ∈ insn m a id index i) : line.handler? = none := by
  cases shaped_insn m id index i line hl <;> rfl

section
variable (hb : m.blocks[id]? = some b)
include hb

theorem blocks_split :
    m.blocks.toList = m.blocks.toList.take id ++ b :: m.blocks.toList.drop (id + 1) ∧
      (m.blocks.toList.take id).length = id := by
  rw [← Array.getElem?_toList] at hb
  obtain ⟨hlt, hg⟩ := List.getElem?_eq_some_iff.mp hb
  constructor
  · rw [← hg, getElem_cons_drop, take_append_drop]
  · rw [length_take]
    omega

theorem lines_split :
    ∃ rest, lines m a = linesBeforeBlock a m id ++ (block m a id b ++ rest) := by
  obtain ⟨hs, hl⟩ := blocks_split hb
  refine ⟨((m.blocks.toList.drop (id + 1)).zipIdx (id + 1)).flatMap fun p => block m a p.2 p.1, ?_⟩
  rw [lines_eq, linesBeforeBlock, append_assoc]
  conv => lhs; rw [hs]
  rw [zipIdx_append, hl, flatMap_append, zipIdx_cons, flatMap_cons, Nat.zero_add]

theorem lines_insn {pre rest i} (hi : b.insns = pre ++ i :: rest) :
    ∃ behind, lines m a = linesBefore a m id pre.length ++ (insn m a id pre.length i ++ behind) := by
  obtain ⟨after, hl⟩ := @lines_split m a id b hb
  rw [block_eq, hi, zipIdx_append, flatMap_append, zipIdx_cons, flatMap_cons,
    Nat.zero_add] at hl
  simp only [linesBefore, Method.block_eq hb, hi, take_left]
  simp only [cons_append, append_assoc] at hl ⊢
  exact ⟨_, hl⟩

/-- The start of its block is the last one before a stop, and its instruction follows it. -/
theorem lines_stop {pre rest i} (hi : b.insns = pre ++ i :: rest) {kind bci}
    (hs : i.stop? = some (kind, bci)) (ha : ∀ what, Line.refuse what ∉ lines m a) :
    ∃ inside behind, lines m a = linesBeforeBlock a m id ++
        .block id b.handler :: (inside ++ .insn (stopOpcode kind) (stopOperands kind) :: behind) ∧
      (∀ line ∈ inside, line.handler? = none) ∧
      codeSize (linesBeforeBlock a m id ++ .block id b.handler :: inside) =
        stopPosition a m id pre.length := by
  obtain ⟨tail, hli⟩ := @lines_insn m a id b hb pre rest i hi
  simp only [linesBefore, Method.block_eq hb, hi, take_left, cons_append, append_assoc]
    at hli
  rw [hli] at ha
  simp only [mem_append, mem_cons, not_or] at ha
  obtain ⟨before, after, heq, hbe, -⟩ :=
    insn_of_stop a m id pre.length hs fun what => (ha what).2.2.2.1
  have hto := linesToStop_eq hb hi heq hbe rfl
  refine ⟨pre.zipIdx.flatMap (fun p => insn m a id p.2 p.1) ++
    (before ++ [stopLine m a id pre.length kind bci]), after ++ trapBehind i ++ tail, ?_, ?_, ?_⟩
  · rw [hli, heq]
    simp only [append_assoc, cons_append, nil_append]
  · intro line hl
    rcases mem_append.mp hl with hl | hl
    · obtain ⟨p, hp, hl⟩ := mem_flatMap.mp hl
      exact handler?_insn hl
    · exact handler?_insn (heq.trans (append_cons ..) ▸ mem_append_left _ hl)
  · simp only [stopPosition, linesBefore, hto, Method.block_eq hb, hi, take_left, codeSize_append,
      codeSize, stopLine, Line.size]
    omega

end

/-! ## Handlers of stops -/

variable {e : Emission}

theorem label_block (he : ofMethod m a = .ok e) (hb : m.blocks[id]? = some b) :
    e.buffer.labels[id]? = some (.bound (blockPosition a m id)) := by
  obtain ⟨rest, hli⟩ := @lines_split m a id b hb
  have he : addAll m.key.text (lines m a) (start m) = .ok e := he
  rw [hli] at he
  obtain ⟨e₁, hbe, he⟩ := addAll_append he
  obtain ⟨e₂, hs, hr⟩ := addAll_cons he
  have ho := (added_of_addAll hbe).offset
  rw [show (start m).buffer.offset = 0 from rfl, Nat.zero_add] at ho
  have hl := hs.starts
  rw [ho] at hl
  exact (added_of_addAll hr).bound hl

theorem blockPosition_le (he : ofMethod m a = .ok e) (hb : m.blocks[id]? = some b) :
    blockPosition a m id ≤ e.buffer.offset := by
  obtain ⟨rest, hl⟩ := @lines_split m a id b hb
  rw [(added_of_addAll he).offset, hl, codeSize_append, blockPosition]
  exact Nat.le_trans (Nat.le_add_right _ _) (Nat.le_add_left _ _)

/-- At a stop the handler of its block is in effect. -/
theorem inEffect_stop (he : ofMethod m a = .ok e) (hb : m.blocks[id]? = some b) {pre rest i}
    (hins : b.insns = pre ++ i :: rest) (hst : i.isStop = true) :
    inEffect e.ranges.toList (stopPosition a m id pre.length) = b.handler ∧
      stopPosition a m id pre.length < e.buffer.offset := by
  obtain ⟨kind, bci, hk, -⟩ := Insn.stop?_of_isStop hst
  obtain ⟨inside, behind, hl, hin, hp⟩ :=
    lines_stop hb hins hk (added_of_addAll he).allowed
  have he : addAll m.key.text (lines m a) (start m) = .ok e := he
  rw [hl] at he
  obtain ⟨e₁, hbe, he⟩ := addAll_append he
  obtain ⟨e₂, hbl, he⟩ := addAll_cons he
  obtain ⟨e₃, hm, he⟩ := addAll_append he
  obtain ⟨e₄, hi, hr⟩ := addAll_cons he
  obtain ⟨hr₁, -⟩ := addAll_ranged hbe (start_ranged m)
  obtain ⟨hr₂, hs, -⟩ := hbl.ranged hr₁
  obtain ⟨hr₃, -, hh⟩ := addAll_ranged hm hr₂
  obtain ⟨hr₄, -⟩ := hi.ranged hr₃
  obtain ⟨-, hbeh, -⟩ := addAll_ranged hr hr₄
  have ho₃ : e₃.buffer.offset = stopPosition a m id pre.length := by
    have h₁ := (added_of_addAll hbe).offset
    have h₂ := hbl.added.offset
    have h₃ := (added_of_addAll hm).offset
    have hz : (start m).buffer.offset = 0 := rfl
    simp only [codeSize_append, codeSize] at hp h₂
    omega
  have ho₄ : e₄.buffer.offset = e₃.buffer.offset + 4 := hi.added.offset
  have ho := (added_of_addAll hr).offset
  refine ⟨?_, by omega⟩
  rw [hbeh (by omega), (hi.same rfl).1, hr₃.current (by omega), hh hin, hs rfl]

end
end Emission

/-! ## The finished table -/

theorem CatchTable.handlerAt?_eq (t : CatchTable) (position : Nat) :
    t.handlerAt? position = inEffect t.entries position := by
  unfold CatchTable.handlerAt? inEffect
  cases (t.entries.takeWhile (·.1 ≤ position)).getLast? with
  | none => rfl
  | some r => rfl

namespace Bundle

theorem entries_catchBlocks {method b} : ∀ {ranges : List (Nat × Option Label)}
    {blocks : List Nat}, catchBlocks method b (ranges.map (·.2)) = .ok blocks →
      ((ranges.map (·.1)).zip blocks).map (fun r => (r.1, if r.2 = 0 then none else some r.2)) =
        ranges.map fun r => (r.1, r.2.bind fun label => (b.position label).toOption)
  | [], _, _ => rfl
  | (start, none) :: tail, blocks, h => by
    obtain ⟨rest, hr, rfl⟩ := map_eq_ok.mp h
    simp only [map_cons, zip_cons_cons, entries_catchBlocks hr, if_pos, Option.bind_none]
  | (start, some label) :: tail, blocks, h => by
    simp only [map_cons, catchBlocks] at h
    cases hp : b.position label with
    | error err =>
      rw [hp] at h
      cases h
    | ok position =>
      rw [hp] at h
      dsimp only at h
      by_cases hz : position = 0
      · rw [if_pos hz] at h
        cases h
      · rw [if_neg hz] at h
        obtain ⟨rest, hr, rfl⟩ := map_eq_ok.mp h
        simp only [map_cons, zip_cons_cons, entries_catchBlocks hr, if_neg hz, Option.bind_some, hp]
        rfl

theorem handlerAt?_catchTableOf {method e t} (h : catchTableOf method e = .ok t) (position : Nat) :
    t.handlerAt? position =
      (inEffect e.ranges.toList position).bind fun label => (e.buffer.position label).toOption := by
  obtain ⟨blocks, hbl, rfl⟩ := map_eq_ok.mp h
  rw [CatchTable.handlerAt?_eq, ← inEffect_map, ← entries_catchBlocks hbl]
  rfl

variable {m : Linear.Method} {a : Allocation} {e : Emission} {cm : CompiledMethod} {id : Nat}
  {b : Linear.Block}

section
variable {buffer : Buffer} (he : ofMethod m a = .ok e)
  (hla : ∀ l, l ∉ e.literals.map (·.2) → buffer.labels[l]? = e.buffer.labels[l]?) (hb : m.blocks[id]? = some b)
include he hla hb

theorem labels_block : buffer.labels[id]? = some (.bound (blockPosition a m id)) := by
  have hlt : id < m.blocks.size := (Array.getElem?_eq_some_iff.mp hb).1
  have hl := ((added_of_addAll he).labels (n := m.blocks.size)
    ⟨by simp [Emission.start], fun p hp => nomatch hp⟩).2
  have hn : id ∉ e.literals.map (·.2) := by
    intro hm
    obtain ⟨p, hp, hid⟩ := mem_map.mp hm
    have hle : m.blocks.size ≤ p.2 := hl p hp
    rw [hid] at hle
    omega
  rw [hla id hn, label_block he hb]

theorem position_block : buffer.position id = .ok (blockPosition a m id) := by
  unfold Buffer.position
  rw [labels_block he hla hb]

end

/-- The finished table leads from a stop to where the handler of its block starts, if there is one. -/
theorem Tables.handlerAt_stop (he : ofMethod m a = .ok e) (ht : Tables m a e cm.bundle)
    (hb : m.blocks[id]? = some b) {pre rest i} (hi : b.insns = pre ++ i :: rest) (hs : i.isStop = true)
    (hh : ∀ j, b.handler = some j → j < m.blocks.size) :
    cm.handlerAt? (stopPosition a m id pre.length) =
      b.handler.map (blockPosition a m) := by
  obtain ⟨buffer, hla, hta⟩ := ht.catchTable
  rw [CompiledMethod.handlerAt?, handlerAt?_catchTableOf hta]
  have hef := (inEffect_stop he hb hi hs).1
  show (inEffect e.ranges.toList _).bind (fun label => (buffer.position label).toOption) = _
  rw [hef]
  cases hj : b.handler with
  | none => rfl
  | some j =>
    have hg := Array.getElem?_eq_getElem (hh j hj)
    rw [Option.bind_some, position_block he hla hg]
    rfl

end Bundle
end StackCompiler
