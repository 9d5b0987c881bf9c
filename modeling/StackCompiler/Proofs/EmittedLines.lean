/-
What the lines of assembly leave behind (`Adds`): the code grows by their size,
stops are where lines mark them, and the start of a block is bound to its
position.
-/
import Mathlib.Data.List.Nodup
import StackCompiler.Emission.Code
import StackCompiler.Proofs.GraphFacts

namespace StackCompiler.Emission

open List

/-- The bytes of code that a line stands for. -/
def Line.size : Line → Nat
  | .insn .. | .toPlace .. | .trap => 4
  | .stop .. | .block .. | .refuse _ => 0

def codeSize : List Line → Nat
  | [] => 0
  | line :: rest => line.size + codeSize rest

theorem codeSize_append (xs ys : List Line) : codeSize (xs ++ ys) = codeSize xs + codeSize ys := by
  induction xs with
  | nil => simp [codeSize]
  | cons line rest ih =>
    simp only [cons_append, codeSize, ih]
    omega

/-- The stop that a line marks at a position. -/
def Line.stopAt? (position : Nat) : Line → Option Stop
  | .stop kind bci slots registers => some ⟨kind, position, bci, slots, registers⟩
  | _ => none

/-- The stops that some lines mark, from a position on. -/
def stopsFrom : Nat → List Line → List Stop
  | _, [] => []
  | position, line :: rest => (line.stopAt? position).toList ++ stopsFrom (position + line.size) rest

theorem stopsFrom_append (position : Nat) (xs ys : List Line) :
    stopsFrom position (xs ++ ys) = stopsFrom position xs ++ stopsFrom (position + codeSize xs) ys := by
  induction xs generalizing position with
  | nil => rfl
  | cons line rest ih =>
    simp only [cons_append, stopsFrom, codeSize, ih, append_assoc, Nat.add_assoc]

theorem stopsFrom_eq_nil {lines} (h : ∀ line ∈ lines, ∀ position, line.stopAt? position = none) (position : Nat) :
    stopsFrom position lines = [] := by
  induction lines generalizing position with
  | nil => rfl
  | cons line rest ih =>
    rw [stopsFrom, h line mem_cons_self, ih fun x hx => h x (mem_cons_of_mem _ hx)]
    rfl

/-! ## One line -/

/-- The start of a block, and nothing else, may change the handler in effect. -/
def Line.handler? : Line → Option (Option Nat)
  | .block _ handler => some handler
  | _ => none

/-- A place gets the label that it has, or, if it is a literal that has none, a new one. -/
inductive Labels (e : Emission) : Place → Label → Emission → Prop
  | block (id : Nat) : Labels e (.block id) id e
  | old {id label} (h : (id, label) ∈ e.literals) : Labels e (.literal id) label e
  | new {id} (h : id ∉ e.literals.map (·.1)) : Labels e (.literal id) e.buffer.labels.size
      { e with
        buffer := { e.buffer with labels := e.buffer.labels.push .unbound }
        literals := e.literals ++ [(id, e.buffer.labels.size)] }

theorem labels_label (e : Emission) (place : Place) : Labels e place (e.label place).1 (e.label place).2 := by
  cases place with
  | block id => exact .block id
  | literal id =>
    rw [show e.label (.literal id) = e.literalLabel id from rfl, literalLabel]
    cases hf : e.literals.lookup id with
    | some label =>
      obtain ⟨before, behind, hs, -⟩ := lookup_eq_some_iff.mp hf
      exact .old (hs ▸ mem_append_right _ mem_cons_self)
    | none =>
      refine .new fun hm => ?_
      obtain ⟨p, hp, rfl⟩ := mem_map.mp hm
      simpa using lookup_eq_none_iff.mp hf p hp

/-- What a line does to the code. -/
inductive Adds (e : Emission) : Line → Emission → Prop
  | insn {o operands w} (h : o.assemble operands = .ok w) :
    Adds e (.insn o operands) { e with buffer := e.buffer.emitWord w }
  | toPlace {o operands place label e₁} (h : Labels e place label e₁) :
    Adds e (.toPlace o operands place) { e₁ with buffer := e₁.buffer.emitToLabel o operands label }
  | stop (kind bci slots registers) :
    Adds e (.stop kind bci slots registers)
      { e with stops := e.stops.push ⟨kind, e.buffer.offset, bci, slots, registers⟩ }
  | trap : Adds e .trap { e with
      buffer := e.buffer.emitWord 0
      inlineData := InlineRun.record e.inlineData ⟨.bytes, e.buffer.offset, trapSize⟩ }
  | block {id} (handler : Option Nat) (h : e.buffer.labels[id]? = some .unbound) :
    Adds e (.block id handler) (changeHandler { e with
      buffer := { e.buffer with labels := e.buffer.labels.setIfInBounds id (.bound e.buffer.offset) } } handler)

theorem adds_of_add {method e e' line} (h : e.add method line = .ok e') : Adds e line e' := by
  cases line with
  | insn opcode operands =>
    simp only [add] at h
    split at h
    next ha =>
      cases h
      exact .insn ha
    next => cases h
  | toPlace opcode operands place =>
    cases h
    exact .toPlace (labels_label e place)
  | stop kind bci slots registers =>
    cases h
    exact .stop kind bci slots registers
  | trap =>
    cases h
    exact .trap
  | block id handler =>
    simp only [add, Buffer.bind] at h
    cases hl : e.buffer.labels[id]? with
    | none =>
      rw [hl] at h
      cases h
    | some l =>
      rw [hl] at h
      cases l with
      | unbound =>
        cases h
        exact .block handler hl
      | bound | fixed => cases h
  | refuse what => cases h

theorem offset_emitWord (b : Buffer) (w : BitVec 32) : (b.emitWord w).offset = b.offset + 4 := by
  simp [Buffer.emitWord, Buffer.emitBytes, Buffer.offset, Bytes.ofWord, Bytes.littleEndian]

theorem changeHandler_buffer (e : Emission) (handler : Option Nat) :
    (e.changeHandler handler).buffer = e.buffer ∧ (e.changeHandler handler).stops = e.stops ∧
      (e.changeHandler handler).literals = e.literals := by
  unfold changeHandler
  split <;> exact ⟨rfl, rfl, rfl⟩

theorem Adds.same {e e' line} (h : Adds e line e') (hl : line.handler? = none) :
    e'.ranges = e.ranges ∧ e'.handler = e.handler := by
  cases h with
  | toPlace h => cases h <;> exact ⟨rfl, rfl⟩
  | block => cases hl
  | _ => exact ⟨rfl, rfl⟩

theorem Adds.starts {e e' id handler} (h : Adds e (.block id handler) e') :
    e'.buffer.labels[id]? = some (.bound e.buffer.offset) := by
  cases h with
  | block _ h =>
    rw [(changeHandler_buffer _ handler).1]
    exact Array.getElem?_setIfInBounds_self_of_lt (Array.getElem?_eq_some_iff.mp h).1

/-! ## All lines -/

/-- Literals have labels of their own. -/
structure Labelled (e : Emission) : Prop where
  ids : (e.literals.map (·.1)).Nodup
  labels : (e.literals.map (·.2)).Nodup
  lt : ∀ p ∈ e.literals, p.2 < e.buffer.labels.size

/-- What lines leave behind. Labels that are bound stay bound, and those of literals are new ones. -/
structure Added (e : Emission) (lines : List Line) (e' : Emission) : Prop where
  offset : e'.buffer.offset = e.buffer.offset + codeSize lines
  stops : e'.stops.toList = e.stops.toList ++ stopsFrom e.buffer.offset lines
  allowed : ∀ what, .refuse what ∉ lines
  words : ∀ {o operands}, .insn o operands ∈ lines → ∃ w, o.assemble operands = .ok w
  bound : ∀ {l p : Nat}, e.buffer.labels[l]? = some (.bound p) → e'.buffer.labels[l]? = some (.bound p)
  labels : ∀ {n : Nat}, (n ≤ e.buffer.labels.size ∧ ∀ p ∈ e.literals, n ≤ p.2) →
    n ≤ e'.buffer.labels.size ∧ ∀ p ∈ e'.literals, n ≤ p.2
  literals : e.literals ⊆ e'.literals
  labelled : e.Labelled → e'.Labelled

theorem Added.trans {e e₁ e' xs ys} (h : Added e xs e₁) (h' : Added e₁ ys e') : Added e (xs ++ ys) e' where
  offset := by rw [h'.offset, h.offset, codeSize_append, Nat.add_assoc]
  stops := by rw [h'.stops, h.stops, h.offset, stopsFrom_append, append_assoc]
  allowed what hm := (mem_append.mp hm).elim (h.allowed what) (h'.allowed what)
  words hm := (mem_append.mp hm).elim h.words h'.words
  bound hl := h'.bound (h.bound hl)
  labels hn := h'.labels (h.labels hn)
  literals := List.Subset.trans h.literals h'.literals
  labelled hl := h'.labelled (h.labelled hl)

theorem Labels.added {e e' place label} (h : Labels e place label e') : Added e [] e' := by
  have hr : Added e [] e := ⟨rfl, (append_nil _).symm, fun _ => not_mem_nil, fun h => absurd h not_mem_nil, id, id,
    List.Subset.refl _, id⟩
  cases h with
  | block | old => exact hr
  | new hid =>
    refine ⟨rfl, hr.stops, hr.allowed, hr.words, fun {l p} h => ?_,
      fun ⟨hs, hl⟩ => ⟨?_, forall_mem_append.mpr ⟨hl, forall_mem_singleton.mpr hs⟩⟩,
      subset_append_left _ _, fun he => ⟨?_, ?_, ?_⟩⟩
    · have hlt : l < e.buffer.labels.size := (Array.getElem?_eq_some_iff.mp h).1
      show (e.buffer.labels.push .unbound)[l]? = _
      rw [Array.getElem?_push_lt hlt, ← Array.getElem?_eq_getElem hlt, h]
    · rw [Array.size_push]
      omega
    · rw [map_append]
      exact he.ids.append (nodup_singleton _) (disjoint_singleton.mpr hid)
    · rw [map_append]
      refine he.labels.append (nodup_singleton _) (disjoint_singleton.mpr fun hm => ?_)
      obtain ⟨p, hp, heq⟩ := mem_map.mp hm
      exact Nat.ne_of_lt (he.lt p hp) heq
    · rw [Array.size_push]
      exact forall_mem_append.mpr ⟨fun p hp => Nat.lt_succ_of_lt (he.lt p hp),
        forall_mem_singleton.mpr (Nat.lt_succ_self _)⟩

theorem Labels.mem {e e' id label} (h : Labels e (.literal id) label e') : (id, label) ∈ e'.literals := by
  cases h with
  | old h => exact h
  | new => exact mem_append_right _ mem_cons_self

theorem Adds.added {e e' line} (h : Adds e line e') : Added e [line] e' := by
  have hs : e.literals ⊆ e.literals := List.Subset.refl _
  cases h with
  | insn h =>
    refine ⟨offset_emitWord .., (append_nil _).symm, by simp, fun hm => ?_, id, id, hs, fun h => { h with }⟩
    cases mem_singleton.mp hm
    exact ⟨_, h⟩
  | toPlace h =>
    exact h.added.trans
      ⟨offset_emitWord .., (append_nil _).symm, by simp, by simp, id, id, List.Subset.refl _, fun h => { h with }⟩
  | stop => exact ⟨rfl, Array.toList_push, by simp, by simp, id, id, hs, fun h => { h with }⟩
  | trap => exact ⟨offset_emitWord .., (append_nil _).symm, by simp, by simp, id, id, hs, fun h => { h with }⟩
  | @block id handler h =>
    obtain ⟨hb, hs, hl⟩ := changeHandler_buffer { e with buffer := { e.buffer with
      labels := e.buffer.labels.setIfInBounds id (.bound e.buffer.offset) } } handler
    refine ⟨?_, ?_, by simp, by simp, fun {l p} hp => ?_, fun hn => ?_, ?_, fun he => ?_⟩
    · rw [hb]
      rfl
    · rw [hs]
      exact (append_nil _).symm
    · have hne : id ≠ l := by
        rintro rfl
        rw [h] at hp
        cases hp
      rw [hb, Array.getElem?_setIfInBounds_ne hne, hp]
    · rw [hb, hl, Array.size_setIfInBounds]
      exact hn
    · rw [hl]
      exact List.Subset.refl _
    · constructor <;> rw [hl]
      · exact he.ids
      · exact he.labels
      · rw [hb, Array.size_setIfInBounds]
        exact he.lt

section
variable {method : String}

theorem addAll_cons_eq (line : Line) (rest : List Line) (e : Emission) :
    addAll method (line :: rest) e = e.add method line >>= addAll method rest := by
  rw [addAll]
  cases e.add method line <;> rfl

theorem addAll_append_eq (xs ys : List Line) (e : Emission) :
    addAll method (xs ++ ys) e = addAll method xs e >>= addAll method ys := by
  induction xs generalizing e with
  | nil => rfl
  | cons line xs ih =>
    rw [cons_append, addAll_cons_eq, addAll_cons_eq]
    cases e.add method line with
    | error err => rfl
    | ok e₁ => exact ih e₁

theorem addAll_cons {line rest e e'} (h : addAll method (line :: rest) e = .ok e') :
    ∃ e₁, Adds e line e₁ ∧ addAll method rest e₁ = .ok e' := by
  rw [addAll_cons_eq] at h
  obtain ⟨e₁, ha, hr⟩ := bind_eq_ok.mp h
  exact ⟨e₁, adds_of_add ha, hr⟩

theorem addAll_append {xs ys e e'} (h : addAll method (xs ++ ys) e = .ok e') :
    ∃ e₁, addAll method xs e = .ok e₁ ∧ addAll method ys e₁ = .ok e' := by
  rw [addAll_append_eq] at h
  exact bind_eq_ok.mp h

/-- What one line does is so after all of them. -/
theorem added_of_addAll : ∀ {lines : List Line} {e e' : Emission}, addAll method lines e = .ok e' → Added e lines e'
  | [], e, _, h => by
    cases h
    exact (Labels.block 0).added
  | _ :: _, _, _, h => by
    obtain ⟨e₁, hl, hr⟩ := addAll_cons h
    exact hl.added.trans (added_of_addAll hr)

end
end StackCompiler.Emission
