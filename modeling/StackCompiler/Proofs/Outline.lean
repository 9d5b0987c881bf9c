/-
Where the blocks of a method start: the positions that are marked and lie
inside the code, numbered in order, so that a block determines its position.
-/
import StackCompiler.Graph.Build
import StackCompiler.Proofs.GraphFacts

namespace StackCompiler.Graph

open List

namespace Outline

theorem getD_mark (marks : List Nat) : ∀ (xs : Array Bool) (pc : Nat),
    (marks.foldl (·.setIfInBounds · true) xs).getD pc false = true ↔
      pc ∈ marks ∧ pc < xs.size ∨ xs.getD pc false = true := by
  induction marks with
  | nil => intro xs pc; simp
  | cons mark marks ih =>
    intro xs pc
    rw [foldl_cons, ih, getD_setIfInBounds, Array.size_setIfInBounds, mem_cons]
    by_cases h : mark = pc
    · subst h
      by_cases hlt : mark < xs.size
      · simp [hlt]
      · have : xs.getD mark false = false := by
          simp [Array.getD_eq_getD_getElem?, Array.getElem?_eq_none (Nat.le_of_not_lt hlt)]
        simp [hlt, this]
    · simp [h, Ne.symm h]

variable {m : Method} {pc : Nat} {b : BlockId}

theorem mem_leaders : pc ∈ (Outline.of m).leaders ↔ pc < m.code.length ∧ pc ∈ marks m := by
  simp only [Outline.of, mem_filter, mem_range, getD_mark, Array.size_replicate]
  constructor
  · rintro ⟨hlt, ⟨hm, _⟩ | h⟩
    · exact ⟨hlt, hm⟩
    · simp [Array.getD_eq_getD_getElem?, hlt] at h
  · rintro ⟨hlt, hm⟩
    exact ⟨hlt, .inl ⟨hm, hlt⟩⟩

theorem leaders_nodup (m : Method) : (Outline.of m).leaders.Nodup :=
  List.Pairwise.filter _ nodup_range

theorem getElem?_number : ∀ (leaders : List Nat) (blockAt : Array (Option BlockId)) (id pc : Nat),
    leaders.Nodup → (∀ x ∈ leaders, x < blockAt.size) →
    (number blockAt id leaders)[pc]? =
      if pc ∈ leaders then some (some (leaders.idxOf pc + id)) else blockAt[pc]?
  | [], _, _, _, _, _ => by simp [number]
  | start :: rest, blockAt, id, pc, hn, hlt => by
    rw [nodup_cons] at hn
    have hr : ∀ x ∈ rest, x < (blockAt.setIfInBounds start (some id)).size := by
      intro x hx
      rw [Array.size_setIfInBounds]
      exact hlt x (mem_cons_of_mem _ hx)
    rw [number, getElem?_number rest _ (id + 1) pc hn.2 hr]
    by_cases h : start = pc
    · subst h
      simp [hn.1, hlt start mem_cons_self]
    · have hi : (start :: rest).idxOf pc = rest.idxOf pc + 1 := by
        have hne : (start == pc) = false := beq_eq_false_iff_ne.mpr h
        rw [idxOf_cons, hne]
        rfl
      have hm : pc ∈ start :: rest ↔ pc ∈ rest := by simp [Ne.symm h]
      simp only [hm, hi, Array.getElem?_setIfInBounds, h, if_false]
      split
      · congr 2
        omega
      · rfl

theorem block?_of (m : Method) (pc : Nat) :
    (Outline.of m).block? pc =
      if pc ∈ (Outline.of m).leaders then some ((Outline.of m).leaders.idxOf pc + 1) else none := by
  have h := getElem?_number (Outline.of m).leaders (Array.replicate m.code.length none) 1 pc
    (leaders_nodup m) (by
      intro x hx
      rw [Array.size_replicate]
      exact (mem_leaders.mp hx).1)
  have hb : (Outline.of m).blockAt =
      number (Array.replicate m.code.length none) 1 (Outline.of m).leaders := rfl
  rw [block?, hb, h]
  split
  · rfl
  · rw [Array.getElem?_replicate]
    split <;> rfl

theorem block?_eq_some :
    (Outline.of m).block? pc = some b ↔
      pc ∈ (Outline.of m).leaders ∧ b = (Outline.of m).leaders.idxOf pc + 1 := by
  rw [block?_of]
  split
  · next h => simp [h, eq_comm]
  · next h => simp [h]

theorem block?_inj {pc'} (h : (Outline.of m).block? pc = some b) (h' : (Outline.of m).block? pc' = some b) :
    pc = pc' := by
  obtain ⟨hm, hb⟩ := block?_eq_some.mp h
  obtain ⟨hm', hb'⟩ := block?_eq_some.mp h'
  exact (idxOf_inj hm).mp (Nat.succ.inj (hb.symm.trans hb'))

theorem block?_pos (h : (Outline.of m).block? pc = some b) :
    0 < b ∧ b ≤ (Outline.of m).leaders.length := by
  obtain ⟨hm, rfl⟩ := block?_eq_some.mp h
  exact ⟨Nat.succ_pos _, idxOf_lt_length_of_mem hm⟩

theorem isLeader_iff : (Outline.of m).isLeader pc = true ↔ pc ∈ (Outline.of m).leaders := by
  rw [isLeader, block?_of]
  split
  · next h => simp [h]
  · next h => simp [h]

theorem marksOf_cons (pc : Nat) (insn : Instruction) (rest : List Instruction) :
    marksOf pc (insn :: rest) = marksOf pc [insn] ++ marksOf (pc + 1) rest := by
  simp only [marksOf]
  split
  · rfl
  · split <;> rfl

theorem mem_marksOf {insn t} : ∀ {code : List Instruction} {base i : Nat}, code[i]? = some insn →
    t ∈ marksOf (base + i) [insn] → t ∈ marksOf base code
  | [], _, _, h, _ => by cases h
  | first :: rest, base, 0, h, ht => by
    cases h
    rw [marksOf_cons]
    exact mem_append_left _ ht
  | first :: rest, base, i + 1, h, ht => by
    rw [marksOf_cons]
    exact mem_append_right _ (mem_marksOf h (Nat.add_right_comm base 1 i ▸ ht))

/-- What an instruction marks starts a block. -/
theorem mem_leaders_of_mark {insn t} (h : m.code[pc]? = some insn) (ht : t ∈ marksOf pc [insn])
    (hlt : t < m.code.length) : t ∈ (Outline.of m).leaders := by
  refine mem_leaders.mpr ⟨hlt, mem_cons_of_mem _ (mem_append_left _ (mem_marksOf h ?_))⟩
  rwa [Nat.zero_add]

theorem mem_leaders_of_target {target t insn} (h : m.code[pc]? = some insn) (ht : insn.target? = some target)
    (hm : t = target ∨ t = pc + 1) (hlt : t < m.code.length) :
    t ∈ (Outline.of m).leaders :=
  mem_leaders_of_mark h (by simpa [marksOf, ht] using hm) hlt

/-! ## The check of positions -/

theorem badTarget?_eq_none {size} : ∀ {code : List Instruction} {pc : Nat},
    badTarget? size pc code = none ↔ ∀ insn ∈ code, ∀ target ∈ insn.target?, target < size
  | [], _ => by simp [badTarget?]
  | insn :: rest, pc => by
    rw [forall_mem_cons, badTarget?]
    split
    · next target ht =>
      split
      · next hge =>
        simp only [reduceCtorEq, ht, Option.mem_some, false_iff, not_and]
        exact fun h => absurd (h target rfl) (Nat.not_lt_of_le hge)
      · next hlt =>
        have hl' : target < size := Nat.lt_of_not_le hlt
        simp [badTarget?_eq_none, ht, hl']
    · next ht => simp [badTarget?_eq_none, ht]

theorem badHandler?_eq_none {size handlers} :
    badHandler? size handlers = none ↔
      ∀ x ∈ handlers, x.start < x.stop ∧ x.stop ≤ size ∧ x.entry < size := by
  rw [badHandler?, findIdx?_eq_none_iff]
  refine forall₂_congr fun x _ => ?_
  simp only [Bool.or_eq_false_iff, decide_eq_false_iff_not]
  omega

theorem check_eq_ok {name} :
    check name m = .ok () ↔ m.code ≠ [] ∧
      (∀ insn ∈ m.code, ∀ target ∈ insn.target?, target < m.code.length) ∧
      ∀ x ∈ m.handlers, x.start < x.stop ∧ x.stop ≤ m.code.length ∧ x.entry < m.code.length := by
  rw [← @badTarget?_eq_none _ _ 0, ← badHandler?_eq_none, ← length_pos_iff]
  unfold check
  simp only
  split
  · next h => simp [h]
  · next h =>
    have hp : 0 < m.code.length := Nat.pos_of_ne_zero h
    split
    · next hb => simp [hb]
    · next hb =>
      split
      · next hb' => simp [hb']
      · next hb' => simp [hp, hb, hb']

theorem entry_mem_leaders {name} (h : check name m = .ok ()) {x} (hx : x ∈ m.handlers) :
    x.entry ∈ (Outline.of m).leaders := by
  obtain ⟨_, _, hh⟩ := check_eq_ok.mp h
  refine mem_leaders.mpr ⟨(hh x hx).2.2, ?_⟩
  simp only [marks, mem_cons, mem_append, mem_flatMap]
  exact .inr (.inr ⟨x, hx, by simp⟩)

end Outline

end StackCompiler.Graph
