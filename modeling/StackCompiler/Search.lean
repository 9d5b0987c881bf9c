/-
Depth-first search over numbered things, on an explicit stack. What is taken from
the stack is marked, unless it was before; it stays there as one to finish, and
what comes next to it is put on top. When it is finished it goes to the front of
the order, so that a number is listed before everything first found from it.
-/

namespace StackCompiler

open List

/-- The state of a search: what has been seen, and what is finished, last finished first. -/
structure Search where
  seen : Array Bool
  order : List Nat
deriving DecidableEq, Repr

namespace Search

/-- A search that has seen nothing. -/
def start (size : Nat) : Search := ⟨Array.replicate size false, []⟩

/-- Whether a number is not to be visited any more; numbers out of range never are. -/
def isSeen (s : Search) (n : Nat) : Bool := s.seen.getD n true

/-- A search that has seen one more number. -/
def mark (s : Search) (n : Nat) : Search := { s with seen := s.seen.setIfInBounds n true }

/-- The numbers that have not been seen. -/
def unseen (s : Search) : List Nat := (range s.seen.size).filter (!s.isSeen ·)

section
variable {s : Search} {n : Nat} (h : s.isSeen n = false)
include h

theorem lt_size_of_not_seen : n < s.seen.size := by
  rw [isSeen, Array.getD_eq_getD_getElem?] at h
  by_cases hn : n < s.seen.size
  · exact hn
  · rw [Array.getElem?_eq_none (by omega)] at h
    cases h

theorem isSeen_mark (k : Nat) : (s.mark n).isSeen k = true ↔ s.isSeen k = true ∨ k = n := by
  have hn := lt_size_of_not_seen h
  simp only [mark, isSeen, Array.getD_eq_getD_getElem?, Array.getElem?_setIfInBounds]
  by_cases hk : n = k
  · subst hk
    simp [hn]
  · simp [hk, Ne.symm hk]

theorem unseen_perm : s.unseen.Perm (n :: (s.mark n).unseen) := by
  have hn : s.unseen.Nodup := nodup_range.filter _
  have hm : (s.mark n).unseen = s.unseen.erase n := by
    rw [hn.erase_eq_filter, unseen, unseen, filter_filter,
      show (s.mark n).seen.size = s.seen.size from Array.size_setIfInBounds]
    refine filter_congr fun k _ => ?_
    rw [Bool.eq_iff_iff]
    simp [← Bool.not_eq_true, isSeen_mark h, and_comm]
  rw [hm]
  exact perm_cons_erase (mem_filter.mpr ⟨mem_range.mpr (lt_size_of_not_seen h), by simp [h]⟩)

end

/-- Works off the stack. A flag tells the numbers to finish from those to visit. -/
def walk (next : Nat → List Nat) (s : Search) : List (Nat × Bool) → Search
  | [] => s
  | (n, true) :: stack => walk next { s with order := n :: s.order } stack
  | (n, false) :: stack =>
    if s.isSeen n = true then walk next s stack
    else walk next (s.mark n) (((next n).filter (!(s.mark n).isSeen ·)).map (·, false) ++ (n, true) :: stack)
termination_by stack => (s.unseen.flatMap fun n => n :: n :: next n).length + stack.length
decreasing_by
  · exact Nat.lt_succ_self _
  · exact Nat.lt_succ_self _
  · next h =>
    rw [((unseen_perm (eq_false_of_ne_true h)).flatMap_right _).length_eq]
    have hle := length_filter_le (!(s.mark n).isSeen ·) (next n)
    simp only [flatMap_cons, length_append, length_cons, length_map]
    omega

/-- What can be reached from `roots` among the numbers below `size`. -/
def run (size : Nat) (next : Nat → List Nat) (roots : List Nat) : Search :=
  walk next (start size) (roots.map (·, false))

end Search
end StackCompiler
