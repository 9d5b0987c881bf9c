/-
The literals of a bundle. Those that are used are packed into slots one
behind the other: scalars the widest first, so that each starts at a multiple
of its width, then references (`slots`).
-/
import Mathlib.Data.List.Nodup
import StackCompiler.Bundle.Install
import StackCompiler.Proofs.LabelPatching
import StackCompiler.Proofs.LinearMachine

namespace StackCompiler

open Convention List Literal

/-! ## Literals -/

namespace Literal

/-- The part of a bundle that a literal belongs to. -/
def part : Literal → BundlePart
  | scalar _ => .scalars
  | reference _ => .references

def width (l : Literal) : Nat := l.value.kind.width

def bytes (l : Literal) : List UInt8 := Bytes.littleEndian l.width l.value.bits.toNat

@[simp] theorem length_bytes (l : Literal) : l.bytes.length = l.width := Bytes.length_littleEndian _ _

theorem width_cases (l : Literal) : l.width = 4 ∨ l.width = 8 := by
  unfold width
  cases l.value <;> simp [Value.kind, Kind.width]

theorem width_dvd {l l' : Literal} (h : l.width ≤ l'.width) : l.width ∣ l'.width := by
  rcases l.width_cases with hl | hl <;> rcases l'.width_cases with hl' | hl' <;> rw [hl, hl'] at h ⊢ <;> omega

end Literal

namespace LiteralPool

/-! ## Slots -/

/-- Literals one behind the other, each with where it starts. -/
def slotsFrom : Nat → List (Literal × Label) → List (Literal × Label × Nat)
  | _, [] => []
  | offset, (literal, label) :: rest => (literal, label, offset) :: slotsFrom (offset + literal.width) rest

/-- The bytes of literals one behind the other. -/
def imageOf (items : List (Literal × Label)) : List UInt8 := items.flatMap fun p => p.1.bytes

@[simp] theorem map_slotsFrom : ∀ (offset : Nat) (items : List (Literal × Label)),
    (slotsFrom offset items).map (fun s => (s.1, s.2.1)) = items
  | _, [] => rfl
  | _, _ :: rest => congrArg _ (map_slotsFrom _ rest)

theorem mem_of_slot {items offset s} (h : s ∈ slotsFrom offset items) : (s.1, s.2.1) ∈ items := by
  rw [← map_slotsFrom offset items]
  exact mem_map_of_mem h

theorem exists_split_of_slot : ∀ {items : List (Literal × Label)} {offset : Nat} {s : Literal × Label × Nat},
    s ∈ slotsFrom offset items → ∃ before behind, items = before ++ (s.1, s.2.1) :: behind ∧
      s.2.2 = offset + (imageOf before).length
  | [], _, _, h => absurd h not_mem_nil
  | item :: rest, offset, s, h => by
    rcases mem_cons.mp h with rfl | h
    · exact ⟨[], rest, rfl, rfl⟩
    · obtain ⟨before, behind, rfl, hs⟩ := exists_split_of_slot h
      refine ⟨item :: before, behind, rfl, ?_⟩
      rw [hs, imageOf, imageOf, flatMap_cons, length_append, length_bytes, Nat.add_assoc]

theorem slot_spec {items offset s} (h : s ∈ slotsFrom offset items) :
    offset ≤ s.2.2 ∧ s.2.2 + s.1.width ≤ offset + (imageOf items).length ∧
      ∀ i b, s.1.bytes[i]? = some b → (imageOf items)[s.2.2 - offset + i]? = some b := by
  obtain ⟨before, behind, rfl, hs⟩ := exists_split_of_slot h
  have him : imageOf (before ++ (s.1, s.2.1) :: behind) = imageOf before ++ (s.1.bytes ++ imageOf behind) := by
    simp [imageOf]
  refine ⟨by omega, ?_, fun i b hb => ?_⟩
  · rw [him, length_append, length_append, length_bytes]
    omega
  · have hi := (List.getElem?_eq_some_iff.mp hb).1
    rw [him, hs, Nat.add_sub_cancel_left, getElem?_append_right (Nat.le_add_right _ _),
      Nat.add_sub_cancel_left, getElem?_append_left hi]
    exact hb

/-- The first of two slots ends before the other one starts. -/
def Before (s s' : Literal × Label × Nat) : Prop := s.2.2 + s.1.width ≤ s'.2.2

theorem pairwise_slotsFrom : ∀ (offset : Nat) (items : List (Literal × Label)),
    (slotsFrom offset items).Pairwise Before
  | _, [] => .nil
  | _, _ :: rest => pairwise_cons.mpr ⟨fun _ hs => (slot_spec hs).1, pairwise_slotsFrom _ rest⟩

theorem aligned_slotsFrom : ∀ {items : List (Literal × Label)} {offset : Nat},
    items.Pairwise (fun p q => q.1.width ≤ p.1.width) → (∀ p ∈ items, p.1.width ∣ offset) →
      ∀ s ∈ slotsFrom offset items, s.1.width ∣ s.2.2
  | [], _, _, _ => fun s hs => absurd hs not_mem_nil
  | item :: rest, offset, hso, hst => by
    rw [pairwise_cons] at hso
    rw [forall_mem_cons] at hst
    refine forall_mem_cons.mpr ⟨hst.1, aligned_slotsFrom hso.2 fun p hp => ?_⟩
    exact Nat.dvd_add (hst.2 p hp) (width_dvd (hso.1 p hp))

/-! ## Packing -/

/-- The scalars among some literals, the widest first. -/
def sortedScalars (used : List (Literal × Label)) : List (Value × Label) :=
  (scalarsOf used).mergeSort fun a b => a.1.kind.width ≥ b.1.kind.width

theorem pairwise_sortedScalars (used : List (Literal × Label)) :
    (sortedScalars used).Pairwise fun p q => q.1.kind.width ≤ p.1.kind.width := by
  refine (pairwise_mergeSort ?_ ?_ _).imp fun h => of_decide_eq_true h
  · intro p q r hpq hqr
    exact decide_eq_true (Nat.le_trans (of_decide_eq_true hqr) (of_decide_eq_true hpq))
  · intro p q
    simpa using Nat.le_total q.1.kind.width p.1.kind.width

/-- The slots of literals in a bundle whose references start as given. -/
def slots (used : List (Literal × Label)) (referenceBase : Nat) : List (Literal × Label × Nat) :=
  slotsFrom 0 ((sortedScalars used).map fun p => (.scalar p.1, p.2)) ++
    slotsFrom referenceBase ((referencesOf used).map fun p => (.reference p.2, p.1))

theorem image_scalar {v image} (h : Convention.dataModel.image v = .ok image) :
    image = (scalar v).bytes := by
  cases v <;> cases h <;> rfl

theorem write_spec : ∀ {scalars : List (Value × Label)} {offset : Nat} {placed placed' : List (Label × Nat)}
    {bytes bytes' : Bytes}, write offset placed bytes scalars = .ok (placed', bytes') →
      placed' = placed ++ (slotsFrom offset (scalars.map fun p => (.scalar p.1, p.2))).map (·.2) ∧
        bytes'.toList = bytes.toList ++ imageOf (scalars.map fun p => (.scalar p.1, p.2))
  | [], offset, placed, placed', bytes, bytes', h => by
    unfold write at h
    split at h
    · cases h
    · cases h
      exact ⟨(append_nil _).symm, (append_nil _).symm⟩
  | (v, label) :: rest, offset, placed, placed', bytes, bytes', h => by
    unfold write at h
    split at h
    · cases h
    · split at h
      · cases h
      next image hi =>
        obtain ⟨hp, hb⟩ := write_spec h
        rw [image_scalar hi] at hb
        constructor
        · rw [hp, append_assoc]
          rfl
        · rw [hb, Array.toList_appendList, append_assoc]
          rfl

theorem map_zipIdx_references (base : Nat) : ∀ (references : List (Label × ObjectRef)) (k : Nat),
    (references.zipIdx k).map (fun p => (p.1.1, base + p.2 * referenceSize)) =
      (slotsFrom (base + k * referenceSize)
        (references.map fun p => (.reference p.2, p.1))).map (·.2)
  | [], _ => rfl
  | (label, r) :: rest, k => by
    have hn : base + k * referenceSize + (reference r).width =
        base + (k + 1) * referenceSize := by
      rw [Nat.add_one_mul, ← Nat.add_assoc]
      rfl
    rw [zipIdx_cons, map_cons, map_zipIdx_references base rest (k + 1), map_cons, slotsFrom,
      hn, map_cons]

/-- The labels of a pool are fixed to slots, and its bytes are those of the literals. -/
theorem pack_spec {used pool} (h : pack used = .ok pool) :
    (∀ base, pool.addresses 0 base = (slots used base).map (·.2)) ∧
      pool.scalarBytes.toList = imageOf ((sortedScalars used).map fun p => (.scalar p.1, p.2)) ∧
      pool.references = referencesOf used := by
  unfold pack at h
  simp only at h
  split at h
  · cases h
  next placed bytes hw =>
    cases h
    obtain ⟨hp, hb⟩ := write_spec hw
    refine ⟨fun base => ?_, hb, rfl⟩
    have hs : placed.map (fun p => (p.1, 0 + p.2)) = placed := by
      rw [map_congr_left fun p _ => by rw [Nat.zero_add], map_id']
    have hr := map_zipIdx_references base (referencesOf used) 0
    rw [Nat.zero_mul, Nat.add_zero] at hr
    rw [slots, map_append, ← hr]
    show placed.map (fun p => (p.1, 0 + p.2)) ++ _ = _
    rw [hs, hp]
    rfl

theorem perm_slots (used : List (Literal × Label)) (base : Nat) :
    ((slots used base).map fun s => (s.1, s.2.1)).Perm used := by
  have hs : ((scalarsOf used).map (fun p => (scalar p.1, p.2)) ++
      (referencesOf used).map fun p => (reference p.2, p.1)).Perm used := by
    induction used with
    | nil => exact .refl _
    | cons item rest ih =>
      obtain ⟨literal, label⟩ := item
      cases literal with
      | scalar v => exact ih.cons _
      | reference r => exact perm_middle.trans (ih.cons _)
  rw [slots, map_append, map_slotsFrom, map_slotsFrom]
  exact (((mergeSort_perm _ _).map _).append_right _).trans hs

theorem aligned_slots {used base} (h : bundleAlignment ∣ base) :
    ∀ s ∈ slots used base, s.1.width ∣ s.2.2 := by
  intro s hs
  rcases mem_append.mp hs with hs | hs
  · have hso : ((sortedScalars used).map fun p => (scalar p.1, p.2)).Pairwise
        fun p q => q.1.width ≤ p.1.width := pairwise_map.mpr (pairwise_sortedScalars used)
    exact aligned_slotsFrom hso (fun p _ => Nat.dvd_zero _) s hs
  · refine aligned_slotsFrom (pairwise_map.mpr (pairwise_of_forall fun _ _ => Nat.le_refl _)) ?_ s hs
    intro q hq
    obtain ⟨r, -, rfl⟩ := mem_map.mp hq
    exact h

end LiteralPool

end StackCompiler
