/-
Loads of literals. Emission gives each literal that code refers to a label of
its own, which is fixed to the slot of the literal.
-/
import Mathlib.Data.List.Pairwise
import StackCompiler.Proofs.EmittedCode
import StackCompiler.Proofs.Regions

namespace StackCompiler

open Convention List Bytes Emission CodeCache

/-! ## Labels of literals -/

namespace Emission

variable {e e' : Emission} {method : String}

/-- A line that refers to a place leaves a placeholder with the label of the place. -/
theorem placeholder_addAll {before behind o operands place}
    (h : addAll method (before ++ .toPlace o operands place :: behind) e = .ok e') :
    ∃ e₁ label e₂, addAll method before e = .ok e₁ ∧ Labels e₁ place label e₂ ∧
      addAll method behind { e₂ with buffer := e₂.buffer.emitToLabel o operands label } = .ok e' ∧
      ⟨e.buffer.offset + codeSize before, o, operands, label⟩ ∈ e'.buffer.placeholders.toList := by
  obtain ⟨e₁, hb, h⟩ := addAll_append h
  obtain ⟨_, ha, h⟩ := addAll_cons h
  cases ha with
  | @toPlace _ _ _ label e₂ hl =>
    refine ⟨e₁, label, e₂, hb, hl, h, ?_⟩
    obtain ⟨words, placeholders, -, he⟩ := addAll_drafted h
    have ho : e₂.buffer.offset = e₁.buffer.offset := hl.added.offset
    rw [he.placeholders, ← (added_of_addAll hb).offset, ← ho]
    refine mem_append_left _ ?_
    show _ ∈ (e₂.buffer.placeholders.push _).toList
    rw [Array.toList_push]
    exact mem_append_right _ mem_cons_self

theorem exists_placeholder {before behind o operands id}
    (h : addAll method (before ++ .toPlace o operands (.literal id) :: behind) e = .ok e') :
    ∃ label, (id, label) ∈ e'.literals ∧
      ⟨e.buffer.offset + codeSize before, o, operands, label⟩ ∈ e'.buffer.placeholders.toList := by
  obtain ⟨e₁, label, e₂, -, hl, hbe, hp⟩ := placeholder_addAll h
  exact ⟨label, (added_of_addAll hbe).literals hl.mem, hp⟩

theorem labelled_ofMethod {m a} (h : ofMethod m a = .ok e) : e.Labelled :=
  (added_of_addAll h).labelled ⟨nodup_nil, nodup_nil, fun _ hp => absurd hp not_mem_nil⟩

/-- Some line refers to a literal. -/
def Uses (lines : List Line) (id : LiteralId) : Prop :=
  ∃ o operands, Line.toPlace o operands (.literal id) ∈ lines

end Emission

/-! ## Slots in a bundle -/

namespace Bundle

/-- A literal stands at a place in the image of a bundle. -/
structure Holds (b : Bundle) (literal : Literal) (place : Nat) : Prop where
  start : b.ownLayout.offset literal.part ≤ place
  stop : place + literal.width ≤ b.ownLayout.stop literal.part
  aligned : literal.width ∣ place
  bytes : ∀ i byte, literal.bytes[i]? = some byte → (b.image b.ownLayout)[place + i]? = some byte

theorem offsets_le (b : Bundle) : b.scalars.size ≤ b.ownLayout.offset .references ∧
    b.ownLayout.stop .references ≤ b.ownLayout.offset .code ∧
    b.ownLayout.offset .code + b.code.size ≤ b.ownLayout.size :=
  ⟨le_alignUp _ _, le_alignUp _ _, codeStop_le_size b⟩

theorem getElem?_image_scalars {b : Bundle} {i : Nat} {byte} (h : b.scalars[i]? = some byte) :
    (b.image b.ownLayout)[i]? = some byte := by
  have hi := (Array.getElem?_eq_some_iff.mp h).1
  obtain ⟨hr, hc, hs⟩ := b.offsets_le
  have hst : b.ownLayout.offset .references ≤ b.ownLayout.stop .references := Nat.le_add_right _ _
  rw [← Array.getElem?_toList] at h
  unfold image
  simp only
  rw [getElem?_overwrite, if_neg (by omega), getElem?_overwrite, if_neg (by omega)]
  have hf : b.ownLayout.offset .scalars + b.scalars.toList.length ≤
      (Array.replicate b.ownLayout.size (0 : UInt8)).size := by
    rw [Array.length_toList, Array.size_replicate]
    show 0 + b.scalars.size ≤ _
    omega
  have hw := has_overwrite hf i byte h
  rwa [show b.ownLayout.offset .scalars + i = i from Nat.zero_add i] at hw

theorem getElem?_image_references {b : Bundle} {i byte}
    (h : (b.references.flatMap fun r => littleEndian referenceSize r.handle.toNat)[i]? = some byte) :
    (b.image b.ownLayout)[b.ownLayout.offset .references + i]? = some byte := by
  obtain ⟨-, hc, hs⟩ := b.offsets_le
  have hl : (b.references.flatMap fun r =>
      littleEndian referenceSize r.handle.toNat).length =
        b.references.length * referenceSize :=
    length_flatMap_of_size (fun _ => length_littleEndian _ _) _
  have hst : b.ownLayout.stop .references =
      b.ownLayout.offset .references + b.references.length * referenceSize := rfl
  have hi := (List.getElem?_eq_some_iff.mp h).1
  unfold image
  simp only
  rw [getElem?_overwrite, if_neg (by omega)]
  exact has_overwrite (by rw [size_overwrite, Array.size_replicate]; omega) i byte h

open LiteralPool

variable {used : List (Literal × Label)} {b : Bundle} {s : Literal × Label × Nat}

theorem aligned_slot (b : Bundle) (hs : s ∈ slots used (b.ownLayout.offset .references)) : s.1.width ∣ s.2.2 :=
  aligned_slots (dvd_alignUp (by decide)) s hs

theorem holds_of_scalar_slot
    (hb : b.scalars.toList = imageOf ((sortedScalars used).map fun p => (.scalar p.1, p.2)))
    (hs : s ∈ slotsFrom 0 ((sortedScalars used).map fun p => (.scalar p.1, p.2))) : b.Holds s.1 s.2.2 := by
  obtain ⟨hsta, hst, hr⟩ := slot_spec hs
  rw [← hb, Array.length_toList] at hst
  have hi := mem_of_slot hs
  obtain ⟨p, -, hp⟩ := mem_map.mp hi
  have hpa : s.1.part = .scalars := congrArg (fun q => q.1.part) hp.symm
  refine ⟨?_, ?_, aligned_slot b (mem_append_left _ hs), fun i byte hby => ?_⟩
  · rw [hpa]
    exact hsta
  · rw [hpa]
    exact hst
  · refine getElem?_image_scalars ?_
    rw [← Array.getElem?_toList, hb]
    exact hr i byte hby

theorem holds_of_reference_slot (hr : b.references = (referencesOf used).map (·.2))
    (hs : s ∈ slotsFrom (b.ownLayout.offset .references) ((referencesOf used).map fun p => (.reference p.2, p.1))) :
    b.Holds s.1 s.2.2 := by
  have hi : imageOf ((referencesOf used).map fun p => (.reference p.2, p.1)) =
      b.references.flatMap fun r => littleEndian referenceSize r.handle.toNat := by
    rw [hr, imageOf, flatMap_map, flatMap_map]
    rfl
  obtain ⟨hst, hsto, hre⟩ := slot_spec hs
  rw [hi, length_flatMap_of_size fun _ => length_littleEndian _ _] at hsto
  obtain ⟨p, -, hp⟩ := mem_map.mp (mem_of_slot hs)
  have hpa : s.1.part = .references := congrArg (fun q => q.1.part) hp.symm
  refine ⟨?_, ?_, aligned_slot b (mem_append_right _ hs), fun i byte hb => ?_⟩
  · rw [hpa]
    exact hst
  · rw [hpa]
    exact hsto
  · have hre := hre i byte hb
    rw [hi] at hre
    have hb := getElem?_image_references hre
    rwa [← Nat.add_assoc, Nat.add_sub_cancel' hst] at hb

/-- The image of a bundle holds each literal at its slot. -/
theorem holds_of_slot {pool} (hp : pack used = .ok pool) (hsc : b.scalars = pool.scalarBytes)
    (hr : b.references = pool.references.map (·.2)) (hs : s ∈ slots used (b.ownLayout.offset .references)) :
    b.Holds s.1 s.2.2 := by
  obtain ⟨-, hb, hpo⟩ := pack_spec hp
  rcases mem_append.mp hs with hs | hs
  · exact holds_of_scalar_slot (hsc ▸ hb) hs
  · exact holds_of_reference_slot (hpo ▸ hr) hs

end Bundle

/-! ## Slots of literals -/

theorem LiteralPool.pairwise_slots {used base}
    (h : (imageOf ((sortedScalars used).map fun p => (.scalar p.1, p.2))).length ≤ base) :
    (slots used base).Pairwise Before := by
  refine pairwise_append.mpr ⟨pairwise_slotsFrom _ _, pairwise_slotsFrom _ _, fun s hs s' hs' => ?_⟩
  obtain ⟨-, hsto, -⟩ := slot_spec hs
  obtain ⟨hst, -, -⟩ := slot_spec hs'
  unfold Before
  omega

theorem LiteralPool.slots_apart {used base}
    (h : (imageOf ((sortedScalars used).map fun p => (.scalar p.1, p.2))).length ≤ base) {s s'}
    (hs : s ∈ slots used base) (hs' : s' ∈ slots used base) (hne : s.2.1 ≠ s'.2.1) : Before s s' ∨ Before s' s := by
  have hp := (pairwise_slots h).imp fun {s s'} h => (Or.inl h : Before s s' ∨ Before s' s)
  have hsy : Std.Symm fun s s' => Before s s' ∨ Before s' s := ⟨fun _ _ h => h.symm⟩
  exact hp.forall hs hs' fun heq => hne (congrArg (fun s => s.2.1) heq)

namespace Bundle
open Emission LiteralPool

theorem fixLabels_fixed {label address} : ∀ {addresses : List (Label × Nat)} {b b' : Buffer},
    fixLabels b addresses = .ok b' → (addresses.map (·.1)).Nodup → (label, address) ∈ addresses →
      b'.labels[label]? = some (.fixed address)
  | [], _, _, _, _, hm => absurd hm not_mem_nil
  | _ :: rest, b, b', h, hn, hm => by
    rw [map_cons, nodup_cons] at hn
    obtain ⟨hl, h⟩ := fixLabels_cons h
    rcases mem_cons.mp hm with rfl | hm
    · rw [labels_fixLabels h hn.1]
      exact Array.getElem?_setIfInBounds_self_of_lt hl
    · exact fixLabels_fixed h hn.2 hm

variable {e : Emission} {m : Linear.Method} {a : Allocation}

/-- The code of a bundle reads each literal from a slot that holds it. -/
structure Stocked (m : Linear.Method) (a : Allocation) (b : Bundle) (words : List (BitVec 32))
    (slot : LiteralId → Nat) : Prop where
  coded : Coded (lines m a) words
  code : b.code.toList = words.flatMap ofWord
  load : ∀ {before behind : List Line} {o : Opcode} {operands : List Operand} {id : LiteralId},
    lines m a = before ++ .toPlace o operands (.literal id) :: behind → ∃ k w, codeSize before = 4 * k ∧
      words[k]? = some w ∧
      o.assemble (operands ++ [.rel (distance (b.codeOffset + codeSize before) (slot id))]) = .ok w
  holds : ∀ {id : LiteralId}, Uses (lines m a) id → b.Holds (m.literals.getD id default) (slot id)
  apart : ∀ {id id' : LiteralId}, Uses (lines m a) id → Uses (lines m a) id' → id ≠ id' →
    slot id + (m.literals.getD id default).width ≤ slot id' ∨
      slot id' + (m.literals.getD id' default).width ≤ slot id

theorem slot_of_literal (m : Linear.Method) {p} (hp : p ∈ e.literals) (base : Nat) :
    ∃ place, (m.literals.getD p.1 default, p.2, place) ∈ slots (usedLiterals m e) base := by
  have hu : (m.literals.getD p.1 default, p.2) ∈ usedLiterals m e :=
    mem_map.mpr ⟨p, (mergeSort_perm _ _).mem_iff.mpr hp, rfl⟩
  obtain ⟨s, hs, heq⟩ := mem_map.mp ((perm_slots (usedLiterals m e) base).mem_iff.mpr hu)
  obtain ⟨hl, hla⟩ := Prod.mk.inj heq
  refine ⟨s.2.2, ?_⟩
  rw [← hl, ← hla]
  exact hs

theorem exists_slot (he : ofMethod m a = .ok e) {id} (hu : Uses (lines m a) id) (base : Nat) :
    ∃ label place, (id, label) ∈ e.literals ∧
      (m.literals.getD id default, label, place) ∈ slots (usedLiterals m e) base := by
  obtain ⟨o, operands, hl⟩ := hu
  obtain ⟨before, behind, hsp⟩ := append_of_mem hl
  rw [ofMethod, hsp] at he
  obtain ⟨label, hm, -⟩ := exists_placeholder he
  obtain ⟨place, hs⟩ := slot_of_literal m hm base
  exact ⟨label, place, hm, hs⟩

theorem nodup_labels (he : e.Labelled) (m : Linear.Method) (base : Nat) :
    ((slots (usedLiterals m e) base).map (·.2.1)).Nodup := by
  have hp := (perm_slots (usedLiterals m e) base).map (·.2)
  rw [map_map, usedLiterals, map_map] at hp
  exact hp.nodup_iff.mpr (((mergeSort_perm _ _).map _).nodup_iff.mpr he.labels)

theorem fixed_slot (he : e.Labelled) {pool} (hp : pack (usedLiterals m e) = .ok pool) {base buffer}
    (hf : fixLabels e.buffer (pool.addresses 0 base) = .ok buffer) {s} (hs : s ∈ slots (usedLiterals m e) base) :
    buffer.labels[s.2.1]? = some (.fixed s.2.2) := by
  obtain ⟨ha, -, -⟩ := pack_spec hp
  refine fixLabels_fixed hf ?_ ?_
  · rw [ha, map_map]
    exact nodup_labels he m base
  · rw [ha]
    exact mem_map_of_mem hs

/-- A load is assembled with the distance to the slot of its literal. -/
theorem ofEmission_stocked {b} (he : ofMethod m a = .ok e) (hb : ofEmission m a e = .ok b) :
    ∃ words slot, Stocked m a b words slot := by
  obtain ⟨-, pool, buffer, buffer', hpa, hsc, hr, hfi, hf⟩ := ofEmission_eq_ok hb
  obtain ⟨-, hby, -⟩ := pack_spec hpa
  obtain ⟨words, hc, hco, hpl⟩ := finish_words he hf (fixLabels_code hfi).1 (fixLabels_code hfi).2
  have hl := labelled_ofMethod he
  have hsl : ∀ id, ∃ place, Uses (lines m a) id → ∃ label, (id, label) ∈ e.literals ∧
      (m.literals.getD id default, label, place) ∈ slots (usedLiterals m e) (b.ownLayout.offset .references) := by
    intro id
    by_cases hu : Uses (lines m a) id
    · obtain ⟨label, place, hm, hs⟩ := exists_slot he hu (b.ownLayout.offset .references)
      exact ⟨place, fun _ => ⟨label, hm, hs⟩⟩
    · exact ⟨0, fun h => absurd h hu⟩
  choose slot hsl using hsl
  refine ⟨words, slot, hc, hco, ?_, ?_, ?_⟩
  · intro before behind o operands id hsp
    have hu : Uses (lines m a) id := ⟨o, operands, hsp ▸ mem_append_right _ mem_cons_self⟩
    obtain ⟨label, hm, hs⟩ := hsl id hu
    have he' : addAll m.key.text (before ++ .toPlace o operands (.literal id) :: behind) (Emission.start m) =
        .ok e := hsp ▸ he
    obtain ⟨label', hm', hp⟩ := exists_placeholder he'
    -- a literal has one label only
    obtain rfl : label' = label :=
      congrArg Prod.snd (inj_on_of_nodup_map hl.ids hm' hm rfl)
    have ho : (Emission.start m).buffer.offset + codeSize before = codeSize before := Nat.zero_add _
    rw [ho] at hp
    obtain ⟨k, w, hk, hw, hre⟩ := hpl _ hp
    exact ⟨k, w, hk, hw, (Buffer.resolve_fixed (fixed_slot hl hpa hfi hs)).symm.trans hre⟩
  · intro id hu
    obtain ⟨label, -, hs⟩ := hsl id hu
    exact holds_of_slot hpa hsc hr hs
  · intro id id' hu hu' hne
    obtain ⟨label, hm, hs⟩ := hsl id hu
    obtain ⟨label', hm', hs'⟩ := hsl id' hu'
    have hla : label ≠ label' := by
      rintro rfl
      exact hne (congrArg Prod.fst (inj_on_of_nodup_map hl.labels hm hm' rfl))
    have hba : (imageOf ((sortedScalars (usedLiterals m e)).map fun p => (.scalar p.1, p.2))).length ≤
        b.ownLayout.offset .references := by
      rw [← hby, Array.length_toList, ← hsc]
      exact b.offsets_le.1
    exact slots_apart hba hs hs' hla

end Bundle
end StackCompiler
