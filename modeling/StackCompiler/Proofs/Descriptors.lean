/-
The grammar of method descriptors. The parameters end at the first closing
parenthesis, so there a name has none, while the name of a result may.
-/
import Mathlib.Data.List.TakeDrop
import StackCompiler.Bytecode.Signature

namespace StackCompiler

open List
namespace Signature

/-- Texts of field types with their kinds. A name is not empty and has no character to avoid. -/
inductive FieldType (avoid : List Char) : List Char → Kind → Prop where
  | int {c : Char} (h : c ∈ ['I', 'Z', 'B', 'C', 'S']) : FieldType avoid [c] .int
  | long : FieldType avoid ['J'] .long
  | double : FieldType avoid ['D'] .double
  | word : FieldType avoid ['W'] .word
  | object {name : List Char} (hname : name ≠ []) (h : ∀ c ∈ ';' :: avoid, c ∉ name) :
    FieldType avoid ('L' :: (name ++ [';'])) .reference
  | array {element : List Char} {k : Kind} (h : FieldType avoid element k) :
    FieldType avoid ('[' :: element) .reference

/-- Texts of results. -/
def ResultType (text : List Char) (k : Kind) : Prop := (text = ['V'] ∧ k = .void) ∨ FieldType [] text k

variable {avoid cs text rest : List Char} {k : Kind}

theorem FieldType.ne_void (h : FieldType avoid text k) : k ≠ .void := by
  cases h <;> simp

theorem FieldType.exists_cons (h : FieldType avoid text k) : ∃ c cs, text = c :: cs := by
  cases h <;> simp

theorem FieldType.not_mem (h : FieldType [')'] text k) : ')' ∉ text := by
  induction h with
  | int h =>
    intro hc
    obtain rfl := mem_singleton.mp hc
    revert h
    decide
  | long | double | word => decide
  | object _ h => simpa using h ')' (by simp)
  | array _ ih => simpa using ih

theorem FieldType.avoiding (h : FieldType [] text k) (ho : ∀ c ∈ avoid, c ∉ text) : FieldType avoid text k := by
  induction h with
  | int h => exact .int h
  | long => exact .long
  | double => exact .double
  | word => exact .word
  | object hn h =>
    refine .object hn (forall_mem_cons.mpr ⟨h _ mem_cons_self, fun c hc hm => ho c hc ?_⟩)
    simp [hm]
  | array _ ih => exact .array (ih fun c hc hm => ho c hc (mem_cons_of_mem _ hm))

/-! ## What is read -/

theorem span_eq_iff {x y} {before} :
    cs.span (· ≠ x) = (before, y :: rest) ↔ y = x ∧ cs = before ++ x :: rest ∧ x ∉ before := by
  rw [span_eq_takeWhile_dropWhile, Prod.mk.injEq]
  induction cs generalizing before with
  | nil => simp
  | cons => cases before <;> grind [takeWhile_cons, dropWhile_cons]

/-- A field type is read off the front of a text, whatever follows it. -/
theorem field?_append (h : FieldType avoid text k) : field? (text ++ rest) = some (k, rest) := by
  induction h with
  | int h =>
    simp only [mem_cons, not_mem_nil, or_false] at h
    obtain rfl | rfl | rfl | rfl | rfl := h <;> rfl
  | long | double | word => rfl
  | object hn h =>
    obtain ⟨c, name, rfl⟩ := exists_cons_of_ne_nil hn
    have hs := span_eq_iff.mpr ⟨rfl, @rfl _ (c :: name ++ ';' :: rest), h ';' mem_cons_self⟩
    rw [cons_append, append_assoc, singleton_append, field?, hs]
  | array h ih =>
    rw [cons_append, field?, ih]
    cases h <;> rfl

/-- Nothing but a field type is read off. -/
theorem exists_of_field? (h : field? cs = some (k, rest)) : ∃ text, cs = text ++ rest ∧ ResultType text k := by
  fun_induction field? cs generalizing k with
  | case2 _ c name _ _ hs =>
    cases h
    obtain ⟨-, rfl, hn⟩ := span_eq_iff.mp hs
    exact ⟨'L' :: (c :: name ++ [';']), by simp, .inr (.object (by simp) (by simpa using hn))⟩
  | case6 _ _ _ hv hf ih =>
    cases h
    obtain ⟨element, rfl, ⟨-, hk⟩ | h⟩ := ih hf
    · exact absurd hk hv
    · exact ⟨'[' :: element, rfl, .inr (.array h)⟩
  | case1 | case3 | case4 | case5 | case16 => cases h
  | case7 | case8 | case9 | case10 | case11 =>
    cases h
    exact ⟨[_], rfl, .inr (.int (by decide))⟩
  | case12 =>
    cases h
    exact ⟨_, rfl, .inr .long⟩
  | case13 =>
    cases h
    exact ⟨_, rfl, .inr .double⟩
  | case14 =>
    cases h
    exact ⟨_, rfl, .inr .word⟩
  | case15 =>
    cases h
    exact ⟨_, rfl, .inl ⟨rfl, rfl⟩⟩

/-! ## Parameters and results -/

theorem fields?_cons {fuel} {c} {params} : fields? (fuel + 1) (c :: cs) = some params ↔
    ∃ k rest ks, field? (c :: cs) = some (k, rest) ∧ k ≠ .void ∧ fields? fuel rest = some ks ∧ params = k :: ks := by
  rw [fields?]
  · split
    next hn => simp [hn]
    next hv => simp [hv]
    next hv hf => simp [hf, show _ ≠ _ from hv, eq_comm (a := params)]
  · simp

theorem fields?_flatMap : ∀ {types : List (List Char × Kind)} {fuel : Nat}, (∀ t ∈ types, FieldType avoid t.1 t.2) →
    (types.flatMap (·.1)).length ≤ fuel → fields? fuel (types.flatMap (·.1)) = some (types.map (·.2))
  | [], _, _, _ => by simp [fields?]
  | (text, k) :: types, fuel, h, hf => by
    obtain ⟨ht, hty⟩ := forall_mem_cons.mp h
    have hr := @field?_append _ _ (types.flatMap (·.1)) _ ht
    obtain ⟨c, cs, rfl⟩ := ht.exists_cons
    rw [flatMap_cons, length_append, length_cons] at hf
    obtain ⟨fuel, rfl⟩ : ∃ n, fuel = n + 1 := ⟨fuel - 1, by omega⟩
    exact fields?_cons.mpr ⟨k, _, _, hr, ht.ne_void, fields?_flatMap hty (by omega), rfl⟩

theorem exists_of_fields? : ∀ {fuel : Nat} {cs : List Char} {params : List Kind}, fields? fuel cs = some params →
    ')' ∉ cs → ∃ types : List (List Char × Kind), cs = types.flatMap (·.1) ∧ params = types.map (·.2) ∧
      ∀ t ∈ types, FieldType [')'] t.1 t.2
  | _, [], _, h, _ => by
    rw [fields?] at h
    cases h
    exact ⟨[], by simp⟩
  | 0, _ :: _, _, h, _ => by cases h
  | fuel + 1, c :: cs, params, h, ho => by
    obtain ⟨k, rest, ks, hf, hv, hr, rfl⟩ := fields?_cons.mp h
    obtain ⟨text, hcs, ⟨-, hk⟩ | hte⟩ := exists_of_field? hf
    · exact absurd hk hv
    rw [hcs, mem_append, not_or] at ho
    obtain ⟨types, rfl, rfl, ht⟩ := exists_of_fields? hr ho.2
    exact ⟨(text, k) :: types, hcs, rfl, forall_mem_cons.mpr ⟨hte.avoiding (by simpa using ho.1), ht⟩⟩

/-- **The reader accepts exactly the grammar.** A descriptor is read if and only if it is an opening
parenthesis, the texts of the parameter types, a closing one and the text of the result. -/
theorem parses_exactly_descriptors (descriptor : String) (s : Signature) :
    parse? descriptor = some s ↔ ∃ (types : List (List Char × Kind)) (result : List Char),
      descriptor.toList = '(' :: (types.flatMap (·.1) ++ ')' :: result) ∧ s.params = types.map (·.2) ∧
      (∀ t ∈ types, FieldType [')'] t.1 t.2) ∧ ResultType result s.result := by
  unfold parse?
  constructor
  · intro h
    unfold ofChars? at h
    split at h
    next rest hte =>
      split at h
      next inside _ after hs =>
        obtain ⟨-, rfl, ho⟩ := span_eq_iff.mp hs
        split at h
        next params result hp hr =>
          cases h
          obtain ⟨types, rfl, rfl, hty⟩ := exists_of_fields? hp ho
          obtain ⟨text, rfl, htyp⟩ := exists_of_field? hr
          exact ⟨types, text, by rw [hte, append_nil], rfl, hty, htyp⟩
        next => cases h
      next => cases h
    next => cases h
  · rintro ⟨types, result, hte, hp, hty, hr⟩
    have ho : ')' ∉ types.flatMap (·.1) := by
      intro hm
      obtain ⟨t, ht, hm⟩ := mem_flatMap.mp hm
      exact (hty t ht).not_mem hm
    have hre : field? result = some (s.result, []) := by
      obtain ⟨rfl, hv⟩ | hr := hr
      · rw [hv]
        rfl
      · simpa using @field?_append _ _ [] _ hr
    rw [hte, ofChars?, span_eq_iff.mpr ⟨rfl, rfl, ho⟩]
    simp only [fields?_flatMap hty (Nat.le_refl _), hre, ← hp]

end Signature
end StackCompiler
