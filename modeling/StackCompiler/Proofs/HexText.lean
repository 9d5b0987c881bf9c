/-
The language of hexadecimal text. `Spells` relates characters to bytes; digits are
said by their places in the two alphabets and not by the reader. A text is
misread exactly if it is accepted and has a plus sign, which counts as a zero.
-/
import StackCompiler.CommandLine.Run

namespace StackCompiler.Hex

open List

/-- A hexadecimal digit of either case, with its value. -/
def Digit (c : Char) (d : Nat) : Prop :=
  "0123456789abcdef".toList[d]? = some c ∨ "0123456789ABCDEF".toList[d]? = some c

/-- What may begin a pair for the reader. -/
def Lead (c : Char) (d : Nat) : Prop := Digit c d ∨ c = '+' ∧ d = 0

/-- Characters spell bytes, each by a first character and a digit. -/
inductive Spells (first : Char → Nat → Prop) : List Char → List UInt8 → Prop
  | nil : Spells first [] []
  | cons {a b : Char} {high low : Nat} {cs : List Char} {bs : List UInt8} (ha : first a high) (hb : Digit b low)
      (h : Spells first cs bs) : Spells first (a :: b :: cs) (UInt8.ofNat (16 * high + low) :: bs)

/-- The characters of a text that are not blank. -/
def visible (s : String) : List Char := s.toList.filter (!Text.isBlank ·)

variable {cs : List Char} {bs : List UInt8} {c : Char} {d : Nat}

instance : Decidable (Digit c d) := inferInstanceAs (Decidable (_ ∨ _))

theorem digit?_eq_some : digit? c = some d ↔ Digit c d := by
  have ascii : ∀ n < 128, ∀ d < 16, digit? (Char.ofNat n) = some d ↔ Digit (Char.ofNat n) d := by
    decide +kernel
  have hi : c.toNat < 128 ∧ d < 16 → (digit? c = some d ↔ Digit c d) := by
    intro h
    have := ascii c.toNat h.1 d h.2
    rwa [Char.ofNat_toNat] at this
  constructor
  · intro h
    refine (hi ?_).mp h
    have hle : ∀ {lo hi : Char}, lo ≤ c ∧ c ≤ hi ↔ lo.toNat ≤ c.toNat ∧ c.toNat ≤ hi.toNat := Iff.rfl
    simp only [digit?, hle, Char.reduceToNat] at h
    grind
  · intro h
    refine (hi ?_).mpr h
    have hs : ∀ cs : List Char, cs.length = 16 → (∀ x ∈ cs, x.toNat < 128) → cs[d]? = some c →
        c.toNat < 128 ∧ d < 16 := by
      intro cs hl hx h
      obtain ⟨hd, rfl⟩ := List.getElem?_eq_some_iff.mp h
      exact ⟨hx _ (getElem_mem hd), hl ▸ hd⟩
    exact h.elim (hs _ rfl (by simp)) (hs _ rfl (by simp))

theorem not_digit_plus : ¬ Digit '+' d := by
  intro h
  have := digit?_eq_some.mpr h
  cases this

theorem pair?_eq_some {a b} {x} :
    pair? a b = some x ↔ ∃ high low, Lead a high ∧ Digit b low ∧ UInt8.ofNat (16 * high + low) = x := by
  simp only [pair?, Lead, ← digit?_eq_some]
  split
  next ha =>
    subst ha
    simp [digit?_eq_some, not_digit_plus]
  next ha => simp [ha, Option.bind_eq_some_iff]

theorem pairs_eq_ok : pairs cs = .ok bs ↔ Spells Lead cs bs := by
  fun_induction pairs cs generalizing bs with
  | case1 =>
    constructor
    · rintro ⟨⟩
      exact .nil
    · rintro ⟨⟩
      rfl
  | case2 => exact ⟨nofun, nofun⟩
  | case3 a b rest hp =>
    refine ⟨nofun, ?_⟩
    rintro (_ | ⟨ha, hb, -⟩)
    rw [pair?_eq_some.mpr ⟨_, _, ha, hb, rfl⟩] at hp
    cases hp
  | case4 a b rest x hp ih =>
    constructor
    · intro h
      cases hr : pairs rest with
      | error => rw [hr] at h; cases h
      | ok bs' =>
        obtain ⟨high, low, ha, hb, rfl⟩ := pair?_eq_some.mp hp
        rw [hr] at h
        cases h
        exact .cons ha hb (ih.mp hr)
    · rintro (_ | ⟨ha, hb, h⟩)
      rw [pair?_eq_some.mpr ⟨_, _, ha, hb, rfl⟩] at hp
      cases hp
      rw [ih.mpr h]
      rfl

theorem Spells.even {first} (h : Spells first cs bs) : cs.length % 2 = 0 := by
  induction h with
  | nil => rfl
  | cons _ _ _ ih => simp only [length_cons]; omega

theorem parse_eq_ok {s} {b} : parse s = .ok b ↔ Spells Lead (visible s) b.toList := by
  rw [← pairs_eq_ok, parse, ← visible]
  by_cases ho : (visible s).length % 2 = 0
  · rw [if_neg (by simpa using ho)]
    cases pairs (visible s) with
    | error => exact ⟨nofun, nofun⟩
    | ok bs =>
      constructor
      · rintro ⟨⟩
        rfl
      · rintro ⟨⟩
        rfl
  · rw [if_pos ho]
    exact ⟨nofun, fun h => absurd (pairs_eq_ok.mp h).even ho⟩

theorem Spells.lead (h : Spells Digit cs bs) : Spells Lead cs bs := by
  induction h with
  | nil => exact .nil
  | cons ha hb _ ih => exact .cons (.inl ha) hb ih

theorem Spells.not_mem (h : Spells Digit cs bs) : '+' ∉ cs := by
  induction h with
  | nil => exact not_mem_nil
  | cons ha hb _ ih =>
    rintro (_ | ⟨_, _ | ⟨_, h⟩⟩)
    · exact not_digit_plus ha
    · exact not_digit_plus hb
    · exact ih h

theorem Spells.plain (h : Spells Lead cs bs) (hc : '+' ∉ cs) : Spells Digit cs bs := by
  induction h with
  | nil => exact .nil
  | cons ha hb _ ih =>
    simp only [mem_cons, not_or] at hc
    exact .cons (ha.resolve_right fun h => hc.1 h.1.symm) hb (ih hc.2.2)

theorem spells_bytes (b : Bytes) : Spells Digit (visible (bytes b)) b.toList := by
  have hd : ∀ d < 16, Digit (Nat.digitChar d) d ∧ Text.isBlank (Nat.digitChar d) = false := by decide +kernel
  have hp : ∀ n < 256, (padded 2 n).toList = [Nat.digitChar (n / 16), Nat.digitChar (n % 16)] := by
    simp only [padded, String.toList_ofList]
    decide +kernel
  have hj : visible (bytes b) = b.toList.flatMap fun x => (byte x).toList.filter (!Text.isBlank ·) := by
    simp [visible, bytes, String.toList_join, filter_flatMap, flatMap_map]
  rw [hj]
  induction b.toList with
  | nil => exact .nil
  | cons x bs ih =>
    have hx : x.toNat < 256 := x.toNat_lt
    obtain ⟨hh, hhb⟩ := hd (x.toNat / 16) (by omega)
    obtain ⟨hl, hlb⟩ := hd (x.toNat % 16) (by omega)
    have hs := Spells.cons hh hl ih
    rw [Nat.div_add_mod, UInt8.ofNat_toNat] at hs
    simpa [byte, hp _ hx, hhb, hlb] using hs

/-- **Hexadecimal text is read as it is spelled, but for plus signs**, which may lead a pair in the
place of a zero; other texts are refused. So digits and nothing else are accepted exactly of the
texts that are refused or have no plus sign. Bytes that were written are read back. -/
theorem parse_reads_spelling_iff (s : String) :
    (∀ b, parse s = .ok b ↔ Spells Lead (visible s) b.toList) ∧
    ((∀ b, parse s = .ok b ↔ Spells Digit (visible s) b.toList) ↔ ∀ b, parse s = .ok b → '+' ∉ visible s) ∧
    (∀ file, CommandLine.text file = .ok s →
      (∀ b, CommandLine.code true file = .ok b ↔ parse s = .ok b) ∧
      ((∀ b, parse s ≠ .ok b) → ∃ message, CommandLine.code true file = .error (.input message))) ∧
    ∀ b, parse (bytes b) = .ok b := by
  refine ⟨fun b => parse_eq_ok, ⟨fun h b hs => ((h b).mp hs).not_mem, fun h b => ⟨fun hs => ?_, fun hs => ?_⟩⟩,
    fun file hf => ?_, fun b => parse_eq_ok.mpr (spells_bytes b).lead⟩
  · exact (parse_eq_ok.mp hs).plain (h b hs)
  · exact parse_eq_ok.mpr hs.lead
  · have hc : CommandLine.code true file = CommandLine.text file >>= fun digits => _ := rfl
    rw [hc, hf]
    cases hp : parse s with
    | ok b => simp [hp, bind, Except.bind]
    | error fault => cases fault <;> simp [hp, bind, Except.bind]

/-- A plus sign before a digit is accepted, though it is no digit. -/
theorem plus_sign_is_read : parse "+1" = .ok #[1] ∧ ¬ Spells Digit (visible "+1") [1] := by
  have hv : visible "+1" = ['+', '1'] := by decide
  rw [hv]
  refine ⟨parse_eq_ok.mpr ?_, fun h => h.not_mem mem_cons_self⟩
  rw [hv]
  have hl : Lead '+' 0 := .inr ⟨rfl, rfl⟩
  have hd : Digit '1' 1 := by decide
  exact Spells.cons hl hd .nil

end StackCompiler.Hex
