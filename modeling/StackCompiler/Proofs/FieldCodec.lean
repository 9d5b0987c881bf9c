/-
Operands and the bits of a field are two forms of one thing.
-/
import StackCompiler.Machine.Template

namespace StackCompiler

open BitVec

theorem Reg.ofCode?_eq_some {n r} : Reg.ofCode? n = some r ↔ r.code.val = n := by
  unfold ofCode?
  constructor
  · intro h
    split at h
    · cases h
      rfl
    · cases h
  · intro h
    subst h
    rw [dif_pos r.code.isLt]

theorem Cond.ofCode?_eq_some {n c} : Cond.ofCode? n = some c ↔ c.code = n := by
  unfold ofCode?
  constructor
  · intro h
    have hlt : n < 15 := (List.getElem?_eq_some_iff.mp h).1
    have ha : ∀ n < 15, ∀ c, all[n]? = some c → c.code = n := by decide
    exact ha n hlt c h
  · intro h
    subst h
    cases c <;> rfl

namespace Field

/-! ## The bits of a field -/

/-- A field inside the instruction word. -/
structure Fits (f : Field) : Prop where
  width : 0 < f.width
  top : f.lo + f.width ≤ 32

section
variable {f : Field} (hf : f.Fits)
include hf

theorem getLsbD_mask (i : Nat) :
    f.mask.getLsbD i = (decide (f.lo ≤ i) && decide (i < f.lo + f.width)) := by
  have ht := hf.top
  rw [mask, span, getLsbD_shiftLeft, getLsbD_ofNat, Nat.one_shiftLeft,
    Nat.testBit_two_pow_sub_one]
  grind

theorem testBit_raw (w : BitVec 32) (i : Nat) :
    (f.raw w).testBit i = (decide (i < f.width) && w.getLsbD (f.lo + i)) := by
  rw [raw, testBit_toNat, getLsbD_ushiftRight, getLsbD_and, getLsbD_mask hf]
  grind

theorem raw_lt (w : BitVec 32) : f.raw w < f.span := by
  rw [span, Nat.one_shiftLeft]
  refine Nat.lt_pow_two_of_testBit _ fun i hi => ?_
  rw [testBit_raw hf, decide_eq_false (by omega), Bool.false_and]

theorem place_raw (w : BitVec 32) : BitVec.ofNat 32 (f.raw w) <<< f.lo = w &&& f.mask := by
  have ht := hf.top
  refine eq_of_getLsbD_eq fun i hi => ?_
  rw [getLsbD_shiftLeft, getLsbD_ofNat, testBit_raw hf, getLsbD_and, getLsbD_mask hf]
  by_cases hlo : f.lo ≤ i
  · rw [Nat.add_sub_cancel' hlo]
    grind
  · grind

theorem raw_place {n} (hn : n < f.span) : f.raw (BitVec.ofNat 32 n <<< f.lo) = n := by
  have ht := hf.top
  rw [span, Nat.one_shiftLeft] at hn
  refine Nat.eq_of_testBit_eq fun i => ?_
  rw [testBit_raw hf, getLsbD_shiftLeft, getLsbD_ofNat, Nat.add_sub_cancel_left]
  by_cases hi : i < f.width
  · grind
  · have hle := Nat.pow_le_pow_right (by decide : 0 < 2) (Nat.le_of_not_lt hi)
    rw [Nat.testBit_lt_two_pow (Nat.lt_of_lt_of_le hn hle), decide_eq_false hi, Bool.false_and]

end

/-! ## Immediates -/

theorem span_eq {f : Field} (h : 0 < f.width) : f.span = 2 * f.half := by
  rw [span, half, Nat.one_shiftLeft, Nat.one_shiftLeft, ← Nat.pow_succ', Nat.succ_eq_add_one,
    Nat.sub_add_cancel h]

theorem half_pos (f : Field) : 0 < f.half := by
  rw [half, Nat.one_shiftLeft]
  exact Nat.two_pow_pos _

def signedOf (f : Field) (n : Nat) : Int := if n < f.half then n else (n : Int) - f.span

section
variable {f : Field} {mnemonic : String} {v : Int} {n : Nat}

theorem scaled_eq_ok : f.scaled mnemonic v = .ok n ↔
    v % f.scale = 0 ∧ f.range.1 ≤ v ∧ v ≤ f.range.2 ∧ n = ((v / f.scale) % f.span).toNat := by
  unfold scaled
  split
  · simp_all
  · split
    · simp only [reduceCtorEq, false_iff]
      omega
    · simp only [Except.ok.injEq]
      omega

theorem scaled_eq_ok_iff (hs : 0 < f.scale) {lower upper : Int}
    (hr : f.range = (lower * f.scale, upper * f.scale)) : f.scaled mnemonic v = .ok n ↔
      ∃ q, v = q * f.scale ∧ lower ≤ q ∧ q ≤ upper ∧ n = (q % f.span).toNat := by
  have hp : (0 : Int) < f.scale := Int.natCast_pos.mpr hs
  rw [scaled_eq_ok, hr]
  constructor
  · rintro ⟨hmo, hl, hu, hn⟩
    have hv : v = v / f.scale * f.scale := (Int.ediv_mul_cancel (Int.dvd_of_emod_eq_zero hmo)).symm
    refine ⟨v / f.scale, hv, ?_, ?_, hn⟩
    · rw [hv] at hl
      exact Int.le_of_mul_le_mul_right hl hp
    · rw [hv] at hu
      exact Int.le_of_mul_le_mul_right hu hp
  · rintro ⟨q, rfl, hl, hu, hn⟩
    rw [Int.mul_ediv_cancel q (Int.ne_of_gt hp)]
    exact ⟨Int.mul_emod_left q f.scale, Int.mul_le_mul_of_nonneg_right hl (Int.le_of_lt hp),
      Int.mul_le_mul_of_nonneg_right hu (Int.le_of_lt hp), hn⟩

theorem scaled_unsigned (hk : f.kind = .unsigned) (hs : 0 < f.scale) :
    f.scaled mnemonic v = .ok n ↔ n < f.span ∧ v = n * f.scale := by
  have hr : f.range = (0 * (f.scale : Int), ((f.span : Int) - 1) * f.scale) := by
    rw [range, hk, Int.zero_mul]
  rw [scaled_eq_ok_iff hs hr]
  constructor
  · rintro ⟨q, rfl, hl, hu, rfl⟩
    rw [Int.emod_eq_of_lt hl (by omega), Int.toNat_of_nonneg hl]
    exact ⟨by omega, rfl⟩
  · rintro ⟨hn, rfl⟩
    refine ⟨n, rfl, by omega, by omega, ?_⟩
    rw [Int.emod_eq_of_lt (by omega) (by omega), Int.toNat_natCast]

theorem scaled_signed (hk : f.kind = .signed ∨ f.kind = .pcRelative) (hw : 0 < f.width)
    (hs : 0 < f.scale) : f.scaled mnemonic v = .ok n ↔ n < f.span ∧ v = f.signedOf n * f.scale := by
  have hsp := span_eq hw
  have hp := f.half_pos
  have hr : f.range = (-(f.half : Int) * f.scale, ((f.half : Int) - 1) * f.scale) := by
    unfold range
    rcases hk with hk | hk <;> rw [hk]
  rw [scaled_eq_ok_iff hs hr]
  unfold signedOf
  constructor
  · rintro ⟨q, rfl, hl, hu, rfl⟩
    by_cases hq : 0 ≤ q
    · rw [Int.emod_eq_of_lt hq (by omega), Int.toNat_of_nonneg hq, if_pos (by omega)]
      exact ⟨by omega, rfl⟩
    · have hmo : q % (f.span : Int) = q + f.span := by
        rw [← Int.add_emod_right, Int.emod_eq_of_lt (by omega) (by omega)]
      rw [hmo, Int.toNat_of_nonneg (by omega), if_neg (by omega), Int.add_sub_cancel]
      exact ⟨by omega, rfl⟩
  · rintro ⟨hn, rfl⟩
    split
    · refine ⟨n, rfl, by omega, by omega, ?_⟩
      rw [Int.emod_eq_of_lt (by omega) (by omega), Int.toNat_natCast]
    · refine ⟨(n : Int) - f.span, rfl, by omega, by omega, ?_⟩
      rw [Int.sub_emod_right, Int.emod_eq_of_lt (by omega) (by omega), Int.toNat_natCast]

end

/-! ## Operands -/

/-- The operand that a content means. -/
def reading? (f : Field) (n : Nat) : Option Operand :=
  match f.kind with
  | .gpr _ => (Reg.ofCode? n).map .reg
  | .fpr => some (.fpr n)
  | .condition => (Cond.ofCode? n).map .cond
  | .unsigned => some (.imm (n * f.scale))
  | .signed => some (.imm (f.signedOf n * f.scale))
  | .pcRelative => some (.rel (f.signedOf n * f.scale))

theorem decode?_eq_reading (f : Field) (w : BitVec 32) : f.decode? w = f.reading? (f.raw w) := rfl

/-- A field as one of the constructors makes it. -/
inductive Made : Field → Prop
  | gpr (name : String) (lo : Nat) : Made (.gpr name lo)
  | gprSp (name : String) (lo : Nat) : Made (.gprSp name lo)
  | fpr (name : String) (lo : Nat) : Made (.fpr name lo)
  | unsigned (name : String) (lo width scale : Nat) : Made (.unsigned name lo width scale)
  | signed (name : String) (lo width scale : Nat) : Made (.signed name lo width scale)
  | pcRelative (name : String) (lo width : Nat) : Made (.pcRelative name lo width)
  | condition (name : String) (lo : Nat) : Made (.condition name lo)

/-- Whether one of the constructors makes the field. -/
def isMade (f : Field) : Bool :=
  match f.kind with
  | .gpr _ | .fpr => f.width = 5 && f.scale = 1
  | .condition => f.width = 4 && f.scale = 1
  | .pcRelative => f.scale = 4
  | .unsigned | .signed => true

theorem isMade_iff {f : Field} : f.isMade = true ↔ f.Made := by
  constructor
  · obtain ⟨name, lo, width, kind, scale⟩ := f
    cases kind with
    | gpr sp =>
      simp only [isMade, Bool.and_eq_true, decide_eq_true_eq]
      rintro ⟨rfl, rfl⟩
      cases sp
      · exact .gpr name lo
      · exact .gprSp name lo
    | fpr =>
      simp only [isMade, Bool.and_eq_true, decide_eq_true_eq]
      rintro ⟨rfl, rfl⟩
      exact .fpr name lo
    | condition =>
      simp only [isMade, Bool.and_eq_true, decide_eq_true_eq]
      rintro ⟨rfl, rfl⟩
      exact .condition name lo
    | pcRelative =>
      simp only [isMade, decide_eq_true_eq]
      rintro rfl
      exact .pcRelative name lo width
    | unsigned => exact fun _ => .unsigned name lo width scale
    | signed => exact fun _ => .signed name lo width scale
  · intro h
    cases h <;> rfl

instance (f : Field) : Decidable f.Made := decidable_of_iff _ isMade_iff

/-- The number of contents of a field of registers or conditions. -/
def kindSpan? : FieldKind → Option Nat
  | .gpr _ | .fpr => some 32
  | .condition => some 16
  | .unsigned | .signed | .pcRelative => none

theorem Made.span_eq {f : Field} (hm : f.Made) {n} (h : kindSpan? f.kind = some n) : f.span = n := by
  cases hm <;> cases h <;> rfl

section
variable {f : Field} (hm : f.Made) (hf : f.Fits) (hs : 0 < f.scale) {mnemonic : String} {a : Operand}
include hm hf hs

/-- The content of an operand and the operand that a content means are inverse. -/
theorem content_iff {n} : f.content mnemonic a = .ok n ↔ n < f.span ∧ f.reading? n = some a := by
  have hw := hf.width
  have hsp := @hm.span_eq
  unfold content accepts reading?
  cases hk : f.kind with
  | gpr sp =>
    cases a with
    | reg r =>
      have hlt := r.code.isLt
      simp only [hsp (congrArg kindSpan? hk), Option.map_eq_some_iff, Operand.reg.injEq,
        exists_eq_right, Reg.ofCode?_eq_some, Bool.not_true, Bool.false_eq_true, ite_false,
        Except.ok.injEq]
      omega
    | _ => simp
  | fpr =>
    cases a with
    | fpr k =>
      simp only [hsp (congrArg kindSpan? hk), Bool.not_true, Bool.false_eq_true, ite_false,
        Option.some.injEq, Operand.fpr.injEq]
      split
      · simp only [reduceCtorEq, false_iff]
        omega
      · simp only [Except.ok.injEq]
        omega
    | _ => simp
  | condition =>
    cases a with
    | cond c =>
      have hlt : c.code < 16 := by cases c <;> decide
      simp only [hsp (congrArg kindSpan? hk), Option.map_eq_some_iff, Operand.cond.injEq,
        exists_eq_right, Cond.ofCode?_eq_some, Bool.not_true, Bool.false_eq_true, ite_false,
        Except.ok.injEq]
      omega
    | _ => simp
  | unsigned =>
    cases a with
    | imm v => simp [scaled_unsigned hk hs, eq_comm]
    | _ => simp
  | signed =>
    cases a with
    | imm v => simp [scaled_signed (.inl hk) hw hs, eq_comm]
    | _ => simp
  | pcRelative =>
    cases a with
    | rel v => simp [scaled_signed (.inr hk) hw hs, eq_comm]
    | _ => simp

omit hm hf hs in
theorem encode_eq_ok {bits} : f.encode mnemonic a = .ok bits ↔
    ∃ n, f.content mnemonic a = .ok n ∧ BitVec.ofNat 32 n <<< f.lo = bits := by
  unfold encode
  cases f.content mnemonic a with
  | error e => simp [Except.map]
  | ok n => simp [Except.map]

theorem encode_masked {bits} (h : f.encode mnemonic a = .ok bits) : bits &&& f.mask = bits := by
  obtain ⟨n, hn, rfl⟩ := encode_eq_ok.mp h
  rw [← place_raw hf, raw_place hf ((content_iff hm hf hs).mp hn).1]

/-- A word has an operand in a field exactly when it has its bits there. -/
theorem decode?_eq_some_iff {w} :
    f.decode? w = some a ↔ f.encode mnemonic a = .ok (w &&& f.mask) := by
  rw [decode?_eq_reading, encode_eq_ok]
  constructor
  · intro h
    exact ⟨f.raw w, (content_iff hm hf hs).mpr ⟨raw_lt hf w, h⟩, place_raw hf w⟩
  · rintro ⟨n, hn, heq⟩
    obtain ⟨hlt, hr⟩ := (content_iff hm hf hs).mp hn
    rw [← place_raw hf] at heq
    have hra := congrArg f.raw heq
    rw [raw_place hf hlt, raw_place hf (raw_lt hf w)] at hra
    rw [← hra, hr]

end
end Field
end StackCompiler
