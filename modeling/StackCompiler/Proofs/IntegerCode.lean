/-
Integer arithmetic in emitted code. Longs are computed on 64 bits, and so are
ints, whose sign is extended afterwards (`BinaryOp.onBits`).
-/
import Mathlib
import StackCompiler.Graph.Fold
import StackCompiler.Proofs.AllocationSound
import StackCompiler.Proofs.Processor

namespace StackCompiler

open List BitVec Allocation Emission Convention

/-! ## Arithmetic on bits -/

/-- What the instructions of an operator compute. -/
def BinaryOp.onBits {w : Nat} (op : BinaryOp) (x y : BitVec w) : BitVec w :=
  match op with
  | add => x + y
  | sub => x - y
  | mul => x * y
  | div => x.sdiv y
  | rem => x - x.sdiv y * y
  | and => x &&& y
  | or => x ||| y
  | xor => x ^^^ y

section
variable {w : Nat} (x y : BitVec w)

theorem sub_eq_ofInt : x - y = BitVec.ofInt w (x.toInt - y.toInt) := by
  refine eq_of_toInt_eq ?_
  rw [toInt_sub, toInt_ofInt]

theorem sdiv_eq_ofInt : x.sdiv y = BitVec.ofInt w (x.toInt.tdiv y.toInt) := by
  refine eq_of_toInt_eq ?_
  rw [toInt_sdiv, toInt_ofInt]

theorem sub_sdiv_mul : x - x.sdiv y * y = BitVec.ofInt w (x.toInt.tmod y.toInt) := by
  have hr : x.toInt.tmod y.toInt = x.toInt - x.toInt.tdiv y.toInt * y.toInt := by
    have hs := Int.mul_tdiv_add_tmod x.toInt y.toInt
    rw [Int.mul_comm] at hs
    omega
  refine eq_of_toInt_eq ?_
  rw [hr, sdiv_eq_ofInt]
  simp

theorem sub_sdiv_mul_eq_srem : x - x.sdiv y * y = x.srem y := by
  rw [sub_sdiv_mul, ← toInt_srem, ofInt_toInt]

end

theorem setWidth_ofInt (i : Int) : (BitVec.ofInt 64 i).setWidth 32 = BitVec.ofInt 32 i := by
  refine eq_of_toInt_eq ?_
  rw [← signExtend_eq_setWidth_of_le _ (by decide), toInt_signExtend, toInt_ofInt,
    toInt_ofInt]
  exact Int.bmod_bmod_of_dvd (by decide)

theorem toInt_signExtend_int (a : BitVec 32) : (a.signExtend 64).toInt = a.toInt :=
  toInt_signExtend_of_le (by decide)

@[simp] theorem setWidth_signExtend_int (a : BitVec 32) : (a.signExtend 64).setWidth 32 = a := by
  rw [BitVec.signExtend, setWidth_ofInt, ofInt_toInt]

/-- Ints may be computed on 64 bits. -/
theorem BinaryOp.low_onBits (op : BinaryOp) (a b : BitVec 32) :
    (op.onBits (a.signExtend 64) (b.signExtend 64)).setWidth 32 = op.onBits a b := by
  cases op with
  | add => rw [onBits, setWidth_add _ _ (by decide), setWidth_signExtend_int, setWidth_signExtend_int]; rfl
  | mul => rw [onBits, setWidth_mul _ _ (by decide), setWidth_signExtend_int, setWidth_signExtend_int]; rfl
  | sub => simp only [onBits, sub_eq_ofInt, setWidth_ofInt, toInt_signExtend_int]
  | div => simp only [onBits, sdiv_eq_ofInt, setWidth_ofInt, toInt_signExtend_int]
  | rem => simp only [onBits, sub_sdiv_mul, setWidth_ofInt, toInt_signExtend_int]
  | and => simp only [onBits, setWidth_and, setWidth_signExtend_int]
  | or => simp only [onBits, setWidth_or, setWidth_signExtend_int]
  | xor => simp only [onBits, setWidth_xor, setWidth_signExtend_int]

variable {c : Value} {op : BinaryOp}

theorem BinaryOp.toBitVec_onInt {a b c} (h : op.onInt a b = some c) :
    c.toBitVec = op.onBits a.toBitVec b.toBitVec := by
  cases op with
  | rem | div =>
    rw [onInt] at h
    split at h
    next => cases h
    next =>
      cases h
      simp only [onBits, sub_sdiv_mul_eq_srem, Int32.toBitVec_mod, Int32.toBitVec_div]
  | _ =>
    cases h
    rfl

theorem BinaryOp.toBitVec_onLong {a b c} (h : op.onLong a b = some c) :
    c.toBitVec = op.onBits a.toBitVec b.toBitVec := by
  cases op with
  | rem | div =>
    rw [onLong] at h
    split at h
    next => cases h
    next =>
      cases h
      simp only [onBits, sub_sdiv_mul_eq_srem, Int64.toBitVec_mod, Int64.toBitVec_div]
  | _ =>
    cases h
    rfl

/-! ## Images -/

/-- The register image of a constant, as a processor holds it. -/
def Value.image (v : Value) : BitVec 64 := v.bits.toBitVec

@[simp] theorem Value.image_int (a : Int32) : (Value.int a).image = a.toBitVec.signExtend 64 := rfl

@[simp] theorem Value.image_long (a : Int64) : (Value.long a).image = a.toBitVec := rfl

def extendSign (x : BitVec 64) : BitVec 64 := (x.setWidth 32).signExtend 64

@[simp] theorem extendSign_signExtend (a : BitVec 32) : extendSign (a.signExtend 64) = a.signExtend 64 := by
  rw [extendSign, setWidth_signExtend_int]

theorem extendSign_extendSign (x : BitVec 64) : extendSign (extendSign x) = extendSign x :=
  extendSign_signExtend _

/-- What is kept of a result: the sign of an int is extended. -/
def Kind.keep (kind : Kind) (x : BitVec 64) : BitVec 64 := if kind = .int then extendSign x else x

theorem BinaryOp.image_eval? {a b} (h : op.eval? a b = some c) (hc : c.kind ≠ .double) :
    c.image = c.kind.keep (op.onBits a.image b.image) := by
  unfold eval? at h
  split at h
  next a b =>
    obtain ⟨c, hf, rfl⟩ := Option.map_eq_some_iff.mp h
    show c.toBitVec.signExtend 64 = extendSign _
    rw [extendSign, Value.image_int, Value.image_int, low_onBits, toBitVec_onInt hf]
  next a b =>
    obtain ⟨c, hf, rfl⟩ := Option.map_eq_some_iff.mp h
    exact toBitVec_onLong hf
  next a b =>
    obtain ⟨c, -, rfl⟩ := Option.map_eq_some_iff.mp h
    exact absurd rfl hc
  next => cases h

theorem Value.image_negate? {a : Value} (h : a.negate? = some c) (hc : c.kind ≠ .double) :
    c.image = c.kind.keep (0#64 - a.image) := by
  cases a with
  | int a =>
    cases h
    show (-a).toBitVec.signExtend 64 = extendSign _
    have hs : (0#64 - a.toBitVec.signExtend 64).setWidth 32 = 0#32 - a.toBitVec :=
      BinaryOp.low_onBits .sub 0#32 a.toBitVec
    rw [extendSign, image_int, hs, Int32.toBitVec_neg, BitVec.zero_sub]
  | long a =>
    cases h
    exact (Int64.toBitVec_neg a).trans (BitVec.zero_sub _).symm
  | double a =>
    cases h
    exact absurd rfl hc
  | word | reference | null => cases h

/-- What the instructions of a conversion compute. -/
def Conversion.onBits : Conversion → BitVec 64 → BitVec 64
  | intToLong, x => x
  | longToInt, x => extendSign x

theorem Conversion.image_eval? {conversion : Conversion} {a}
    (h : conversion.eval? a = some c) : c.image = conversion.onBits a.image := by
  unfold eval? at h
  split at h
  next => cases h; rfl
  next a =>
    cases h
    show a.toInt32.toBitVec.signExtend 64 = (a.toBitVec.setWidth 32).signExtend 64
    have hl : a.toBitVec.signExtend 32 = a.toBitVec.setWidth 32 :=
      signExtend_eq_setWidth_of_le _ (by decide)
    rw [Int64.toBitVec_toInt32, hl]
  next => cases h

/-! ## Running lines -/

namespace Processor

def value (p : Processor) : Location → BitVec 64
  | .register r => p.get r
  | .stack slot => p.load (p.reg .sp + BitVec.ofInt 64 (slot * 8))

/-- Carries out instructions one after the other. -/
def run (p : Processor) : List Emission.Line → Option Processor
  | [] => some p
  | .insn o operands :: rest => (p.execute o operands).bind (run · rest)
  | _ => none

theorem run_append (xs ys : List Emission.Line) : ∀ p : Processor,
    p.run (xs ++ ys) = (p.run xs).bind (·.run ys) := by
  induction xs with
  | nil => intro p; rfl
  | cons line xs ih =>
    intro p
    cases line with
    | insn o operands =>
      show (p.execute o operands).bind (fun q => q.run (xs ++ ys)) =
        ((p.execute o operands).bind fun q => q.run xs).bind _
      rw [Option.bind_assoc]
      exact congrArg _ (funext ih)
    | _ => rfl

/-- Nothing has changed but some registers, the flags and the program counter. -/
structure Keeps (changed : List Reg) (p p' : Processor) : Prop where
  memory : p'.memory = p.memory
  sp : p'.reg .sp = p.reg .sp
  get : ∀ r ∉ changed, p'.get r = p.get r

theorem Keeps.value {changed p p'} (h : Keeps changed p p') {l} (hl : ∀ r, l = .register r → r ∉ changed) :
    p'.value l = p.value l := by
  cases l with
  | register r => exact h.get r (hl r rfl)
  | stack slot => rw [Processor.value, Processor.value, h.sp, load_congr h.memory]

open Emission Convention

/-! ### Symbolic execution -/

section
variable (p : Processor) (d n m x : Reg) (slot : Nat) (rest : List Line)

@[simp] theorem run_nil : p.run [] = some p := rfl

@[simp] theorem run_add : p.run (regs .addReg [d, n, m] :: rest) = (p.set d (p.get n + p.get m)).next.run rest :=
  rfl

@[simp] theorem run_sub : p.run (regs .subReg [d, n, m] :: rest) = (p.set d (p.get n - p.get m)).next.run rest :=
  rfl

@[simp] theorem run_and :
    p.run (regs .andReg [d, n, m] :: rest) = (p.set d (p.get n &&& p.get m)).next.run rest := rfl

@[simp] theorem run_or :
    p.run (regs .orrReg [d, n, m] :: rest) = (p.set d (p.get n ||| p.get m)).next.run rest := rfl

@[simp] theorem run_xor :
    p.run (regs .eorReg [d, n, m] :: rest) = (p.set d (p.get n ^^^ p.get m)).next.run rest := rfl

@[simp] theorem run_sdiv :
    p.run (regs .sdiv [d, n, m] :: rest) = (p.set d ((p.get n).sdiv (p.get m))).next.run rest := rfl

@[simp] theorem run_msub :
    p.run (regs .msub [d, n, m, x] :: rest) = (p.set d (p.get x - p.get n * p.get m)).next.run rest := rfl

@[simp] theorem run_mul : p.run (regs .mul [d, n, m] :: rest) = (p.set d (p.get n * p.get m)).next.run rest := by
  show (p.set d (p.get .zero + p.get n * p.get m)).next.run rest = _
  rw [get_zero, BitVec.zero_add]

@[simp] theorem run_mov : p.run (regs .mov [d, m] :: rest) = (p.set d (p.get m)).next.run rest := by
  show (p.set d (p.get .zero ||| p.get m)).next.run rest = _
  rw [get_zero, zero_or]

@[simp] theorem run_neg : p.run (regs .neg [d, m] :: rest) = (p.set d (0#64 - p.get m)).next.run rest := by
  show (p.set d (p.get .zero - p.get m)).next.run rest = _
  rw [get_zero]

@[simp] theorem run_sxtw : p.run (regs .sxtw [d, n] :: rest) = (p.set d (extendSign (p.get n))).next.run rest := by
  show (p.set d (signedField (p.get n) 0 31)).next.run rest = _
  rw [signedField, if_pos (by decide), extendSign, setWidth_eq_extractLsb' (by decide)]

@[simp] theorem run_load : p.run (Emission.load d slot :: rest) = (p.set d (p.value (.stack slot))).next.run rest := rfl

@[simp] theorem run_store : p.run (Emission.store m slot :: rest) =
    (p.store (p.reg .sp + BitVec.ofInt 64 (slot * 8)) (p.get m)).next.run rest := rfl

end

/-! ### Operands and results -/

/-- A variable that, if it is in a register, is in one for variables. -/
def Placed (a : Allocation) (v : Var) : Prop := ∀ r, a.location v = .register r → r ∈ allocatable

theorem ne_of_mem_allocatable {r} (h : r ∈ allocatable) :
    r ≠ .zero ∧ r ≠ scratch ∧ r ≠ scratch2 ∧ r ≠ scratch3 := by
  revert h
  revert r
  decide

section
variable {a : Allocation} {v : Var} {d l r temp : Reg} (p : Processor)

theorem run_read (ht : temp ≠ .zero) : ∃ p', p.run (read a v temp).1 = some p' ∧ Keeps [temp] p p' ∧
    p'.get (read a v temp).2 = p.value (a.location v) := by
  unfold Emission.read
  cases hl : a.location v with
  | register r => exact ⟨p, rfl, ⟨rfl, rfl, fun _ _ => rfl⟩, rfl⟩
  | stack slot =>
    refine ⟨_, run_load .., ⟨?_, ?_, fun q hq => ?_⟩, ?_⟩
    · rw [memory_next, memory_set]
    · rw [reg_next, sp_set]
    · rw [get_next, get_set_ne _ _ (ne_of_not_mem_cons hq)]
    · rw [get_next, get_set_self _ _ ht]

theorem read_snd (temp : Reg) (hv : Placed a v) : (read a v temp).2 = temp ∨ (read a v temp).2 ∈ allocatable := by
  unfold Emission.read
  cases hl : a.location v with
  | register r => exact .inr (hv r hl)
  | stack slot => exact .inl rfl

theorem dest_ne_zero (hv : Placed a v) (ht : temp ≠ .zero) : dest a v temp ≠ .zero := by
  unfold dest
  cases hl : a.location v with
  | register r => exact (ne_of_mem_allocatable (hv r hl)).1
  | stack slot => exact ht

theorem run_write (source : Reg) (hv : Placed a v) : ∃ p', p.run (write a v source) = some p' ∧
    p'.value (a.location v) = p.get source := by
  unfold write
  cases hl : a.location v with
  | register r =>
    dsimp only
    by_cases heq : r = source
    · rw [if_pos heq, heq]
      exact ⟨p, rfl, rfl⟩
    · rw [if_neg heq]
      refine ⟨_, run_mov .., ?_⟩
      rw [value, get_next, get_set_self _ _ (ne_of_mem_allocatable (hv r hl)).1]
  | stack slot =>
    refine ⟨_, run_store .., ?_⟩
    exact load_store p _ _

/-! ### Arithmetic -/

theorem run_integerArith (op : BinaryOp) (hd : d ≠ .zero) (hl : l ≠ scratch3) (hr : r ≠ scratch3) :
    ∃ p', p.run (integerArith op d l r) = some p' ∧ p'.get d = op.onBits (p.get l) (p.get r) := by
  cases op with
  | add => exact ⟨_, run_add .., get_set_self _ _ hd⟩
  | sub => exact ⟨_, run_sub .., get_set_self _ _ hd⟩
  | mul => exact ⟨_, run_mul .., get_set_self _ _ hd⟩
  | div => exact ⟨_, run_sdiv .., get_set_self _ _ hd⟩
  | and => exact ⟨_, run_and .., get_set_self _ _ hd⟩
  | or => exact ⟨_, run_or .., get_set_self _ _ hd⟩
  | xor => exact ⟨_, run_xor .., get_set_self _ _ hd⟩
  | rem =>
    have hs : scratch3 ≠ .zero := by decide
    refine ⟨_, (run_sdiv ..).trans (run_msub ..), ?_⟩
    rw [get_next, get_set_self _ _ hd]
    simp only [get_next, get_set_self _ _ hs, get_set_ne _ _ hl, get_set_ne _ _ hr]
    rfl

theorem run_extend (kind : Kind) (hd : d ≠ .zero) :
    ∃ p', p.run (extend kind d) = some p' ∧ p'.get d = kind.keep (p.get d) := by
  unfold extend Kind.keep
  by_cases hk : kind = .int
  · rw [if_pos hk, if_pos hk]
    exact ⟨_, run_sxtw .., get_set_self _ _ hd⟩
  · rw [if_neg hk, if_neg hk]
    exact ⟨p, rfl, rfl⟩

theorem run_arith (op : BinaryOp) {kind} (hk : kind ≠ .double) (hd : d ≠ .zero) (hl : l ≠ scratch3)
    (hr : r ≠ scratch3) : ∃ p', p.run (arith op kind d l r) = some p' ∧
      p'.get d = kind.keep (op.onBits (p.get l) (p.get r)) := by
  obtain ⟨p₁, h₁, hg₁⟩ := run_integerArith p op hd hl hr
  obtain ⟨p₂, h₂, hg₂⟩ := run_extend p₁ kind hd
  refine ⟨p₂, ?_, by rw [hg₂, hg₁]⟩
  rw [arith, if_neg hk, run_append, h₁, Option.bind_some, h₂]

theorem run_negate (source : Reg) {kind} (hk : kind ≠ .double) (hd : d ≠ .zero) :
    ∃ p', p.run (negate kind d source) = some p' ∧ p'.get d = kind.keep (0#64 - p.get source) := by
  obtain ⟨p', h, hg⟩ := run_extend (p.set d (0#64 - p.get source)).next kind hd
  refine ⟨p', ?_, ?_⟩
  · rw [negate, if_neg hk, run_neg, h]
  · rw [hg, get_next, get_set_self _ _ hd]

end
end Processor

/-! ## Instructions -/

/-- What an integer instruction computes from the contents of its operands. -/
def Linear.Insn.result? (x : Var → BitVec 64) : Insn → Option (BitVec 64)
  | arith op kind _ lhs rhs => if kind = .double then none else some (kind.keep (op.onBits (x lhs) (x rhs)))
  | negate kind _ src => if kind = .double then none else some (kind.keep (0#64 - x src))
  | convert c _ src => some (c.onBits (x src))
  | _ => none

namespace Processor
open Emission Convention

section
variable {a : Allocation} {dst : Var} (p : Processor)

/-- Two operands are fetched into registers that differ from those that the computation changes. -/
theorem run_operands {lhs rhs} (hlh : Placed a lhs) (hrh : Placed a rhs) :
    ∃ p', p.run ((read a lhs scratch).1 ++ (read a rhs scratch2).1) = some p' ∧
      p'.get (read a lhs scratch).2 = p.value (a.location lhs) ∧
      p'.get (read a rhs scratch2).2 = p.value (a.location rhs) ∧
      (read a lhs scratch).2 ≠ scratch3 ∧ (read a rhs scratch2).2 ≠ scratch3 := by
  have hl : (read a lhs scratch).2 ≠ scratch2 ∧ (read a lhs scratch).2 ≠ scratch3 := by
    rcases read_snd scratch hlh with h | h
    · rw [h]
      decide
    · exact (ne_of_mem_allocatable h).2.2
  have hr : (read a rhs scratch2).2 ≠ scratch3 := by
    rcases read_snd scratch2 hrh with h | h
    · rw [h]
      decide
    · exact (ne_of_mem_allocatable h).2.2.2
  obtain ⟨p₁, h₁, hk₁, hg₁⟩ := run_read (a := a) (v := lhs) p (show scratch ≠ .zero by decide)
  obtain ⟨p₂, h₂, hk₂, hg₂⟩ := run_read (a := a) (v := rhs) p₁ (show scratch2 ≠ .zero by decide)
  refine ⟨p₂, ?_, ?_, ?_, hl.2, hr⟩
  · rw [run_append, h₁, Option.bind_some, h₂]
  · rw [hk₂.get _ (by simpa using hl.1), hg₁]
  · rw [hg₂]
    refine hk₁.value fun r hlo => ?_
    simpa using (ne_of_mem_allocatable (hrh r hlo)).2.1

theorem run_result {p p' : Processor} {lines y} (hd : Placed a dst) (hr : p.run lines = some p')
    (hg : p'.get (dest a dst scratch) = y) :
    ∃ p'', p.run (lines ++ write a dst (dest a dst scratch)) = some p'' ∧ p''.value (a.location dst) = y := by
  obtain ⟨p'', hw, hv⟩ := run_write p' (dest a dst scratch) hd
  exact ⟨p'', by rw [run_append, hr, Option.bind_some, hw], by rw [hv, hg]⟩

/-- The lines of an integer instruction leave its result in the place of its variable. -/
theorem run_insn {m id index i} (hde : i.def? = some dst) (hp : ∀ v ∈ i.vars, Placed a v) {y}
    (hy : i.result? (fun v => p.value (a.location v)) = some y) :
    ∃ p', p.run (insn m a id index i) = some p' ∧ p'.value (a.location dst) = y := by
  have hds : Placed a dst := hp dst (by simp [Linear.Insn.vars, hde])
  have hu : ∀ v ∈ i.uses, Placed a v := fun v hv => hp v (mem_append_left _ hv)
  have hs : scratch ≠ .zero := by decide
  have hd := dest_ne_zero hds hs
  cases i with
  | arith op kind d lhs rhs =>
    cases hde
    obtain ⟨hk, hy⟩ := Option.ite_none_left_eq_some.mp hy
    cases hy
    obtain ⟨p₁, h₁, hl, hr, hl', hr'⟩ := run_operands p (hu lhs mem_cons_self)
      (hu rhs (mem_cons_of_mem _ mem_cons_self))
    obtain ⟨p₂, h₂, hg⟩ := run_arith p₁ op hk hd hl' hr'
    have hru : p.run ((read a lhs scratch).1 ++ (read a rhs scratch2).1 ++
        arith op kind (dest a dst scratch) (read a lhs scratch).2 (read a rhs scratch2).2) = some p₂ := by
      rw [run_append, h₁, Option.bind_some, h₂]
    exact run_result hds hru (by rw [hg, hl, hr])
  | negate kind d src =>
    cases hde
    obtain ⟨hk, hy⟩ := Option.ite_none_left_eq_some.mp hy
    cases hy
    obtain ⟨p₁, h₁, -, hg₁⟩ := run_read (a := a) (v := src) p hs
    obtain ⟨p₂, h₂, hg₂⟩ := run_negate p₁ (read a src scratch).2 hk hd
    have hru : p.run ((read a src scratch).1 ++
        negate kind (dest a dst scratch) (read a src scratch).2) = some p₂ := by
      rw [run_append, h₁, Option.bind_some, h₂]
    exact run_result hds hru (by rw [hg₂, hg₁])
  | convert c d src =>
    cases hde
    cases hy
    obtain ⟨p₁, h₁, -, hg₁⟩ := run_read (a := a) (v := src) p hs
    cases c with
    | intToLong =>
      obtain ⟨p₂, h₂, hva⟩ := run_write p₁ (read a src scratch).2 hds
      refine ⟨p₂, ?_, by rw [hva, hg₁]; rfl⟩
      show p.run ((read a src scratch).1 ++ write a dst (read a src scratch).2) = _
      rw [run_append, h₁, Option.bind_some, h₂]
    | longToInt =>
      have hru : p.run ((read a src scratch).1 ++ [regs .sxtw [dest a dst scratch, (read a src scratch).2]]) =
          some (p₁.set (dest a dst scratch) (extendSign (p₁.get (read a src scratch).2))).next := by
        rw [run_append, h₁, Option.bind_some, run_sxtw, run_nil]
      refine run_result hds hru ?_
      rw [get_next, get_set_self _ _ hd, hg₁]
      rfl
  | _ => cases hy

end
end Processor

/-! ## Folding and code -/

theorem Graph.canThrow_of_evaluate? {g : Graph} {op} (h : g.evaluate? op = some c) :
    op.canThrow = false := by
  cases op <;> first | rfl | cases h

namespace Linear

/-- The instruction of an operator computes the image of what the operator is folded to. -/
theorem NodeCode.result? {S g n i} (h : NodeCode S g n [i]) {c} (hf : g.evaluate? (g.node n).op = some c)
    (hk : (g.node n).kind = c.kind) (hc : c.kind ≠ .double) {x}
    (hx : ∀ y ∈ (g.node n).op.inputs, ∀ v, g.constant? y = some v → x (S.name y) = v.image) :
    i.result? x = some c.image := by
  generalize hco : [i] = code at h
  cases h with
  | binary op hd ha hb =>
    cases hco
    rw [op] at hf hx
    simp only [Graph.evaluate?] at hf
    split at hf
    next a b hl hr =>
      rw [Insn.result?, hk, if_neg hc, ← S.name_eq ha, ← S.name_eq hb,
        hx _ mem_cons_self _ hl, hx _ (mem_cons_of_mem _ mem_cons_self) _ hr,
        BinaryOp.image_eval? hf hc]
    next => cases hf
  | negate op hd ha =>
    cases hco
    rw [op] at hf hx
    simp only [Graph.evaluate?] at hf
    split at hf
    next a hl =>
      rw [Insn.result?, hk, if_neg hc, ← S.name_eq ha, hx _ mem_cons_self _ hl,
        Value.image_negate? hf hc]
    next => cases hf
  | convert op hd ha =>
    cases hco
    rw [op] at hf hx
    simp only [Graph.evaluate?] at hf
    split at hf
    next a hl =>
      rw [Insn.result?, ← S.name_eq ha, hx _ mem_cons_self _ hl, Conversion.image_eval? hf]
    next => cases hf
  | constant op | parameter op | safepoint op | caught op =>
    rw [op] at hf
    cases hf
  | routine op =>
    have hq := Graph.canThrow_of_evaluate? hf
    rw [(routine?_eq_some op).1] at hq
    cases hq
  | indirect op =>
    rw [op] at hf
    cases hf
  | _ => cases hco

namespace Insn

def intUses : Insn → List Var
  | arith _ .int _ lhs rhs => [lhs, rhs]
  | negate .int _ src => [src]
  | convert .intToLong _ src => [src]
  | _ => []

/-- Whether an instruction computes from ints or makes an int of a long. -/
def isIntOperation : Insn → Bool
  | arith _ kind _ _ _ | negate kind _ _ => kind = .int
  | convert .. => true
  | _ => false

theorem exists_result? {i : Insn} (h : i.isIntOperation = true) {x} (hx : ∀ v ∈ i.intUses, extendSign (x v) = x v) :
    ∃ y, i.result? x = some y ∧ extendSign y = y := by
  cases i with
  | arith op kind dst lhs rhs =>
    obtain rfl : kind = .int := of_decide_eq_true h
    exact ⟨_, rfl, extendSign_extendSign _⟩
  | negate kind dst src =>
    obtain rfl : kind = .int := of_decide_eq_true h
    exact ⟨_, rfl, extendSign_extendSign _⟩
  | convert c dst src =>
    cases c with
    | intToLong => exact ⟨_, rfl, hx src mem_cons_self⟩
    | longToInt => exact ⟨_, rfl, extendSign_extendSign _⟩
  | _ => cases h

end Insn
end Linear

theorem Allocation.placed {m} {id : Nat} {b} (hb : m.blocks[id]? = some b)
    {v} (hv : v ∈ b.vars) : Processor.Placed (ofCode m) v := by
  intro r hr
  obtain ⟨l, hl, hp⟩ := exists_place_of_mentioned hb hv
  rw [location_of_entry hl] at hr
  rw [hr] at hp
  exact hp

/-- **Constant folding agrees with the emitted code.** Where folding gives an integer operator the
value `c`, the lines that are emitted for it, run with the images of the operands in their places,
leave the image of `c` in the place of the result. And if ints have their signs extended, so have
the results of operations on ints and of conversions. -/
theorem folding_agrees_with_code {m : Linear.Method} {id : Nat} {b : Linear.Block}
    (hb : m.blocks[id]? = some b) {pre rest : List Linear.Insn} {i : Linear.Insn}
    (hinsns : b.insns = pre ++ i :: rest) {dst : Var} (hdef : i.def? = some dst) (p : Processor) :
    (∀ (S : Linear.Lowering) (g : Graph) (n : NodeId) (c : Value), Linear.NodeCode S g n [i] →
      (g.node n).kind = c.kind → c.kind = .int ∨ c.kind = .long → g.evaluate? (g.node n).op = some c →
      (∀ x ∈ (g.node n).op.inputs, ∀ v, g.constant? x = some v →
        p.value ((ofCode m).location (S.name x)) = v.image) →
      ∃ p', p.run (insn m (ofCode m) id pre.length i) = some p' ∧
        p'.value ((ofCode m).location dst) = c.image) ∧
    (i.isIntOperation = true → (∀ v ∈ i.intUses,
        extendSign (p.value ((ofCode m).location v)) = p.value ((ofCode m).location v)) →
      ∃ p', p.run (insn m (ofCode m) id pre.length i) = some p' ∧
        extendSign (p'.value ((ofCode m).location dst)) =
          p'.value ((ofCode m).location dst)) := by
  have hp : ∀ v ∈ i.vars, Processor.Placed (ofCode m) v := by
    intro v hv
    refine placed hb (mem_append_left _ (mem_flatMap.mpr ⟨i, ?_, hv⟩))
    rw [hinsns]
    exact mem_append_right _ mem_cons_self
  constructor
  · intro S g n c hco hk hc hf hi
    have hd : c.kind ≠ .double := by
      rcases hc with hc | hc <;> rw [hc] <;> decide
    exact p.run_insn hdef hp (hco.result? hf hk hd hi)
  · intro hin he
    obtain ⟨y, hy, hs⟩ := Linear.Insn.exists_result? hin he
    obtain ⟨p', hr, hva⟩ := p.run_insn hdef hp hy
    exact ⟨p', hr, by rw [hva, hs]⟩

def remainderCode : Linear.Method where
  key := ⟨"T", "m", "()I"⟩
  vars := #[.int, .int, .int]
  blocks := #[{ insns := [.arith .rem .int 2 0 1], term := .ret (some 2) }]

/-- The graph that it comes from: the least int modulo -1. -/
def remainderGraph : Graph where
  key := ⟨"T", "m", "()I"⟩
  signature := ⟨[], .int⟩
  nodes := #[⟨.constant (.int (-2147483648)), .int, 0, none⟩, ⟨.constant (.int (-1)), .int, 1, none⟩,
    ⟨.binary .rem 0 1, .int, 2, none⟩]
  blocks := #[]

/-- The least int modulo -1 is folded to zero, and the code leaves zero in the register of the result. -/
theorem folding_agrees_with_code_remainder : ∃ p p' : Processor,
    remainderGraph.evaluate? (remainderGraph.node 2).op = some (.int 0) ∧
    p.value (.register (reg 9)) = (Value.int (-2147483648)).image ∧
    p.value (.register (reg 10)) = (Value.int (-1)).image ∧
    p.run (insn remainderCode (ofCode remainderCode) 0 0 (.arith .rem .int 2 0 1)) =
      some p' ∧
    p'.value (.register (reg 9)) = 0#64 ∧ extendSign 0#64 = 0#64 := by
  have hl : (ofCode remainderCode).location 0 = .register (reg 9) := by cbv
  have hr : (ofCode remainderCode).location 1 = .register (reg 10) := by cbv
  have hd : (ofCode remainderCode).location 2 = .register (reg 9) := by cbv
  let p : Processor := {
    reg := fun r => if r = reg 9 then (Value.int (-2147483648)).image else (Value.int (-1)).image
    flags := ⟨false, false, false, false⟩
    memory := fun _ => 0
    pc := 0#64 }
  have hc : Linear.NodeCode ⟨#[.int, .int, .int], #[some 0, some 1, some 2], #[], #[], 0, #[], none⟩
      remainderGraph 2 [.arith .rem .int 2 0 1] := .binary rfl rfl rfl rfl
  obtain ⟨hf, hs⟩ := folding_agrees_with_code (show remainderCode.blocks[0]? = some _ from rfl)
    (show _ = [] ++ _ :: _ from rfl) rfl p
  obtain ⟨p', hru, hva⟩ := hf _ _ _ (.int 0) hc rfl (.inl rfl) rfl (by
    intro x hx v hv
    rcases mem_cons.mp hx with rfl | hx
    · cases hv
      exact (congrArg p.value hl).trans rfl
    · rw [mem_singleton.mp hx] at hv ⊢
      cases hv
      exact (congrArg p.value hr).trans rfl)
  obtain ⟨p'', hr', he⟩ := hs rfl (by
    intro v hv
    rcases mem_cons.mp hv with rfl | hv
    · rw [hl]
      exact extendSign_signExtend (-2147483648 : Int32).toBitVec
    · rw [mem_singleton.mp hv, hr]
      exact extendSign_signExtend (-1 : Int32).toBitVec)
  obtain rfl : p' = p'' := Option.some.inj (hru.symm.trans hr')
  rw [hd] at hva he
  rw [hva] at he
  exact ⟨p, p', rfl, rfl, rfl, hru, hva, he⟩

end StackCompiler
