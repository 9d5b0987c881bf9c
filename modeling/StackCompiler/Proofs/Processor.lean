/-
The processor that emitted code is for. `step` decodes the word at the program
counter and carries it out. The forms of double arithmetic are left out.
-/
import StackCompiler.Proofs.EmittedCode
import StackCompiler.Proofs.InstructionForms

namespace StackCompiler

open Template List Disassembler Bytes

/-! ## Flags -/

/-- The flags that comparisons set. -/
structure Flags where
  negative : Bool
  zero : Bool
  carry : Bool
  overflow : Bool
deriving DecidableEq

/-- The flags of a difference: carry if nothing is borrowed, overflow if its sign is wrong. -/
def Flags.ofSub (x y : BitVec 64) : Flags where
  negative := (x - y).msb
  zero := x - y = 0#64
  carry := y ≤ x
  overflow := (x - y).toInt ≠ x.toInt - y.toInt

/-- Whether a condition holds. -/
def Cond.holds (f : Flags) : Cond → Bool
  | eq => f.zero
  | ne => !f.zero
  | cs => f.carry
  | cc => !f.carry
  | mi => f.negative
  | pl => !f.negative
  | vs => f.overflow
  | vc => !f.overflow
  | hi => f.carry && !f.zero
  | ls => !(f.carry && !f.zero)
  | ge => f.negative == f.overflow
  | lt => f.negative != f.overflow
  | gt => !f.zero && f.negative == f.overflow
  | le => !(!f.zero && f.negative == f.overflow)
  | al => true

/-! ## States -/

/-- The state of a processor. -/
structure Processor where
  /-- Register 31 is the stack pointer. -/
  reg : Reg → BitVec 64
  flags : Flags
  memory : BitVec 64 → UInt8
  pc : BitVec 64

namespace Processor

/-- The content of a register where register 31 is zero. -/
def get (p : Processor) (r : Reg) : BitVec 64 := if r = .zero then 0#64 else p.reg r

/-- Writes a register where register 31 is the stack pointer. -/
def setSp (p : Processor) (r : Reg) (x : BitVec 64) : Processor :=
  { p with reg := fun q => if q = r then x else p.reg q }

/-- Writes a register where register 31 is zero and ignores writes. -/
def set (p : Processor) (r : Reg) (x : BitVec 64) : Processor := if r = .zero then p else p.setSp r x

/-- The bytes from an address on. -/
def bytes (p : Processor) (address : BitVec 64) (count : Nat) : List UInt8 :=
  (range count).map fun i => p.memory (address + BitVec.ofNat 64 i)

/-- The doubleword at an address. -/
def load (p : Processor) (address : BitVec 64) : BitVec 64 :=
  BitVec.ofNat 64 (ofLittleEndian (p.bytes address 8))

/-- The instruction word, or the int, at an address. -/
def loadWord (p : Processor) (address : BitVec 64) : BitVec 32 := toWord (p.bytes address 4)

/-- Writes a doubleword. -/
def store (p : Processor) (address x : BitVec 64) : Processor :=
  { p with memory := fun a => ((littleEndian 8 x.toNat)[(a - address).toNat]?).getD (p.memory a) }

/-- Goes on with the instruction behind this one. -/
def next (p : Processor) : Processor := { p with pc := p.pc + 4#64 }

/-- Goes on at a distance from this instruction. -/
def goto (p : Processor) (distance : Int) : Processor := { p with pc := p.pc + BitVec.ofInt 64 distance }

/-- Notes in the link register where a call returns to. -/
def linked (p : Processor) : Processor := p.set .lr (p.pc + 4#64)

/-- The bits from `low` to `high` with their sign, or, if `high` is below `low`, the bits up to
`high`, moved up to end where `low` says. -/
def signedField (x : BitVec 64) (low high : Nat) : BitVec 64 :=
  if low ≤ high then (x.extractLsb' low (high - low + 1)).signExtend 64
  else (x.extractLsb' 0 (high + 1)).signExtend 64 <<< (64 - low)

section
variable (p : Processor) (r : Reg) (x address : BitVec 64)

@[simp] theorem get_next : p.next.get r = p.get r := rfl

@[simp] theorem reg_next : p.next.reg r = p.reg r := rfl

@[simp] theorem memory_next : p.next.memory = p.memory := rfl

@[simp] theorem flags_next : p.next.flags = p.flags := rfl

@[simp] theorem get_zero : p.get .zero = 0#64 := rfl

@[simp] theorem get_set_self {r} (h : r ≠ .zero) : (p.set r x).get r = x := by
  simp [get, set, setSp, h]

@[simp] theorem get_set_ne {r q} (h : q ≠ r) : (p.set r x).get q = p.get q := by
  unfold set
  split
  next => rfl
  next => simp [get, setSp, h]

@[simp] theorem sp_set : (p.set r x).reg .sp = p.reg .sp := by
  unfold set
  split
  next => rfl
  next h => exact if_neg (Ne.symm h)

@[simp] theorem memory_set : (p.set r x).memory = p.memory := by
  unfold set
  split <;> rfl

theorem load_congr {p q : Processor} (h : p.memory = q.memory) (address : BitVec 64) :
    p.load address = q.load address := by
  rw [load, load, bytes, bytes, h]

theorem load_store : (p.store address x).load address = x := by
  have hb : (p.store address x).bytes address 8 = littleEndian 8 x.toNat := by
    have hl : (littleEndian 8 x.toNat).length = 8 := rfl
    refine ext_getElem? fun i => ?_
    by_cases hi : i < 8
    · have ho : (address + BitVec.ofNat 64 i - address).toNat = i := by
        rw [BitVec.add_comm, BitVec.add_sub_cancel, BitVec.toNat_ofNat]
        omega
      rw [bytes, getElem?_map, getElem?_range hi, Option.map_some]
      simp only [store, ho]
      rw [getElem?_eq_getElem (hl ▸ hi), Option.getD_some]
    · have hc : ((p.store address x).bytes address 8).length ≤ i := by
        simpa [bytes] using hi
      rw [getElem?_eq_none hc, getElem?_eq_none (hl ▸ Nat.le_of_not_lt hi)]
  have hlt : x.toNat < Nat.pow 256 8 := x.isLt
  rw [load, hb, ofLittleEndian_littleEndian, Nat.mod_eq_of_lt hlt, BitVec.ofNat_toNat,
    BitVec.setWidth_eq]

end

/-! ## Instructions -/

/-- Carries out an instruction that is no alias. -/
def perform (p : Processor) : Opcode → List Operand → Option Processor
  | .addReg, [.reg d, .reg n, .reg m] => some (p.set d (p.get n + p.get m)).next
  | .subReg, [.reg d, .reg n, .reg m] => some (p.set d (p.get n - p.get m)).next
  | .subsReg, [.reg d, .reg n, .reg m] =>
    some ({ p.set d (p.get n - p.get m) with flags := .ofSub (p.get n) (p.get m) }).next
  | .andReg, [.reg d, .reg n, .reg m] => some (p.set d (p.get n &&& p.get m)).next
  | .orrReg, [.reg d, .reg n, .reg m] => some (p.set d (p.get n ||| p.get m)).next
  | .eorReg, [.reg d, .reg n, .reg m] => some (p.set d (p.get n ^^^ p.get m)).next
  | .madd, [.reg d, .reg n, .reg m, .reg a] => some (p.set d (p.get a + p.get n * p.get m)).next
  | .msub, [.reg d, .reg n, .reg m, .reg a] => some (p.set d (p.get a - p.get n * p.get m)).next
  | .sdiv, [.reg d, .reg n, .reg m] => some (p.set d ((p.get n).sdiv (p.get m))).next
  | .sbfm, [.reg d, .reg n, .imm low, .imm high] =>
    some (p.set d (signedField (p.get n) low.toNat high.toNat)).next
  | .addImm, [.reg d, .reg n, .imm v] => some (p.setSp d (p.reg n + BitVec.ofInt 64 v)).next
  | .subImm, [.reg d, .reg n, .imm v] => some (p.setSp d (p.reg n - BitVec.ofInt 64 v)).next
  | .subsImm, [.reg d, .reg n, .imm v] =>
    some ({ p.set d (p.reg n - BitVec.ofInt 64 v) with
      flags := .ofSub (p.reg n) (BitVec.ofInt 64 v) }).next
  | .movz, [.reg d, .imm v, .imm shift] => some (p.set d (BitVec.ofInt 64 v <<< shift.toNat)).next
  | .movn, [.reg d, .imm v, .imm shift] => some (p.set d (~~~(BitVec.ofInt 64 v <<< shift.toNat))).next
  | .ldrImm, [.reg t, .reg n, .imm v] => some (p.set t (p.load (p.reg n + BitVec.ofInt 64 v))).next
  | .strImm, [.reg t, .reg n, .imm v] => some (p.store (p.reg n + BitVec.ofInt 64 v) (p.get t)).next
  | .ldrPost, [.reg t, .reg n, .imm v] =>
    some ((p.setSp n (p.reg n + BitVec.ofInt 64 v)).set t (p.load (p.reg n))).next
  | .strPre, [.reg t, .reg n, .imm v] =>
    let address := p.reg n + BitVec.ofInt 64 v
    some ((p.store address (p.get t)).setSp n address).next
  | .ldrLiteral, [.reg t, .rel v] => some (p.set t (p.load (p.pc + BitVec.ofInt 64 v))).next
  | .ldrswLiteral, [.reg t, .rel v] =>
    some (p.set t ((p.loadWord (p.pc + BitVec.ofInt 64 v)).signExtend 64)).next
  | .stpPre, [.reg t, .reg t', .reg n, .imm v] =>
    let address := p.reg n + BitVec.ofInt 64 v
    some (((p.store address (p.get t)).store (address + 8#64) (p.get t')).setSp n address).next
  | .ldpPost, [.reg t, .reg t', .reg n, .imm v] =>
    some (((p.setSp n (p.reg n + BitVec.ofInt 64 v)).set t (p.load (p.reg n))).set t'
      (p.load (p.reg n + 8#64))).next
  | .b, [.rel v] => some (p.goto v)
  | .bl, [.rel v] => some (p.linked.goto v)
  | .bCond, [.cond c, .rel v] => some (if c.holds p.flags then p.goto v else p.next)
  | .cbz, [.reg t, .rel v] => some (if p.get t = 0#64 then p.goto v else p.next)
  | .cbnz, [.reg t, .rel v] => some (if p.get t = 0#64 then p.next else p.goto v)
  | .retReg, [.reg n] => some { p with pc := p.get n }
  | .br, [.reg n] => some { p with pc := p.get n }
  | .blr, [.reg n] => some { p.linked with pc := p.get n }
  | .nop, [] => some p.next
  | _, _ => none

end Processor

/-- The form that an alias stands for, with its operands; other forms stand for themselves. -/
def Opcode.expand : Opcode → List Operand → Opcode × List Operand
  | mov, [d, m] => (orrReg, [d, .reg .zero, m])
  | neg, [d, m] => (subReg, [d, .reg .zero, m])
  | cmp, [n, m] => (subsReg, [.reg .zero, n, m])
  | mul, [d, n, m] => (madd, [d, n, m, .reg .zero])
  | sxtw, [d, n] => (sbfm, [d, n, .imm 0, .imm 31])
  | cmpImm, [n, v] => (subsImm, [.reg .zero, n, v])
  | movImm, [d, v] => (movz, [d, v, .imm 0])
  | ret, [] => (retReg, [.reg .lr])
  | o, operands => (o, operands)

namespace Processor

/-- Carries out an instruction. -/
def execute (p : Processor) (o : Opcode) (operands : List Operand) : Option Processor :=
  p.perform (o.expand operands).1 (o.expand operands).2

/-- Reads words without aliases. -/
def decoder : Disassembler := { preference := .raw }

/-- Carries out the instruction at the program counter. -/
def step (p : Processor) : Option Processor :=
  (decoder.decode (p.loadWord p.pc)).head?.bind fun found =>
    Opcode.all[found.template.serial]?.bind fun o => p.perform o found.operands

end Processor

/-! ## Words and instructions -/

theorem Field.decode?_of_fixed {f : Field} {w mask fixed} (hw : w &&& mask = fixed) (hf : mask &&& f.mask = f.mask) :
    f.decode? w = f.decode? fixed := by
  have hr : f.raw w = f.raw fixed := by
    rw [raw, raw, ← hw, BitVec.and_assoc, hf]
  rw [decode?_eq_reading, decode?_eq_reading, hr]

namespace Opcode

variable {o : Opcode} {operands : List Operand} {w : BitVec 32}

theorem assemble_of_alias {operands'} (ha : o.describe.synthetic = true) (h : o.assemble operands = .ok w)
    (hf : o.unaliased.describe.operands? w = some operands') :
    o.unaliased.assemble operands' = .ok w := by
  obtain ⟨hm, ho⟩ := o.opcode_unaliased
  obtain ⟨-, hw, -⟩ := (assemble_eq_ok o.consistent).mp h
  refine (assemble_eq_ok o.unaliased.consistent).mpr ⟨hf, ?_, ?_⟩
  · rw [← hm, ← BitVec.and_assoc, hw, ho]
  · rw [(unaliased_total ha).1]
    rfl

theorem assemble_expand (h : o.assemble operands = .ok w) :
    (o.expand operands).1.assemble (o.expand operands).2 = .ok w ∧
      (o.expand operands).1.describe.synthetic = false := by
  obtain ⟨hf, hw, -⟩ := (assemble_eq_ok o.consistent).mp h
  have hl : operands.length = o.describe.fields.length := length_of_mapM hf
  -- fields that the alias fixes are read off its fixed bits
  have hfi : ∀ {f : Field} {a : Operand}, o.describe.opcodeMask &&& f.mask = f.mask →
      f.decode? o.describe.opcode = some a → f.decode? w = some a := by
    intro f a hma ha
    rw [Field.decode?_of_fixed hw hma, ha]
  unfold operands? at hf
  cases o with
  | mov | neg =>
    obtain ⟨d, m, rfl⟩ := length_eq_two.mp hl
    obtain ⟨hd, hm⟩ := mapM_cons_eq_some.mp hf
    have hz : rn.decode? w = some (.reg .zero) := hfi (by decide) (by decide)
    have hal : [rd, rn, rm].mapM (·.decode? w) = some [d, .reg .zero, m] :=
      mapM_cons_eq_some.mpr ⟨hd, mapM_cons_eq_some.mpr ⟨hz, hm⟩⟩
    exact ⟨assemble_of_alias rfl h hal, rfl⟩
  | cmp | cmpImm =>
    obtain ⟨n, m, rfl⟩ := length_eq_two.mp hl
    have hz : rd.decode? w = some (.reg .zero) := hfi (by decide) (by decide)
    exact ⟨assemble_of_alias rfl h (mapM_cons_eq_some.mpr ⟨hz, hf⟩), rfl⟩
  | mul =>
    obtain ⟨d, n, m, rfl⟩ := length_eq_three.mp hl
    have hz : ra.decode? w = some (.reg .zero) := hfi (by decide) (by decide)
    have hal : [rd, rn, rm, ra].mapM (·.decode? w) = some [d, n, m, .reg .zero] := by
      simp only [describe, aliasForm, mapM_cons_eq_some] at hf ⊢
      exact ⟨hf.1, hf.2.1, hf.2.2.1, hz, rfl⟩
    exact ⟨assemble_of_alias rfl h hal, rfl⟩
  | sxtw =>
    obtain ⟨d, n, rfl⟩ := length_eq_two.mp hl
    have hlo : (Field.unsigned "immr" 16 6 1).decode? w = some (.imm 0) := hfi (by decide) (by decide)
    have hh : (Field.unsigned "imms" 10 6 1).decode? w = some (.imm 31) := hfi (by decide) (by decide)
    have hal : [rd, rn, .unsigned "immr" 16 6 1, .unsigned "imms" 10 6 1].mapM (·.decode? w) =
        some [d, n, .imm 0, .imm 31] := by
      simp only [describe, aliasForm, mapM_cons_eq_some] at hf ⊢
      exact ⟨hf.1, hf.2.1, hlo, hh, rfl⟩
    exact ⟨assemble_of_alias rfl h hal, rfl⟩
  | movImm =>
    obtain ⟨d, v, rfl⟩ := length_eq_two.mp hl
    have hs : shift16.decode? w = some (.imm 0) := hfi (by decide) (by decide)
    have hal : [rd, imm16, shift16].mapM (·.decode? w) = some [d, v, .imm 0] := by
      simp only [describe, aliasForm, mapM_cons_eq_some] at hf ⊢
      exact ⟨hf.1, hf.2.1, hs, rfl⟩
    exact ⟨assemble_of_alias rfl h hal, rfl⟩
  | ret =>
    obtain rfl := length_eq_zero_iff.mp hl
    have hli : rn.decode? w = some (.reg .lr) := hfi (by decide) (by decide)
    exact ⟨assemble_of_alias rfl h (mapM_cons_eq_some.mpr ⟨hli, rfl⟩), rfl⟩
  | _ => exact ⟨h, rfl⟩

theorem raw_differ : ∀ o ∈ all, ∀ o' ∈ all, o.describe.synthetic = false → o'.describe.synthetic = false →
    o.describe.opcode &&& o'.describe.opcodeMask = o'.describe.opcode &&& o.describe.opcodeMask → o = o' := by
  decide +kernel

/-- A word is read in one way only. -/
theorem assemble_unique {o' operands'} (ho : o.describe.synthetic = false) (ho' : o'.describe.synthetic = false)
    (h : o.assemble operands = .ok w) (h' : o'.assemble operands' = .ok w) :
    o = o' ∧ operands = operands' := by
  obtain ⟨hop, hw, -⟩ := (assemble_eq_ok o.consistent).mp h
  obtain ⟨hop', hw', -⟩ := (assemble_eq_ok o'.consistent).mp h'
  obtain rfl : o = o' := by
    refine raw_differ o o.mem_all o' o'.mem_all ho ho' ?_
    rw [← hw, ← hw', BitVec.and_assoc, BitVec.and_assoc, BitVec.and_comm o.describe.opcodeMask]
  exact ⟨rfl, Option.some.inj (hop.symm.trans hop')⟩

end Opcode

namespace Processor

theorem decode_eq {o : Opcode} {operands w} (h : o.assemble operands = .ok w) :
    decoder.decode w = [⟨(o.expand operands).1.template, (o.expand operands).2⟩] := by
  obtain ⟨he, hr⟩ := Opcode.assemble_expand h
  refine decode_eq_singleton rfl fun x => ?_
  rw [mem_decode Catalog.aarch64_eq Catalog.sound_aarch64 rfl]
  constructor
  · rintro ⟨ht, hs, ha⟩
    obtain ⟨template, operands'⟩ := x
    obtain ⟨o', rfl⟩ := Opcode.exists_template ht
    rw [skips_template rfl] at hs
    have hr' : o'.describe.synthetic = false := by simpa [decoder] using hs
    obtain ⟨rfl, rfl⟩ := Opcode.assemble_unique hr' hr (Opcode.template_assemble.mp ha) he
    rfl
  · rintro rfl
    refine ⟨Opcode.template_mem _, ?_, Opcode.template_assemble.mpr he⟩
    rw [skips_template rfl, hr]
    rfl

/-- A step does what the instruction does that the word was assembled from. -/
theorem step_eq {p : Processor} {o} {operands} (h : o.assemble operands = .ok (p.loadWord p.pc)) :
    p.step = p.execute o operands := by
  have hs : Opcode.all[(o.expand operands).1.template.serial]? = some (o.expand operands).1 :=
    getElem?_idxOf (Opcode.mem_all _)
  rw [step, decode_eq h, head?_cons, Option.bind_some, hs]
  rfl

end Processor
end StackCompiler
