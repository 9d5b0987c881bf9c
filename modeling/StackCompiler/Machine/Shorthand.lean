/-
Instructions by short names, with their operands as plain numbers. A shorthand
says how each number is meant; a branch or a literal load has a label besides.
-/
import StackCompiler.Machine.Buffer

namespace StackCompiler

/-- How a number is meant. -/
inductive Slot where
  | reg
  | fpr
  | imm
  | rel
  | cond
  /-- An immediate zero, for which no number is given. -/
  | zero
deriving DecidableEq, Repr

/-- The operand that a number stands for; codes without a meaning count as zero. -/
def Slot.operand (slot : Slot) (v : Int) : Operand :=
  match slot with
  | reg => .reg ((Reg.ofCode? v.toNat).getD .x0)
  | fpr => .fpr v.toNat
  | imm => .imm v
  | rel => .rel v
  | cond => .cond ((Cond.ofCode? v.toNat).getD .eq)
  | zero => .imm 0

/-- A short name for one instruction. -/
structure Shorthand where
  name : String
  opcode : Opcode
  slots : List Slot
  labelled : Bool := false
deriving DecidableEq, Repr

namespace Shorthand

def all : List Shorthand :=
  [⟨"add", .addReg, [.reg, .reg, .reg], false⟩,
   ⟨"add_imm", .addImm, [.reg, .reg, .imm], false⟩,
   ⟨"sub", .subReg, [.reg, .reg, .reg], false⟩,
   ⟨"sub_imm", .subImm, [.reg, .reg, .imm], false⟩,
   ⟨"neg", .neg, [.reg, .reg], false⟩,
   ⟨"mul", .mul, [.reg, .reg, .reg], false⟩,
   ⟨"sdiv", .sdiv, [.reg, .reg, .reg], false⟩,
   ⟨"msub", .msub, [.reg, .reg, .reg, .reg], false⟩,
   ⟨"and", .andReg, [.reg, .reg, .reg], false⟩,
   ⟨"orr", .orrReg, [.reg, .reg, .reg], false⟩,
   ⟨"eor", .eorReg, [.reg, .reg, .reg], false⟩,
   ⟨"sxtw", .sxtw, [.reg, .reg], false⟩,
   ⟨"mov", .mov, [.reg, .reg], false⟩,
   ⟨"mov_imm", .movImm, [.reg, .imm], false⟩,
   ⟨"movn", .movn, [.reg, .imm, .zero], false⟩,
   ⟨"cmp", .cmp, [.reg, .reg], false⟩,
   ⟨"cmp_imm", .cmpImm, [.reg, .imm], false⟩,
   ⟨"ldr", .ldrImm, [.reg, .reg, .imm], false⟩,
   ⟨"str", .strImm, [.reg, .reg, .imm], false⟩,
   ⟨"ldr_literal", .ldrLiteral, [.reg], true⟩,
   ⟨"stp_pre", .stpPre, [.reg, .reg, .reg, .imm], false⟩,
   ⟨"ldp_post", .ldpPost, [.reg, .reg, .reg, .imm], false⟩,
   ⟨"b", .b, [], true⟩,
   ⟨"b_cond", .bCond, [.cond], true⟩,
   ⟨"cbz", .cbz, [.reg], true⟩,
   ⟨"cbnz", .cbnz, [.reg], true⟩,
   ⟨"bl", .bl, [.rel], false⟩,
   ⟨"blr", .blr, [.reg], false⟩,
   ⟨"ret", .ret, [], false⟩,
   ⟨"nop", .nop, [], false⟩,
   ⟨"fmov_to_fp", .fmovDX, [.fpr, .reg], false⟩,
   ⟨"fmov_from_fp", .fmovXD, [.reg, .fpr], false⟩,
   ⟨"fadd", .fadd, [.fpr, .fpr, .fpr], false⟩,
   ⟨"fsub", .fsub, [.fpr, .fpr, .fpr], false⟩,
   ⟨"fmul", .fmul, [.fpr, .fpr, .fpr], false⟩,
   ⟨"fdiv", .fdiv, [.fpr, .fpr, .fpr], false⟩,
   ⟨"fcmp", .fcmp, [.fpr, .fpr], false⟩]

def find? (name : String) : Option Shorthand := all.find? (·.name == name)

def operands : List Slot → List Int → List Operand
  | .zero :: slots, vs => Slot.zero.operand 0 :: operands slots vs
  | slot :: slots, v :: vs => slot.operand v :: operands slots vs
  | _, _ => []

end Shorthand

/-- Emits an instruction by its short name; the label counts only if the instruction has one. -/
def Buffer.call (b : Buffer) (s : Shorthand) (vs : List Int) (label : Label) :
    Except AssemblyError Buffer :=
  if s.labelled then .ok (b.emitToLabel s.opcode (Shorthand.operands s.slots vs) label)
  else b.emit s.opcode (Shorthand.operands s.slots vs)

end StackCompiler
