/-
The AArch64 instruction forms that the compiler emits and the disassembler
knows, with their templates. Aliases such as `mov` and `cmp` are forms of
their own, marked synthetic.
-/
import StackCompiler.Machine.Catalog

namespace StackCompiler

/-- The instructions that are emitted or read. -/
inductive Opcode where
  | addReg
  | subReg
  | subsReg
  | andReg
  | orrReg
  | eorReg
  | mov
  | neg
  | cmp
  | madd
  | msub
  | mul
  | sdiv
  | sbfm
  | sxtw
  | addImm
  | subImm
  | subsImm
  | cmpImm
  | movz
  | movImm
  | movn
  | ldrImm
  | strImm
  | ldrPost
  | strPre
  | ldrLiteral
  | ldrswLiteral
  | stpPre
  | ldpPost
  | b
  | bl
  | bCond
  | cbz
  | cbnz
  | ret
  | retReg
  | br
  | blr
  | nop
  | fmovDX
  | fmovXD
  | fadd
  | fsub
  | fmul
  | fdiv
  | fcmp
deriving DecidableEq, Repr, Inhabited

namespace Opcode

def all : List Opcode :=
  [.addReg, .subReg, .subsReg, .andReg, .orrReg, .eorReg, .mov, .neg, .cmp, .madd, .msub, .mul,
   .sdiv, .sbfm, .sxtw, .addImm, .subImm, .subsImm, .cmpImm, .movz, .movImm, .movn, .ldrImm,
   .strImm, .ldrPost, .strPre, .ldrLiteral, .ldrswLiteral, .stpPre, .ldpPost, .b, .bl, .bCond,
   .cbz, .cbnz, .ret, .retReg, .br, .blr, .nop, .fmovDX, .fmovXD, .fadd, .fsub, .fmul, .fdiv,
   .fcmp]

def serial (o : Opcode) : Nat := all.idxOf o

def title : Opcode → String
  | addReg => "AddReg"
  | subReg => "SubReg"
  | subsReg => "SubsReg"
  | andReg => "AndReg"
  | orrReg => "OrrReg"
  | eorReg => "EorReg"
  | mov => "Mov"
  | neg => "Neg"
  | cmp => "Cmp"
  | madd => "Madd"
  | msub => "Msub"
  | mul => "Mul"
  | sdiv => "Sdiv"
  | sbfm => "Sbfm"
  | sxtw => "Sxtw"
  | addImm => "AddImm"
  | subImm => "SubImm"
  | subsImm => "SubsImm"
  | cmpImm => "CmpImm"
  | movz => "Movz"
  | movImm => "MovImm"
  | movn => "Movn"
  | ldrImm => "LdrImm"
  | strImm => "StrImm"
  | ldrPost => "LdrPost"
  | strPre => "StrPre"
  | ldrLiteral => "LdrLiteral"
  | ldrswLiteral => "LdrswLiteral"
  | stpPre => "StpPre"
  | ldpPost => "LdpPost"
  | b => "B"
  | bl => "Bl"
  | bCond => "BCond"
  | cbz => "Cbz"
  | cbnz => "Cbnz"
  | ret => "Ret"
  | retReg => "RetReg"
  | br => "Br"
  | blr => "Blr"
  | nop => "Nop"
  | fmovDX => "FmovDX"
  | fmovXD => "FmovXD"
  | fadd => "Fadd"
  | fsub => "Fsub"
  | fmul => "Fmul"
  | fdiv => "Fdiv"
  | fcmp => "Fcmp"

def ofTitle? (s : String) : Option Opcode := all.find? (·.title == s)

/-! ## Fields that many forms share -/

def rd : Field := .gpr "rd" 0

def rn : Field := .gpr "rn" 5

def rm : Field := .gpr "rm" 16

def ra : Field := .gpr "ra" 10

def rt : Field := .gpr "rt" 0

def rdSp : Field := .gprSp "rd" 0

def rnSp : Field := .gprSp "rn" 5

def imm12 : Field := .unsigned "imm12" 10 12 1

def imm16 : Field := .unsigned "imm16" 5 16 1

def shift16 : Field := .unsigned "shift" 21 2 16

def simm9 : Field := .signed "simm9" 12 9 1

def pimm12 : Field := .unsigned "pimm12" 10 12 8

def simm7 : Field := .signed "simm7" 15 7 8

def rel19 : Field := .pcRelative "label" 5 19

def rel26 : Field := .pcRelative "label" 0 26

def dd : Field := .fpr "dd" 0

def dn : Field := .fpr "dn" 5

def dm : Field := .fpr "dm" 16

/-- A form without constraints, written plainly. -/
def form (mnemonic : String) (opcode : BitVec 32) (fields : List Field) : Template :=
  { mnemonic, opcode, fields }

def aliasForm (mnemonic : String) (opcode : BitVec 32) (fields : List Field) : Template :=
  { mnemonic, opcode, fields, synthetic := true }

def pairFields : List Field := [.gpr "rt1" 0, .gpr "rt2" 10, rnSp, simm7]

def pairWriteback : List Constraint := [.writeback 2 0, .writeback 2 1]

/-- The template of an instruction. -/
def describe : Opcode → Template
  | addReg => form "add" 0x8B000000 [rd, rn, rm]
  | subReg => form "sub" 0xCB000000 [rd, rn, rm]
  | subsReg => form "subs" 0xEB000000 [rd, rn, rm]
  | andReg => form "and" 0x8A000000 [rd, rn, rm]
  | orrReg => form "orr" 0xAA000000 [rd, rn, rm]
  | eorReg => form "eor" 0xCA000000 [rd, rn, rm]
  | mov => aliasForm "mov" 0xAA0003E0 [rd, rm]
  | neg => aliasForm "neg" 0xCB0003E0 [rd, rm]
  | cmp => aliasForm "cmp" 0xEB00001F [rn, rm]
  | madd => form "madd" 0x9B000000 [rd, rn, rm, ra]
  | msub => form "msub" 0x9B008000 [rd, rn, rm, ra]
  | mul => aliasForm "mul" 0x9B007C00 [rd, rn, rm]
  | sdiv => form "sdiv" 0x9AC00C00 [rd, rn, rm]
  | sbfm => form "sbfm" 0x93400000 [rd, rn, .unsigned "immr" 16 6 1, .unsigned "imms" 10 6 1]
  | sxtw => aliasForm "sxtw" 0x93407C00 [rd, rn]
  | addImm => form "add" 0x91000000 [rdSp, rnSp, imm12]
  | subImm => form "sub" 0xD1000000 [rdSp, rnSp, imm12]
  | subsImm => form "subs" 0xF1000000 [rd, rnSp, imm12]
  | cmpImm => aliasForm "cmp" 0xF100001F [rnSp, imm12]
  | movz => form "movz" 0xD2800000 [rd, imm16, shift16]
  | movImm => aliasForm "mov" 0xD2800000 [rd, imm16]
  | movn => form "movn" 0x92800000 [rd, imm16, shift16]
  | ldrImm => { form "ldr" 0xF9400000 [rt, rnSp, pimm12] with style := .offset }
  | strImm => { form "str" 0xF9000000 [rt, rnSp, pimm12] with style := .offset }
  | ldrPost =>
    { form "ldr" 0xF8400400 [rt, rnSp, simm9] with
      constraints := [.writeback 1 0], style := .postIndex }
  | strPre =>
    { form "str" 0xF8000C00 [rt, rnSp, simm9] with
      constraints := [.writeback 1 0], style := .preIndex }
  | ldrLiteral => form "ldr" 0x58000000 [rt, rel19]
  | ldrswLiteral => form "ldrsw" 0x98000000 [rt, rel19]
  | stpPre =>
    { form "stp" 0xA9800000 pairFields with constraints := pairWriteback, style := .preIndex }
  | ldpPost =>
    { form "ldp" 0xA8C00000 pairFields with
      constraints := pairWriteback ++ [.distinct 0 1], style := .postIndex }
  | b => form "b" 0x14000000 [rel26]
  | bl => form "bl" 0x94000000 [rel26]
  | bCond =>
    { form "b" 0x54000000 [.condition "cond" 0, rel19] with style := .conditionSuffix }
  | cbz => form "cbz" 0xB4000000 [rt, rel19]
  | cbnz => form "cbnz" 0xB5000000 [rt, rel19]
  | ret => aliasForm "ret" 0xD65F03C0 []
  | retReg => form "ret" 0xD65F0000 [rn]
  | br => form "br" 0xD61F0000 [rn]
  | blr => form "blr" 0xD63F0000 [rn]
  | nop => form "nop" 0xD503201F []
  | fmovDX => form "fmov" 0x9E670000 [dd, rn]
  | fmovXD => form "fmov" 0x9E660000 [rd, dn]
  | fadd => form "fadd" 0x1E602800 [dd, dn, dm]
  | fsub => form "fsub" 0x1E603800 [dd, dn, dm]
  | fmul => form "fmul" 0x1E600800 [dd, dn, dm]
  | fdiv => form "fdiv" 0x1E601800 [dd, dn, dm]
  | fcmp => form "fcmp" 0x1E602000 [dn, dm]

def template (o : Opcode) : Template := { o.describe with serial := o.serial }

/-- The word of an instruction. -/
def assemble (o : Opcode) (operands : List Operand) : Except AssemblyError (BitVec 32) :=
  o.describe.assemble operands

end Opcode

def nopWord : BitVec 32 := 0xD503201F

def Catalog.aarch64 : Catalog :=
  match Catalog.ofTemplates (Opcode.all.map Opcode.describe) with
  | .ok c => c
  | .error _ => ⟨#[], []⟩

/-- The distance from one address to another, as a signed 64-bit number. -/
def distance (source target : Nat) : Int := Int.bmod ((target : Int) - source) 0x10000000000000000

/-- The word of a `bl` at address `source` that calls `target`. -/
def encodeCall (source target : Nat) : Except AssemblyError (BitVec 32) :=
  Opcode.bl.assemble [.rel (distance source target)]

end StackCompiler
