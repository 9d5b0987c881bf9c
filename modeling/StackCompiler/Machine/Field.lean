/-
Operands and the fields of an instruction word that hold them. A field takes
`width` bits from bit `lo` on; an immediate is stored divided by the scale of
the field.
-/
import StackCompiler.Machine.Register
import StackCompiler.Text.Quoted

namespace StackCompiler

/-- Operands as they are written. -/
inductive Operand where
  | reg (r : Reg)
  | fpr (n : Nat)
  | imm (v : Int)
  | rel (v : Int)
  | cond (c : Cond)
deriving DecidableEq, Repr, Inhabited

def Operand.number : Operand → Int
  | reg r => r.code.val
  | fpr n => n
  | imm v | rel v => v
  | cond c => c.code

/-- Why an instruction is not assembled. -/
inductive AssemblyError where
  | argumentCount (mnemonic : String) (expected found : Nat)
  | argumentKind (mnemonic field : String)
  | outOfRange (mnemonic field : String) (value : Int)
  | misaligned (mnemonic field : String) (value : Int) (scale : Nat)
  | illegalArguments (mnemonic : String)
  | unboundLabel (label : Nat)
  | labelRebound (label : Nat)
  | inconsistentTemplate (mnemonic reason : String)
deriving DecidableEq, Repr

def AssemblyError.message : AssemblyError → String
  | argumentCount m expected found => s!"{m}: expected {expected} arguments, found {found}"
  | argumentKind m field => s!"{m}: wrong argument kind for field {field}"
  | outOfRange m field value => s!"{m}: value {value} out of range for field {field}"
  | misaligned m field value scale =>
    s!"{m}: value {value} for field {field} is not a multiple of {scale}"
  | illegalArguments m => s!"{m}: argument list violates an operand constraint"
  | unboundLabel label => s!"label {label} is not bound"
  | labelRebound label => s!"label {label} is already bound"
  | inconsistentTemplate m reason => s!"{m}: inconsistent template: {reason}"

/-- How the bits of a field stand for an operand. -/
inductive FieldKind where
  /-- A general register; code 31 is the stack pointer if `sp`, else the zero register. -/
  | gpr (sp : Bool)
  | fpr
  | unsigned
  | signed
  | pcRelative
  | condition
deriving DecidableEq, Repr, Inhabited

def FieldKind.title : FieldKind → String
  | gpr sp => Text.record "Gpr" [("sp", toString sp)]
  | fpr => "Fpr"
  | unsigned => "Unsigned"
  | signed => "Signed"
  | pcRelative => "PcRelative"
  | condition => "Condition"

/-- Bits of an instruction that hold an operand. -/
structure Field where
  name : String
  lo : Nat
  width : Nat
  kind : FieldKind
  scale : Nat
deriving DecidableEq, Repr, Inhabited

namespace Field

def gpr (name : String) (lo : Nat) : Field := ⟨name, lo, 5, .gpr false, 1⟩

def gprSp (name : String) (lo : Nat) : Field := ⟨name, lo, 5, .gpr true, 1⟩

def fpr (name : String) (lo : Nat) : Field := ⟨name, lo, 5, .fpr, 1⟩

def unsigned (name : String) (lo width scale : Nat) : Field := ⟨name, lo, width, .unsigned, scale⟩

def signed (name : String) (lo width scale : Nat) : Field := ⟨name, lo, width, .signed, scale⟩

def pcRelative (name : String) (lo width : Nat) : Field := ⟨name, lo, width, .pcRelative, 4⟩

def condition (name : String) (lo : Nat) : Field := ⟨name, lo, 4, .condition, 1⟩

def span (f : Field) : Nat := 1 <<< f.width

/-- The number of contents below zero, when contents are signed. -/
def half (f : Field) : Nat := 1 <<< (f.width - 1)

def mask (f : Field) : BitVec 32 := BitVec.ofNat 32 (f.span - 1) <<< f.lo

def raw (f : Field) (w : BitVec 32) : Nat := ((w &&& f.mask) >>> f.lo).toNat

/-- The least and the greatest value of an operand. -/
def range (f : Field) : Int × Int :=
  match f.kind with
  | .gpr _ | .fpr => (0, 31)
  | .condition => (0, 14)
  | .unsigned => (0, ((f.span : Int) - 1) * f.scale)
  | .signed | .pcRelative => (-(f.half : Int) * f.scale, ((f.half : Int) - 1) * f.scale)

def accepts (f : Field) (a : Operand) : Bool :=
  match f.kind, a with
  | .gpr _, .reg _ | .fpr, .fpr _ | .unsigned, .imm _ | .signed, .imm _ | .pcRelative, .rel _
  | .condition, .cond _ => true
  | _, _ => false

/-- The content of the field for an immediate: a multiple of the scale within the range. -/
def scaled (f : Field) (mnemonic : String) (v : Int) : Except AssemblyError Nat :=
  if v % f.scale ≠ 0 then .error (.misaligned mnemonic f.name v f.scale)
  else if v < f.range.1 ∨ f.range.2 < v then .error (.outOfRange mnemonic f.name v)
  else .ok ((v / f.scale) % f.span).toNat

def content (f : Field) (mnemonic : String) (a : Operand) : Except AssemblyError Nat :=
  if !f.accepts a then .error (.argumentKind mnemonic f.name)
  else
    match a with
    | .reg r => .ok r.code.val
    | .fpr n => if n > 31 then .error (.outOfRange mnemonic f.name n) else .ok n
    | .cond c => .ok c.code
    | .imm v | .rel v => f.scaled mnemonic v

/-- The bits of an operand in its place. -/
def encode (f : Field) (mnemonic : String) (a : Operand) : Except AssemblyError (BitVec 32) :=
  (f.content mnemonic a).map fun n => BitVec.ofNat 32 n <<< f.lo

def signedRaw (f : Field) (w : BitVec 32) : Int :=
  let n := f.raw w
  if n < f.half then n else (n : Int) - f.span

/-- The operand that the field of a word holds, if its bits mean one. -/
def decode? (f : Field) (w : BitVec 32) : Option Operand :=
  match f.kind with
  | .gpr _ => (Reg.ofCode? (f.raw w)).map .reg
  | .fpr => some (.fpr (f.raw w))
  | .condition => (Cond.ofCode? (f.raw w)).map .cond
  | .unsigned => some (.imm (f.raw w * f.scale))
  | .signed => some (.imm (f.signedRaw w * f.scale))
  | .pcRelative => some (.rel (f.signedRaw w * f.scale))

/-- An operand in assembly text, for an instruction at `position`: a distance is written as the
address it leads to, modulo the size of the address space. -/
def format (f : Field) (a : Operand) (position : Nat) : String :=
  match a, f.kind with
  | .reg r, .gpr sp => if r = Reg.sp then (if sp then "sp" else "xzr") else r.text
  | .reg r, _ => Text.apply "Reg" [r.title]
  | .fpr n, _ => s!"d{n}"
  | .imm v, _ => s!"#{v}"
  | .rel v, _ => Hex.marked (((position + v : Int) % 0x10000000000000000).toNat)
  | .cond c, _ => c.name

end Field
end StackCompiler
