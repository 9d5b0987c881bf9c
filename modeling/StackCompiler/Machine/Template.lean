/-
Instruction templates: the fixed bits of an instruction form, its fields in
the order of assembly text, and the constraints on its operands. Assembling
and decoding both work from the templates.
-/
import StackCompiler.Machine.Field

namespace StackCompiler

/-- A rule on the operands of a template; operands are meant by their place. -/
inductive Constraint where
  | range (field : Nat) (min max : Int)
  | distinct (a b : Nat)
  /-- A base register that is written back differs from a transferred one, unless it is the
  stack pointer. -/
  | writeback (base transfer : Nat)
deriving DecidableEq, Repr

namespace Constraint

def holds (c : Constraint) (operands : List Operand) : Bool :=
  match c with
  | range field min max =>
    match operands[field]? with
    | some a => min ≤ a.number && a.number ≤ max
    | none => false
  | distinct a b =>
    match operands[a]?, operands[b]? with
    | some x, some y => x.number ≠ y.number
    | _, _ => false
  | writeback base transfer =>
    match operands[base]?, operands[transfer]? with
    | some b, some t => b.number = 31 || b.number ≠ t.number
    | _, _ => false

def title : Constraint → String
  | range field min max =>
    Text.record "Range" [("field", toString field), ("min", toString min), ("max", toString max)]
  | distinct a b => Text.record "Distinct" [("a", toString a), ("b", toString b)]
  | writeback base transfer =>
    Text.record "Writeback" [("base", toString base), ("transfer", toString transfer)]

end Constraint

/-- How the operands of an instruction are written. -/
inductive Style where
  /-- `op a, b, c` -/
  | plain
  /-- `op rt, [rn, #imm]` with the last two operands in brackets -/
  | offset
  /-- `op rt, [rn, #imm]!` -/
  | preIndex
  /-- `op rt, [rn], #imm` -/
  | postIndex
  /-- `op.cond target` -/
  | conditionSuffix
deriving DecidableEq, Repr, Inhabited

def Style.title : Style → String
  | plain => "Plain"
  | offset => "Offset"
  | preIndex => "PreIndex"
  | postIndex => "PostIndex"
  | conditionSuffix => "ConditionSuffix"

/-- One form of an instruction: its fixed bits and its fields. -/
structure Template where
  serial : Nat := 0
  mnemonic : String
  /-- The fixed bits; field bits are zero. -/
  opcode : BitVec 32
  fields : List Field
  constraints : List Constraint := []
  synthetic : Bool := false
  disassemblable : Bool := true
  style : Style := .plain
deriving DecidableEq, Repr, Inhabited

namespace Template

def fieldMask (t : Template) : BitVec 32 := t.fields.foldl (fun m f => m ||| f.mask) 0

/-- The bits that tell the form: all that no field takes. -/
def opcodeMask (t : Template) : BitVec 32 := ~~~ t.fieldMask

def specificity (t : Template) : Nat :=
  (List.range 32).countP fun i => t.opcodeMask.getLsbD i

def inconsistent (t : Template) (reason : String) : AssemblyError :=
  .inconsistentTemplate t.mnemonic reason

/-- Checks fields one by one against the bits that are taken, and returns the bits taken. -/
def checkFields (t : Template) (taken : BitVec 32) : List Field → Except AssemblyError (BitVec 32)
  | [] => .ok taken
  | f :: rest =>
    if f.width = 0 ∨ f.lo + f.width > 32 then
      .error (t.inconsistent s!"field {f.name} does not fit the instruction word")
    else if taken &&& f.mask ≠ 0 then
      .error (t.inconsistent s!"field {f.name} overlaps another field")
    else t.checkFields (taken ||| f.mask) rest

/-- Fields fit the word, and overlap neither each other nor the fixed bits. -/
def validate (t : Template) : Except AssemblyError Unit :=
  match t.checkFields 0 t.fields with
  | .error e => .error e
  | .ok taken =>
    if t.opcode &&& taken ≠ 0 then
      .error (t.inconsistent ("opcode " ++ Hex.markedTo 8 t.opcode.toNat ++ " sets operand bits"))
    else .ok ()

def isLegal (t : Template) (operands : List Operand) : Bool :=
  operands.length = t.fields.length
    && (t.fields.zip operands).all (fun (f, a) => (f.encode t.mnemonic a).isOk)
    && t.constraints.all (·.holds operands)

def encodeFields (t : Template) (w : BitVec 32) :
    List (Field × Operand) → Except AssemblyError (BitVec 32)
  | [] => .ok w
  | (f, a) :: rest =>
    match f.encode t.mnemonic a with
    | .error e => .error e
    | .ok bits => t.encodeFields (w ||| bits) rest

/-- The word with these operands, if they fit and satisfy the constraints. -/
def assemble (t : Template) (operands : List Operand) : Except AssemblyError (BitVec 32) :=
  if operands.length ≠ t.fields.length then
    .error (.argumentCount t.mnemonic t.fields.length operands.length)
  else
    match t.encodeFields t.opcode (t.fields.zip operands) with
    | .error e => .error e
    | .ok w =>
      if t.constraints.all (·.holds operands) then .ok w else .error (.illegalArguments t.mnemonic)

def operands? (t : Template) (w : BitVec 32) : Option (List Operand) :=
  t.fields.mapM (·.decode? w)

def format (t : Template) (operands : List Operand) (position : Nat) : String :=
  let texts := (t.fields.zip operands).map fun (f, a) => f.format a position
  let join (items : List String) : String := ", ".intercalate items
  let head := join (texts.take (texts.length - 2))
  let base := (texts.drop (texts.length - 2)).headD ""
  let last := (texts.drop (texts.length - 1)).headD ""
  match t.style with
  | .plain => if texts.isEmpty then t.mnemonic else t.mnemonic ++ " " ++ join texts
  | .conditionSuffix => t.mnemonic ++ "." ++ texts.headD "" ++ " " ++ join (texts.drop 1)
  | .offset => s!"{t.mnemonic} {head}, [{base}, {last}]"
  | .preIndex => s!"{t.mnemonic} {head}, [{base}, {last}]!"
  | .postIndex => s!"{t.mnemonic} {head}, [{base}], {last}"

def title (t : Template) : String :=
  let names := t.fields.map fun f => s!"<{f.name}>"
  if names.isEmpty then t.mnemonic else t.mnemonic ++ " " ++ ", ".intercalate names

end Template
end StackCompiler
