/-
Bytecode methods. A method has a key, the kinds of the locals that follow its
parameters, a list of instructions and a table of exception handlers. Branch
targets and handler bounds are instruction positions.

The instructions that only work on the operand stack and the locals are a
type of their own, `StackOp`: they neither branch, call, allocate nor throw.
-/
import StackCompiler.Value
import StackCompiler.Bytecode.Signature

namespace StackCompiler

/-- The identity of a method, the same for all its compiled versions. -/
structure MethodKey where
  holder : String
  name : String
  descriptor : String
deriving DecidableEq, Repr, Inhabited

namespace MethodKey

/-- A key as messages name it. -/
def text (k : MethodKey) : String := k.holder ++ "." ++ k.name ++ k.descriptor

def signature? (k : MethodKey) : Option Signature := Signature.parse? k.descriptor

def listing (k : MethodKey) : String :=
  Text.record "MethodKey"
    [("holder", Text.quoted k.holder), ("name", Text.quoted k.name),
     ("descriptor", Text.quoted k.descriptor)]

end MethodKey

/-- Conditions of branches. -/
inductive Comparison where
  | eq
  | ne
  | lt
  | ge
  | gt
  | le
deriving DecidableEq, Repr, Inhabited

namespace Comparison

def all : List Comparison := [eq, ne, lt, ge, gt, le]

def holds (c : Comparison) (isEq isLt isGt : Bool) : Bool :=
  match c with
  | eq => isEq
  | ne => !isEq
  | lt => isLt
  | ge => isGt || isEq
  | gt => isGt
  | le => isLt || isEq

/-- The condition that holds when this one does not, for ordered operands. -/
def negate : Comparison → Comparison
  | eq => ne
  | ne => eq
  | lt => ge
  | ge => lt
  | gt => le
  | le => gt

def sign : Comparison → String
  | eq => "=="
  | ne => "!="
  | lt => "<"
  | ge => ">="
  | gt => ">"
  | le => "<="

def keyword : Comparison → String
  | eq => "eq"
  | ne => "ne"
  | lt => "lt"
  | ge => "ge"
  | gt => "gt"
  | le => "le"

def ofKeyword? (s : String) : Option Comparison := all.find? (·.keyword == s)

def title : Comparison → String
  | eq => "Eq"
  | ne => "Ne"
  | lt => "Lt"
  | ge => "Ge"
  | gt => "Gt"
  | le => "Le"

end Comparison

/-- Operations on two values of one kind. -/
inductive BinaryOp where
  | add
  | sub
  | mul
  | div
  | rem
  | and
  | or
  | xor
deriving DecidableEq, Repr, Inhabited

namespace BinaryOp

def all : List BinaryOp := [add, sub, mul, div, rem, and, or, xor]

def keyword : BinaryOp → String
  | add => "add"
  | sub => "sub"
  | mul => "mul"
  | div => "div"
  | rem => "rem"
  | and => "and"
  | or => "or"
  | xor => "xor"

def title : BinaryOp → String
  | add => "Add"
  | sub => "Sub"
  | mul => "Mul"
  | div => "Div"
  | rem => "Rem"
  | and => "And"
  | or => "Or"
  | xor => "Xor"

end BinaryOp

/-- The operations that doubles have. -/
inductive DoubleOp where
  | add
  | sub
  | mul
  | div
deriving DecidableEq, Repr, Inhabited

def DoubleOp.all : List DoubleOp := [add, sub, mul, div]

def DoubleOp.binary : DoubleOp → BinaryOp
  | add => .add
  | sub => .sub
  | mul => .mul
  | div => .div

/-- Changes of width. -/
inductive Conversion where
  | intToLong
  | longToInt
deriving DecidableEq, Repr, Inhabited

namespace Conversion

def source : Conversion → Kind
  | intToLong => .int
  | longToInt => .long

def result : Conversion → Kind
  | intToLong => .long
  | longToInt => .int

def title : Conversion → String
  | intToLong => "IntToLong"
  | longToInt => "LongToInt"

end Conversion

/-- An instruction that only works on the operand stack and the locals. -/
inductive StackOp where
  | constInt (v : Int32)
  | constLong (v : Int64)
  | constDouble (v : Double)
  | constNull
  | constObject (r : ObjectRef)
  | load (index : Nat)
  | store (index : Nat)
  | pop
  | dup
  | intOp (op : BinaryOp)
  | longOp (op : BinaryOp)
  | doubleOp (op : DoubleOp)
  | negInt
  | negLong
  | convert (c : Conversion)
deriving DecidableEq, Repr, Inhabited

/-- One instruction; targets are indices of instructions. -/
inductive Instruction where
  | stack (op : StackOp)
  /-- Compares the top int with zero. -/
  | ifZero (cond : Comparison) (target : Nat)
  /-- Compares the two top values, which have one kind. -/
  | ifCompare (cond : Comparison) (target : Nat)
  | ifNull (target : Nat)
  | ifNonNull (target : Nat)
  | goto (target : Nat)
  | newArray (element : Kind)
  | newInstance (cls : ObjectRef)
  | arrayLength
  | arrayLoad (element : Kind)
  | arrayStore (element : Kind)
  | invokeStatic (callee : MethodKey)
  | invokeNative (callee : MethodKey)
  | invokeIndirect (descriptor : String)
  | raise
  | ret
  | retValue
  | safepoint
deriving DecidableEq, Repr, Inhabited

namespace Instruction

/-- Where a branch leads. -/
def target? : Instruction → Option Nat
  | ifZero _ t | ifCompare _ t | ifNull t | ifNonNull t | goto t => some t
  | _ => none

def endsFlow : Instruction → Bool
  | goto _ | raise | ret | retValue => true
  | _ => false

def isStackOp : Instruction → Bool
  | stack _ => true
  | _ => false

end Instruction

/-- Code from `start` up to before `stop` is protected by the handler at `entry`. -/
structure Handler where
  start : Nat
  stop : Nat
  entry : Nat
deriving DecidableEq, Repr, Inhabited

def Handler.covers (h : Handler) (pc : Nat) : Bool := h.start ≤ pc && pc < h.stop

/-- A method as it is given to the compiler. -/
structure Method where
  key : MethodKey
  locals : List Kind
  code : List Instruction
  handlers : List Handler
deriving DecidableEq, Repr, Inhabited

namespace Method

def localKinds (m : Method) (s : Signature) : List Kind := s.params ++ m.locals

/-- The first table entry that covers `pc`. -/
def handlerFor? (m : Method) (pc : Nat) : Option Handler := m.handlers.find? (·.covers pc)

end Method

/-- Methods that are compiled together. -/
structure Program where
  methods : List Method
deriving DecidableEq, Repr, Inhabited

/-- Where the bodies of callees come from. -/
abbrev MethodProvider := MethodKey → Option Method

namespace Program

def find? (p : Program) : MethodProvider := fun key => p.methods.find? (·.key = key)

end Program

def MethodProvider.empty : MethodProvider := fun _ => none

end StackCompiler
