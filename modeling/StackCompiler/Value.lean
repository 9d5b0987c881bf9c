/-
Constants. Each constant has a kind and a 64-bit register image; equality of
constants is equality of kind and image, with null apart from the object
whose handle is zero.
-/
import StackCompiler.Kind
import StackCompiler.Decimal.Double
import StackCompiler.Text.Quoted

namespace StackCompiler

/-- The handle of a heap object. The collector owns the object. -/
structure ObjectRef where
  handle : UInt64
deriving DecidableEq, Repr, Inhabited

/-- A value with its kind. -/
inductive Value where
  | int (v : Int32)
  | long (v : Int64)
  | double (v : Double)
  | word (v : UInt64)
  | reference (r : ObjectRef)
  | null
deriving DecidableEq, Repr, Inhabited

def Kind.zero : Kind → Value
  | .int | .void => .int 0
  | .long => .long 0
  | .double => .double .zero
  | .reference => .null
  | .word => .word 0

namespace Value

def kind : Value → Kind
  | int _ => .int
  | long _ => .long
  | double _ => .double
  | word _ => .word
  | reference _ | null => .reference

def bits : Value → UInt64
  | int v => v.toInt64.toUInt64
  | long v => v.toUInt64
  | double v => v.bits
  | word v => v
  | reference r => r.handle
  | null => 0

def signedBits (v : Value) : Int := v.bits.toInt64.toInt

def isZero (v : Value) : Bool := v.bits = 0

def text : Value → String
  | int v => toString v.toInt
  | long v => toString v.toInt ++ "L"
  | double v => v.text ++ "D"
  | word v => Hex.marked v.toNat ++ "W"
  | reference r => "@" ++ Hex.marked r.handle.toNat
  | null => "null"

def listing : Value → String
  | int v => Text.apply "Int" [toString v.toInt]
  | long v => Text.apply "Long" [toString v.toInt]
  | double v => Text.apply "Double" [v.text]
  | word v => Text.apply "Word" [toString v.toNat]
  | reference r => Text.apply "Reference" [Text.apply "ObjectRef" [toString r.handle.toNat]]
  | null => "Null"

end Value

/-- The order of bytes in memory. -/
inductive ByteOrder where
  | little
  | big
deriving DecidableEq, Repr

/-- Why literals are not laid out. -/
inductive LiteralError where
  | notScalar (text : String)
  | misplaced (index offset : Nat)
deriving DecidableEq, Repr

def LiteralError.message : LiteralError → String
  | notScalar text => s!"reference literal {text} cannot be stored as scalar bytes"
  | misplaced index offset =>
    s!"scalar literal at index {index} does not start at byte offset {offset}"

/-- Sizes and byte order of values in memory. -/
structure DataModel where
  wordWidth : Nat
  order : ByteOrder

def DataModel.image (model : DataModel) (v : Value) : Except LiteralError (List UInt8) :=
  let write (width : Nat) : List UInt8 :=
    match model.order with
    | .little => Bytes.littleEndian width v.bits.toNat
    | .big => Bytes.bigEndian width v.bits.toNat
  match v with
  | .int _ => .ok (write 4)
  | .long _ | .double _ | .word _ => .ok (write model.wordWidth)
  | .reference _ | .null => .error (.notScalar v.text)

end StackCompiler
