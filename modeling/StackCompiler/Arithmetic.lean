/-
Arithmetic on constants. Ints and longs wrap around, division rounds toward
zero and has no result for a zero divisor, and values of other kinds have no
arithmetic. Comparison is defined for two values of one kind; references only
know equality.
-/
import StackCompiler.Bytecode.Method

namespace StackCompiler

namespace BinaryOp

def onInt (op : BinaryOp) (a b : Int32) : Option Int32 :=
  match op with
  | add => some (a + b)
  | sub => some (a - b)
  | mul => some (a * b)
  | div => if b = 0 then none else some (a / b)
  | rem => if b = 0 then none else some (a % b)
  | and => some (a &&& b)
  | or => some (a ||| b)
  | xor => some (a ^^^ b)

def onLong (op : BinaryOp) (a b : Int64) : Option Int64 :=
  match op with
  | add => some (a + b)
  | sub => some (a - b)
  | mul => some (a * b)
  | div => if b = 0 then none else some (a / b)
  | rem => if b = 0 then none else some (a % b)
  | and => some (a &&& b)
  | or => some (a ||| b)
  | xor => some (a ^^^ b)

def onDouble (op : BinaryOp) (a b : Double) : Option Double :=
  match op with
  | add => some (a.add b)
  | sub => some (a.sub b)
  | mul => some (a.mul b)
  | div => some (a.div b)
  | _ => none

def eval? (op : BinaryOp) : Value → Value → Option Value
  | .int a, .int b => (op.onInt a b).map .int
  | .long a, .long b => (op.onLong a b).map .long
  | .double a, .double b => (op.onDouble a b).map .double
  | _, _ => none

end BinaryOp

def Value.negate? : Value → Option Value
  | int a => some (int (-a))
  | long a => some (long (-a))
  | double a => some (double a.neg)
  | _ => none

def Conversion.eval? : Conversion → Value → Option Value
  | intToLong, .int a => some (.long a.toInt64)
  | longToInt, .long a => some (.int a.toInt32)
  | _, _ => none

def Comparison.eval? (c : Comparison) : Value → Value → Option Bool
  | .int a, .int b => some (c.holds (a = b) (a < b) (b < a))
  | .long a, .long b => some (c.holds (a = b) (a < b) (b < a))
  | .word a, .word b => some (c.holds (a = b) (a < b) (b < a))
  | .double a, .double b => some (c.holds (a.eq b) (a.lt b) (b.lt a))
  | a, b =>
    if a.kind = .reference ∧ b.kind = .reference then
      match c with
      | eq => some (a = b)
      | ne => some (a ≠ b)
      | _ => none
    else none

/-- The outcome on one value compared with itself, for values with an order. -/
def Comparison.onSame : Comparison → Bool
  | eq | ge | le => true
  | ne | lt | gt => false

end StackCompiler
