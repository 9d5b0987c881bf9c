/-
Doubles as their 64 bits. Two doubles are equal here exactly when their bits
are, so zero differs from minus zero and a NaN equals itself; `eq`, `lt` and
`le` are the comparisons of arithmetic.
-/

namespace StackCompiler

/-- A double by its bits, so that equality is decidable. -/
structure Double where
  bits : UInt64
deriving DecidableEq, Repr, Inhabited

namespace Double

def toFloat (x : Double) : Float := Float.ofBits x.bits

def ofFloat (f : Float) : Double := ⟨f.toBits⟩

def zero : Double := ⟨0⟩

def add (a b : Double) : Double := ofFloat (a.toFloat + b.toFloat)

def sub (a b : Double) : Double := ofFloat (a.toFloat - b.toFloat)

def mul (a b : Double) : Double := ofFloat (a.toFloat * b.toFloat)

def div (a b : Double) : Double := ofFloat (a.toFloat / b.toFloat)

def neg (a : Double) : Double := ⟨a.bits ^^^ 0x8000000000000000⟩

def eq (a b : Double) : Bool := a.toFloat == b.toFloat

def lt (a b : Double) : Bool := a.toFloat < b.toFloat

def le (a b : Double) : Bool := a.toFloat ≤ b.toFloat

def negative (x : Double) : Bool := x.bits.toNat ≥ 0x8000000000000000

def exponentField (x : Double) : Nat := x.bits.toNat / 0x10000000000000 % 0x800

def fractionField (x : Double) : Nat := x.bits.toNat % 0x10000000000000

end Double
end StackCompiler
