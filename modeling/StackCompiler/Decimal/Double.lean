/-
The text of a double: the shortest decimal that reads back, positional when
the magnitude lies in `[10^-4, 10^16)` and with an exponent otherwise.
Positional text always has a decimal point.
-/
import StackCompiler.Double
import StackCompiler.Decimal.Shortest

namespace StackCompiler
namespace Decimal

/-- How doubles are written. -/
structure Format where
  leastPositional : Int
  greatestPositional : Int
  exponentMark : String
  nan : String
  infinity : String

def Format.listing : Format := ⟨-4, 15, "e", "NaN", "inf"⟩

def positional (digits : List Char) (exponent : Int) : List Char :=
  if exponent ≥ 0 then digits ++ List.replicate exponent.toNat '0' ++ ['.', '0']
  else
    let places := exponent.natAbs
    if places < digits.length then
      digits.take (digits.length - places) ++ '.' :: digits.drop (digits.length - places)
    else '0' :: '.' :: (List.replicate (places - digits.length) '0' ++ digits)

/-- One digit, the rest after a point, and the exponent of the first digit. -/
def exponential (f : Format) (digits : List Char) (lead : Int) : List Char :=
  let mantissa :=
    match digits with
    | [] => []
    | [d] => [d]
    | d :: rest => d :: '.' :: rest
  mantissa ++ f.exponentMark.toList ++ (toString lead).toList

def Scientific.text (f : Format) (s : Scientific) : List Char :=
  let digits := Nat.toDigits 10 s.digits
  let lead := s.exponent + digits.length - 1
  if f.leastPositional ≤ lead ∧ lead ≤ f.greatestPositional then positional digits s.exponent
  else exponential f digits lead

end Decimal

namespace Double

/-- The interval of reals that round to the magnitude of a finite nonzero double. -/
def rounded (x : Double) : Decimal.Rounded :=
  let e := x.exponentField
  let frac := x.fractionField
  if e = 0 then .of frac (-1074) false
  else .of (frac + 0x10000000000000) (e - 1075) (frac = 0 ∧ e ≠ 1)

def magnitudeText (x : Double) : List Char :=
  if x.exponentField = 2047 then
    let f := Decimal.Format.listing
    (if x.fractionField = 0 then f.infinity else f.nan).toList
  else if x.exponentField = 0 ∧ x.fractionField = 0 then ['0', '.', '0']
  else (x.rounded.shortest).text Decimal.Format.listing

def isNaN (x : Double) : Bool := x.exponentField = 2047 && x.fractionField ≠ 0

/-- The text of a double; a NaN has no sign. -/
def text (x : Double) : String :=
  String.ofList (if x.negative && !x.isNaN then '-' :: x.magnitudeText else x.magnitudeText)

end Double
end StackCompiler
