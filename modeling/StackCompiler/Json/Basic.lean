/-
JSON documents. A number keeps its digits, so that an integer, a decimal and
minus zero stay apart; an object keeps all its fields in order, repeated ones
too. A string one of whose escapes is half of a surrogate pair is well formed
but denotes no text: it is `string none`.
-/
import StackCompiler.Decimal.Double

namespace StackCompiler

/-- A number by its digits. -/
structure JsonNumber where
  negative : Bool
  whole : List Nat
  fraction : Option (List Nat)
  exponent : Option Int
deriving DecidableEq, Repr, Inhabited

/-- A document. -/
inductive Json where
  | null
  | bool (b : Bool)
  | number (n : JsonNumber)
  | string (s : Option String)
  | array (items : List Json)
  | object (fields : List (Option String × Json))
deriving Repr, Inhabited

namespace JsonNumber

def natural (digits : List Nat) : Nat := digits.foldl (10 * · + ·) 0

/-- The integer, if the number is written as one and fits 64 bits; minus zero is no integer. -/
def integer? (n : JsonNumber) : Option Int :=
  if n.fraction.isSome || n.exponent.isSome then none
  else
    let v := natural n.whole
    if n.negative then if 1 ≤ v ∧ v ≤ 0x8000000000000000 then some (-(v : Int)) else none
    else if v < 0x10000000000000000 then some v else none

/-- Takes digits into a significand as long as it fits 64 bits; returns it with the number of
digits taken. -/
def gather (significand taken : Nat) : List Nat → Nat × Nat
  | [] => (significand, taken)
  | d :: ds =>
    if 10 * significand + d < 0x10000000000000000 then gather (10 * significand + d) (taken + 1) ds
    else (significand, taken)

def powerOfTen (n : Nat) : Float := Float.ofScientific 1 false n

/-- `f * 10^e` in one rounding step, after dividing by `10^308` while the exponent is below the
range of the doubles; three divisions reach zero. Overflow has no value. -/
def scaled? : Nat → Float → Int → Option Float
  | 0, f, _ => some f
  | fuel + 1, f, e =>
    if e.natAbs ≤ 308 then
      if e ≥ 0 then
        let r := f * powerOfTen e.natAbs
        if r.isInf then none else some r
      else some (f / powerOfTen e.natAbs)
    else if f == 0.0 then some f
    else if e ≥ 0 then none
    else scaled? fuel (f / powerOfTen 308) (e + 308)

/-- The double nearest by: the digits that fit a 64-bit significand, scaled by the power of ten. -/
def double? (n : JsonNumber) : Option Double :=
  let (high, taken) := gather 0 0 n.whole
  let dropped := n.whole.length - taken
  let (significand, places) := gather high 0 (n.fraction.getD [])
  let e : Int := dropped - places + n.exponent.getD 0
  (scaled? 5 (UInt64.ofNat significand).toFloat e).map fun f =>
    let d := Double.ofFloat f
    if n.negative then d.neg else d

def ofInt (i : Int) : JsonNumber :=
  ⟨i < 0, (Nat.toDigits 10 i.natAbs).map fun c => c.toNat - '0'.toNat, none, none⟩

end JsonNumber

namespace Json

def ofInt (i : Int) : Json := number (.ofInt i)

def ofNat (n : Nat) : Json := ofInt n

def text (s : String) : Json := string (some s)

def record (fields : List (String × Json)) : Json :=
  object (fields.map fun (key, value) => (some key, value))

def field? (j : Json) (name : String) : Option Json :=
  match j with
  | object fields => (fields.find? fun (key, _) => key == some name).map (·.2)
  | _ => none

def integer? : Json → Option Int
  | number n => n.integer?
  | _ => none

/-- An integer from `0` up to before `limit`. -/
def natBelow? (limit : Nat) (j : Json) : Option Nat :=
  match j.integer? with
  | some i => if 0 ≤ i ∧ i < limit then some i.toNat else none
  | none => none

def double? : Json → Option Double
  | number n => n.double?
  | _ => none

def text? : Json → Option String
  | string s => s
  | _ => none

def bool? : Json → Option Bool
  | bool b => some b
  | _ => none

def items? : Json → Option (List Json)
  | array items => some items
  | _ => none

/-- The values of a record with the given field names, each missing or present. A record is
written as an object, where other fields are ignored and a repeated one is refused, or as the
array of its fields in order, the last ones possibly missing. -/
def fields? (names : List String) : Json → Option (List (Option Json))
  | array items =>
    if items.length ≤ names.length then
      some (items.map some ++ List.replicate (names.length - items.length) none)
    else none
  | object fields =>
    if fields.all (·.1.isSome) && names.all fun name => fields.countP (·.1 == some name) ≤ 1 then
      some (names.map fun name => (fields.find? fun (key, _) => key == some name).map (·.2))
    else none
  | _ => none

/-- The name of an alternative and its content: a bare string, or an object with one field. -/
def variant? : Json → Option (String × Option Json)
  | string (some name) => some (name, none)
  | object [(some name, content)] => some (name, some content)
  | _ => none

def keyword? (j : Json) : Option String :=
  match j.variant? with
  | some (name, none) | some (name, some .null) => some name
  | _ => none

end Json
end StackCompiler
