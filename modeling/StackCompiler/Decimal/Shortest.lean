/-
The shortest decimal of a binary number. A positive double is `m * 2^q`; the
reals that round to it form an interval around it, and the shortest decimal
is the one with the fewest digits inside that interval, the nearest to the
number if there are several, the larger of two equally near ones.
-/

namespace StackCompiler.Decimal

/-- A positive decimal `digits * 10^exponent`. -/
structure Scientific where
  digits : Nat
  exponent : Int
deriving DecidableEq, Repr

/-- A fraction of natural numbers. -/
structure Ratio where
  num : Nat
  den : Nat
deriving Repr

namespace Ratio

def scaled (n : Nat) (q : Int) : Ratio :=
  if q < 0 then ⟨n, 1 <<< q.natAbs⟩ else ⟨n <<< q.natAbs, 1⟩

def inUnits (r : Ratio) (e : Int) : Ratio :=
  if e < 0 then ⟨r.num * Nat.pow 10 e.natAbs, r.den⟩ else ⟨r.num, r.den * Nat.pow 10 e.natAbs⟩

def floor (r : Ratio) : Nat := r.num / r.den

def ltNat (r : Ratio) (n : Nat) : Bool := r.num < n * r.den

def leNat (r : Ratio) (n : Nat) : Bool := r.num ≤ n * r.den

end Ratio

/-- A positive double `m * 2^q` with the interval of reals that round to it. -/
structure Rounded where
  value : Ratio
  low : Ratio
  high : Ratio
  closed : Bool
deriving Repr

/-- The interval of `m * 2^q`. The gap below a power of two is half the gap above it, except at
the least exponent. -/
def Rounded.of (m : Nat) (q : Int) (narrowBelow : Bool) : Rounded where
  value := .scaled (4 * m) (q - 2)
  low := .scaled (if narrowBelow then 4 * m - 1 else 4 * m - 2) (q - 2)
  high := .scaled (4 * m + 2) (q - 2)
  closed := m % 2 = 0

def Rounded.holds (r : Rounded) (e : Int) (n : Nat) : Bool :=
  let low := r.low.inUnits e
  let high := r.high.inUnits e
  if r.closed then low.leNat n && !(high.ltNat n) else low.ltNat n && !(high.leNat n)

/-- The neighbour of the value on the grid of `10^e` that lies in the interval, the nearer of
two, the upper of two equally near ones. -/
def Rounded.onGrid? (r : Rounded) (e : Int) : Option Nat :=
  let v := r.value.inUnits e
  let below := v.floor
  match r.holds e below, r.holds e (below + 1) with
  | true, true =>
    -- twice the distance to the lower neighbour against one whole unit
    if 2 * (v.num - below * v.den) < v.den then some below else some (below + 1)
  | true, false => some below
  | false, true => some (below + 1)
  | false, false => none

def Ratio.magnitude (r : Ratio) : Int :=
  if r.num ≥ r.den then (Nat.toDigits 10 r.floor).length - 1
  else
    -- the number of places to shift left until the whole part is not zero
    let shift := (Nat.toDigits 10 (r.den / r.num)).length
    if r.num * Nat.pow 10 (shift - 1) ≥ r.den then 1 - shift else - shift

def Scientific.trim : Nat → Scientific → Scientific
  | 0, s => s
  | fuel + 1, s =>
    if s.digits ≠ 0 ∧ s.digits % 10 = 0 then trim fuel ⟨s.digits / 10, s.exponent + 1⟩ else s

/-- Tries one digit more until the grid has a point in the interval. -/
def Rounded.search (r : Rounded) (top : Int) : Nat → Nat → Scientific
  | 0, _ => ⟨0, 0⟩
  | fuel + 1, count =>
    let e := top - count + 1
    match r.onGrid? e with
    | some n => Scientific.trim 20 ⟨n, e⟩
    | none => r.search top fuel (count + 1)

/-- The shortest decimal of a positive double; seventeen digits always suffice. -/
def Rounded.shortest (r : Rounded) : Scientific := r.search r.value.magnitude 17 1

end StackCompiler.Decimal
