/-
The numbers, dates and times of a TOML document. An underscore may stand
between two digits.
-/
import StackCompiler.Text.Hex
import StackCompiler.Toml.Basic

namespace StackCompiler
namespace Toml

/-- The digits of a number and the characters after them; digits may follow an underscore each. -/
def digitRun (isDigit : Char → Bool) : List Char → List Char × List Char
  | '_' :: d :: rest =>
    if isDigit d then
      let (ds, rest) := digitRun isDigit rest
      (d :: ds, rest)
    else ([], '_' :: d :: rest)
  | d :: rest =>
    if isDigit d then
      let (ds, rest) := digitRun isDigit rest
      (d :: ds, rest)
    else ([], d :: rest)
  | [] => ([], [])

def digits? (isDigit : Char → Bool) : List Char → Option (List Char × List Char)
  | d :: rest =>
    if isDigit d then
      let (ds, rest) := digitRun isDigit rest
      some (d :: ds, rest)
    else none
  | [] => none

def natural (base : Nat) (ds : List Char) : Nat :=
  ds.foldl (fun n c => base * n + (Hex.digit? c).getD 0) 0

def sign : List Char → Bool × List Char
  | '+' :: rest => (false, rest)
  | '-' :: rest => (true, rest)
  | cs => (false, cs)

/-- Reads decimal digits; a zero stands alone. -/
def whole? : List Char → Option (List Char × List Char)
  | '0' :: rest => some (['0'], rest)
  | cs => digits? Char.isDigit cs

def fitted? (i : Int) : Option Toml :=
  if -0x8000000000000000 ≤ i ∧ i < 0x8000000000000000 then some (integer i) else none

/-- Reads an integer of a base after its mark. -/
def based? (base : Nat) (isDigit : Char → Bool) (cs : List Char) : Option (Toml × List Char) := do
  let (ds, rest) ← digits? isDigit cs
  let v ← fitted? (natural base ds)
  return (v, rest)

def isHexDigit (c : Char) : Bool := (Hex.digit? c).isSome

def integer? : List Char → Option (Toml × List Char)
  | '0' :: 'x' :: rest => based? 16 isHexDigit rest
  | '0' :: 'o' :: rest => based? 8 (fun c => '0' ≤ c && c ≤ '7') rest
  | '0' :: 'b' :: rest => based? 2 (fun c => c = '0' || c = '1') rest
  | cs => do
    let (negative, cs) := sign cs
    let (ds, rest) ← whole? cs
    let v ← fitted? (if negative then -(natural 10 ds : Int) else natural 10 ds)
    return (v, rest)

def exponent? : List Char → Option (Option Int × List Char)
  | c :: rest =>
    if c = 'e' || c = 'E' then do
      let (negative, rest) := sign rest
      let (ds, rest) ← digits? Char.isDigit rest
      let e : Int := natural 10 ds
      return (some (if negative then -e else e), rest)
    else some (none, c :: rest)
  | [] => some (none, [])

/-- Whether `digits * 10^exponent` is past the midpoint between the greatest double and the power
of two above it. -/
def overflows (digits : Nat) (exponent : Int) : Bool :=
  let bound := (1 <<< 1024) - (1 <<< 970)
  if digits = 0 then false
  else if exponent < 0 then
    exponent.natAbs < (Nat.toDigits 10 digits).length && digits ≥ bound * Nat.pow 10 exponent.natAbs
  else exponent ≥ 310 || digits * Nat.pow 10 exponent.natAbs ≥ bound

/-- Reads a float: a fraction, an exponent, or both. A positive one that overflows is refused. -/
def decimal? (cs : List Char) : Option (Toml × List Char) := do
  let (negative, cs) := sign cs
  let (ds, cs) ← whole? cs
  let (places, cs) ←
    match cs with
    | '.' :: rest => (digits? Char.isDigit rest).map fun (fs, rest) => (some fs, rest)
    | cs => some (none, cs)
  let (e, rest) ← exponent? cs
  if places.isNone && e.isNone then none
  else
    let fs := places.getD []
    if !negative && overflows (natural 10 (ds ++ fs)) (e.getD 0 - fs.length) then none
    else some (float, rest)

/-- Reads a float that is no number of digits. -/
def special? (cs : List Char) : Option (Toml × List Char) :=
  match (sign cs).2 with
  | 'i' :: 'n' :: 'f' :: rest => some (float, rest)
  | 'n' :: 'a' :: 'n' :: rest => some (float, rest)
  | _ => none

/-! ## Dates and times -/

/-- Reads two digits that spell a number from `least` to `greatest`. -/
def two? (least greatest : Nat) : List Char → Option (Nat × List Char)
  | a :: b :: rest =>
    if a.isDigit && b.isDigit then
      let n := natural 10 [a, b]
      if least ≤ n ∧ n ≤ greatest then some (n, rest) else none
    else none
  | _ => none

def mark? (c : Char) : List Char → Option (List Char)
  | d :: rest => if d = c then some rest else none
  | [] => none

def daysOf (year month : Nat) : Nat :=
  if month = 2 then
    if year % 4 = 0 ∧ (year % 100 ≠ 0 ∨ year % 400 = 0) then 29 else 28
  else if month = 4 ∨ month = 6 ∨ month = 9 ∨ month = 11 then 30
  else 31

def day? (cs : List Char) : Option (List Char) := do
  let (century, cs) ← two? 0 99 cs
  let (year, cs) ← two? 0 99 cs
  let cs ← mark? '-' cs
  let (month, cs) ← two? 1 12 cs
  let cs ← mark? '-' cs
  let (_, cs) ← two? 1 (daysOf (100 * century + year) month) cs
  return cs

def skipFraction : List Char → List Char
  | '.' :: d :: rest => if d.isDigit then rest.dropWhile Char.isDigit else '.' :: d :: rest
  | cs => cs

def time? (cs : List Char) : Option (List Char) := do
  let (_, cs) ← two? 0 23 cs
  let cs ← mark? ':' cs
  let (_, cs) ← two? 0 59 cs
  let cs ← mark? ':' cs
  let (_, cs) ← two? 0 60 cs
  return skipFraction cs

def offset? : List Char → Option (List Char)
  | 'Z' :: rest | 'z' :: rest => some rest
  | '+' :: rest | '-' :: rest => do
    let (_, cs) ← two? 0 23 rest
    let cs ← mark? ':' cs
    let (_, cs) ← two? 0 59 cs
    return cs
  | _ => none

/-- Drops a time with an offset, if one follows a day. -/
def skipTime (cs : List Char) : List Char :=
  match cs with
  | c :: rest =>
    if c = 'T' || c = 't' || c = ' ' then
      match time? rest with
      | some rest => (offset? rest).getD rest
      | none => cs
    else cs
  | [] => []

/-- Reads a day, a time of the day, or both. -/
def date? (cs : List Char) : Option (Toml × List Char) :=
  match day? cs with
  | some rest => some (date, skipTime rest)
  | none => (time? cs).map fun rest => (date, rest)

def number? (cs : List Char) : Option (Toml × List Char) :=
  date? cs <|> decimal? cs <|> special? cs <|> integer? cs

end Toml
end StackCompiler
