/-
Reading JSON text. Every reader takes the characters that are left and
returns what it read with the characters after it.
-/
import StackCompiler.Json.Basic
import StackCompiler.Text.Hex

namespace StackCompiler
namespace Json.Reader

def isSpace (c : Char) : Bool := c = ' ' || c = '\n' || c = '\t' || c = '\r'

def skip (cs : List Char) : List Char := cs.dropWhile isSpace

def isDigit (c : Char) : Bool := '0' ≤ c && c ≤ '9'

def digits (cs : List Char) : List Nat × List Char :=
  let (run, rest) := cs.span isDigit
  (run.map fun c => c.toNat - '0'.toNat, rest)

def whole? (cs : List Char) : Option (List Nat × List Char) :=
  match cs with
  | '0' :: rest => some ([0], rest)
  | cs =>
    match digits cs with
    | ([], _) => none
    | found => some found

def fraction? (cs : List Char) : Option (Option (List Nat) × List Char) :=
  match cs with
  | '.' :: rest =>
    match digits rest with
    | ([], _) => none
    | (ds, rest) => some (some ds, rest)
  | cs => some (none, cs)

def exponent? (cs : List Char) : Option (Option Int × List Char) :=
  match cs with
  | c :: rest =>
    if c = 'e' || c = 'E' then
      let (negative, rest) :=
        match rest with
        | '+' :: rest => (false, rest)
        | '-' :: rest => (true, rest)
        | rest => (false, rest)
      match digits rest with
      | ([], _) => none
      | (ds, rest) =>
        let e : Int := JsonNumber.natural ds
        some (some (if negative then -e else e), rest)
    else some (none, c :: rest)
  | [] => some (none, [])

def number? (cs : List Char) : Option (JsonNumber × List Char) := do
  let (negative, cs) :=
    match cs with
    | '-' :: rest => (true, rest)
    | cs => (false, cs)
  let (whole, cs) ← whole? cs
  let (fraction, cs) ← fraction? cs
  let (exponent, cs) ← exponent? cs
  return (⟨negative, whole, fraction, exponent⟩, cs)

def unit? (a b c d : Char) : Option Nat := Hex.number? [a, b, c, d]

/-- A character that follows a backslash, other than `u`. -/
def escape? : Char → Option Char
  | '\"' => some '\"'
  | '\\' => some '\\'
  | '/' => some '/'
  | 'b' => some '\x08'
  | 'f' => some '\x0c'
  | 'n' => some '\n'
  | 'r' => some '\r'
  | 't' => some '\t'
  | _ => none

def isHighHalf (n : Nat) : Bool := 0xD800 ≤ n && n < 0xDC00

def isLowHalf (n : Nat) : Bool := 0xDC00 ≤ n && n < 0xE000

def paired (high low : Nat) : Char := Char.ofNat (0x10000 + (high - 0xD800) * 0x400 + (low - 0xDC00))

/-- Reads a string after its opening quote. `high` is a first half that waits for its second;
`sound` says that no half has been left alone. -/
def string? (done : List Char) (high : Option Nat) (sound : Bool) :
    List Char → Option (Option String × List Char)
  | [] => none
  | '\"' :: rest =>
    some (if sound && high.isNone then some (String.ofList done.reverse) else none, rest)
  | '\\' :: 'u' :: a :: b :: c :: d :: rest =>
    match unit? a b c d, high with
    | none, _ => none
    | some n, some h =>
      if isLowHalf n then string? (paired h n :: done) none sound rest
      else if isHighHalf n then string? done (some n) false rest
      else string? (Char.ofNat n :: done) none false rest
    | some n, none =>
      if isHighHalf n then string? done (some n) sound rest
      else if isLowHalf n then string? done none false rest
      else string? (Char.ofNat n :: done) none sound rest
  | '\\' :: c :: rest =>
    match escape? c with
    | none => none
    | some e => string? (e :: done) none (sound && high.isNone) rest
  | c :: rest =>
    if c = '\\' || c.toNat < 0x20 then none
    else string? (c :: done) none (sound && high.isNone) rest

def word? (expected : List Char) (cs : List Char) : Option (List Char) :=
  if expected.isPrefixOf cs then some (cs.drop expected.length) else none

mutual

/-- Reads a document; `fuel` bounds the steps. -/
def value? : Nat → List Char → Option (Json × List Char)
  | 0, _ => none
  | fuel + 1, cs =>
    match skip cs with
    | '[' :: rest =>
      match skip rest with
      | ']' :: rest => some (.array [], rest)
      | rest => (items? fuel rest).map fun (items, rest) => (.array items, rest)
    | '\x7b' :: rest =>
      match skip rest with
      | '\x7d' :: rest => some (.object [], rest)
      | rest => (members? fuel rest).map fun (fields, rest) => (.object fields, rest)
    | '\"' :: rest => (string? [] none true rest).map fun (s, rest) => (.string s, rest)
    | 't' :: rest => (word? ['r', 'u', 'e'] rest).map fun rest => (.bool true, rest)
    | 'f' :: rest => (word? ['a', 'l', 's', 'e'] rest).map fun rest => (.bool false, rest)
    | 'n' :: rest => (word? ['u', 'l', 'l'] rest).map fun rest => (.null, rest)
    | cs => (number? cs).map fun (n, rest) => (.number n, rest)

def items? : Nat → List Char → Option (List Json × List Char)
  | 0, _ => none
  | fuel + 1, cs =>
    match value? fuel cs with
    | none => none
    | some (item, rest) =>
      match skip rest with
      | ',' :: rest => (items? fuel rest).map fun (items, rest) => (item :: items, rest)
      | ']' :: rest => some ([item], rest)
      | _ => none

def members? : Nat → List Char → Option (List (Option String × Json) × List Char)
  | 0, _ => none
  | fuel + 1, cs =>
    match skip cs with
    | '\"' :: rest =>
      match string? [] none true rest with
      | none => none
      | some (key, rest) =>
        match skip rest with
        | ':' :: rest =>
          match value? fuel rest with
          | none => none
          | some (item, rest) =>
            match skip rest with
            | ',' :: rest =>
              (members? fuel rest).map fun (fields, rest) => ((key, item) :: fields, rest)
            | '\x7d' :: rest => some ([(key, item)], rest)
            | _ => none
        | _ => none
    | _ => none

end

end Json.Reader

/-- Reads a text that is one JSON document, in at most two steps for each character. -/
def Json.parse? (s : String) : Option Json :=
  let cs := s.toList
  match Json.Reader.value? (2 * cs.length + 2) cs with
  | some (j, rest) => if (Json.Reader.skip rest).isEmpty then some j else none
  | none => none

end StackCompiler
