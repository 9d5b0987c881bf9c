/-
Hexadecimal text. Numbers and byte strings are written in lower-case digits;
byte strings are read from text in which blanks may stand anywhere. A pair
of characters is read as a number, so a sign may stand before a single digit.
-/
import StackCompiler.Bytes
import StackCompiler.Text.Blank

namespace StackCompiler.Hex

def text (n : Nat) : String := String.ofList (Nat.toDigits 16 n)

/-- `n` in at least `width` digits, zeros in front. -/
def padded (width n : Nat) : String :=
  let digits := Nat.toDigits 16 n
  String.ofList (List.replicate (width - digits.length) '0' ++ digits)

def marked (n : Nat) : String := "0x" ++ text n

def markedTo (width n : Nat) : String := "0x" ++ padded width n

def byte (b : UInt8) : String := padded 2 b.toNat

def bytes (bs : Bytes) : String := String.join (bs.toList.map byte)

/-- An instruction word, most significant digit first. -/
def word (w : BitVec 32) : String := padded 8 w.toNat

def digit? (c : Char) : Option Nat :=
  if '0' ≤ c ∧ c ≤ '9' then some (c.toNat - '0'.toNat)
  else if 'a' ≤ c ∧ c ≤ 'f' then some (c.toNat - 'a'.toNat + 10)
  else if 'A' ≤ c ∧ c ≤ 'F' then some (c.toNat - 'A'.toNat + 10)
  else none

/-- The number that digits spell, most significant first. -/
def number? (digits : List Char) : Option Nat :=
  digits.foldlM (fun n c => (digit? c).map (16 * n + ·)) 0

/-- What is wrong with hexadecimal text. -/
inductive Fault where
  | oddLength
  | badPair (pair : String)
deriving DecidableEq, Repr

def pair? (a b : Char) : Option UInt8 :=
  if a = '+' then (digit? b).map UInt8.ofNat
  else do
    let high ← digit? a
    let low ← digit? b
    return UInt8.ofNat (16 * high + low)

def pairs : List Char → Except Fault (List UInt8)
  | [] => .ok []
  | [_] => .error .oddLength
  | a :: b :: rest =>
    match pair? a b with
    | none => .error (.badPair (String.ofList [a, b]))
    | some x => (pairs rest).map (x :: ·)

/-- Reads a byte string, skipping blanks. An odd number of characters is refused first. -/
def parse (s : String) : Except Fault Bytes :=
  let digits := s.toList.filter (!Text.isBlank ·)
  if digits.length % 2 ≠ 0 then .error .oddLength
  else (pairs digits).map List.toArray

end StackCompiler.Hex
