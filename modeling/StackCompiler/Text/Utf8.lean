/-
Reading UTF-8. A character is one to four bytes; the first byte fixes how many
follow and in which range the second lies, so that every code point has one
form and the surrogates have none.
-/
import StackCompiler.Bytes

namespace StackCompiler
namespace Utf8

/-- What is wrong with bytes that should be text. -/
inductive Fault where
  /-- The `count` bytes from `index` start no character. -/
  | invalid (index count : Nat)
  /-- The bytes end inside the character at `index`. -/
  | incomplete (index : Nat)
deriving DecidableEq, Repr

def Fault.message : Fault → String
  | invalid index count => s!"invalid utf-8 sequence of {count} bytes from index {index}"
  | incomplete index => s!"incomplete utf-8 byte sequence from index {index}"

/-- A character whose first `seen` bytes are read. -/
structure Pending where
  seen : Nat
  owed : Nat
  least : Nat
  greatest : Nat
  code : Nat
deriving DecidableEq, Repr

/-- What a first byte from `0x80` on starts. -/
def start? (b : Nat) : Option Pending :=
  if 0xC2 ≤ b ∧ b ≤ 0xDF then some ⟨1, 1, 0x80, 0xBF, b - 0xC0⟩
  else if b = 0xE0 then some ⟨1, 2, 0xA0, 0xBF, 0⟩
  else if b = 0xED then some ⟨1, 2, 0x80, 0x9F, 0xD⟩
  else if 0xE1 ≤ b ∧ b ≤ 0xEF then some ⟨1, 2, 0x80, 0xBF, b - 0xE0⟩
  else if b = 0xF0 then some ⟨1, 3, 0x90, 0xBF, 0⟩
  else if 0xF1 ≤ b ∧ b ≤ 0xF3 then some ⟨1, 3, 0x80, 0xBF, b - 0xF0⟩
  else if b = 0xF4 then some ⟨1, 3, 0x80, 0x8F, 4⟩
  else none

/-- Reads the bytes from `index` on; `done` holds the characters before, last one first. -/
def decodeFrom (index : Nat) (pending : Option Pending) (done : List Char) :
    List UInt8 → Except Fault String
  | [] =>
    match pending with
    | some p => .error (.incomplete (index - p.seen))
    | none => .ok (String.ofList done.reverse)
  | byte :: rest =>
    let b := byte.toNat
    match pending with
    | none =>
      if b < 0x80 then decodeFrom (index + 1) none (Char.ofNat b :: done) rest
      else
        match start? b with
        | none => .error (.invalid index 1)
        | some p => decodeFrom (index + 1) (some p) done rest
    | some p =>
      if b < p.least ∨ p.greatest < b then .error (.invalid (index - p.seen) p.seen)
      else
        let code := 64 * p.code + (b - 0x80)
        if p.owed ≤ 1 then decodeFrom (index + 1) none (Char.ofNat code :: done) rest
        else decodeFrom (index + 1) (some ⟨p.seen + 1, p.owed - 1, 0x80, 0xBF, code⟩) done rest

def decode (bytes : Bytes) : Except Fault String := decodeFrom 0 none [] bytes.toList

end Utf8
end StackCompiler
