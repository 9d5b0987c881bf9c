/-
Numbers in groups of seven bits, least significant group first; every byte
but the last has its top bit set. A reader takes at most ten bytes and keeps
64 bits.
-/

namespace StackCompiler.Leb128

/-- Writes a number; fuel equal to the number suffices. -/
def encodeWithin : Nat → Nat → List UInt8
  | 0, n => [UInt8.ofNat n]
  | fuel + 1, n =>
    if n < 128 then [UInt8.ofNat n]
    else UInt8.ofNat (n % 128 + 128) :: encodeWithin fuel (n / 128)

def encode (n : Nat) : List UInt8 := encodeWithin n n

/-- Reads at most `limit` bytes; the result is the number and how many bytes it took. -/
def decodeWithin : Nat → List UInt8 → Option (Nat × Nat)
  | 0, _ => none
  | _ + 1, [] => none
  | limit + 1, b :: rest =>
    if b.toNat < 128 then some (b.toNat, 1)
    else
      match decodeWithin limit rest with
      | some (n, used) => some (b.toNat % 128 + 128 * n, used + 1)
      | none => none

def decode? (bytes : List UInt8) : Option (Nat × Nat) :=
  match decodeWithin 10 bytes with
  | some (n, used) => some (n % 0x10000000000000000, used)
  | none => none

/-- The number at an index in a sequence of numbers; what is before it must be readable. -/
def get? : Nat → List UInt8 → Option Nat
  | index, bytes =>
    match decode? bytes with
    | none => none
    | some (n, used) =>
      match index with
      | 0 => some n
      | index + 1 => get? index (bytes.drop used)

end StackCompiler.Leb128
