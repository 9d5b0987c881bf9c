/-
Byte strings and the two byte orders of a number. `littleEndian` and
`ofLittleEndian` are inverse on numbers that fit the width.
-/

namespace StackCompiler

/-- Bytes of code, data and files. -/
abbrev Bytes := Array UInt8

namespace Bytes

/-- The low `width` bytes of `n`, least significant first. -/
def littleEndian : Nat → Nat → List UInt8
  | 0, _ => []
  | width + 1, n => UInt8.ofNat n :: littleEndian width (n / 256)

def bigEndian (width n : Nat) : List UInt8 := (littleEndian width n).reverse

/-- The number whose bytes, least significant first, are given. -/
def ofLittleEndian : List UInt8 → Nat
  | [] => 0
  | b :: bs => b.toNat + 256 * ofLittleEndian bs

/-- The bytes of an instruction. -/
def ofWord (w : BitVec 32) : List UInt8 := littleEndian 4 w.toNat

def toWord (bs : List UInt8) : BitVec 32 := BitVec.ofNat 32 (ofLittleEndian (bs.take 4))

/-- Writes `data` over the bytes from `offset` on; what would lie past the end is dropped. -/
def overwrite (bs : Bytes) (offset : Nat) : List UInt8 → Bytes
  | [] => bs
  | b :: data => overwrite (bs.setIfInBounds offset b) (offset + 1) data

end Bytes

/-- The least multiple of `alignment` that is not below `n`; `n` itself for alignment zero. -/
def alignUp (n alignment : Nat) : Nat :=
  if alignment = 0 then n else (n + alignment - 1) / alignment * alignment

end StackCompiler
