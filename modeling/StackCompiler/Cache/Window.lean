/-
The code window: one piece of memory for all code. Where it lies is decided by
the host. Every access is given by its distance from the first byte and checked
against the size of the window.
-/
import StackCompiler.Cache.Error
import StackCompiler.Convention

namespace StackCompiler

/-- How far a call instruction reaches, in bytes. -/
def callReach : Nat := 0x8000000

/-- What a host decides: the size of its pages, and for so many bytes the address where they are mapped, or the number
of the error. Calls reach over whole pages, and mapped memory starts with a page and lies below 64 bits. -/
structure Host where
  pageSize : Nat
  map : Nat → Except Nat Nat
  pages : 8 ∣ pageSize ∧ pageSize ∣ callReach
  mapped : ∀ {size base}, map size = .ok base → pageSize ∣ base ∧ base + size < 0x10000000000000000

/-- A host with pages of 4096 bytes and 47 bits of addresses, which maps memory from the given page on. -/
def Host.mapping (page : Nat) : Host where
  pageSize := 4096
  map size := if 4096 * page + size ≥ 0x800000000000 then .error 12 else .ok (4096 * page)
  pages := by decide
  mapped {size base} h := by
    split at h
    · cases h
    · cases h
      exact ⟨Nat.dvd_mul_right _ _, by omega⟩

/-- A stretch of addresses. -/
structure Extent where
  base : Nat
  size : Nat

/-- Memory by addresses, with those that belong to the window. -/
structure Window extends Extent where
  byte : Nat → UInt8

instance : Inhabited Window := ⟨{ base := 0, size := 0, byte := fun _ => 0 }⟩

namespace Window

/-- A zeroed window of at least the given size, in whole pages. -/
def reserve (size : Nat) (host : Host := .mapping 0) : Except MemoryError Window :=
  let rounded := alignUp size host.pageSize
  if size = 0 then .error (.invalidSize size)
  else
    match host.map rounded with
    | .error errno => .error (.reserveFailed rounded errno)
    | .ok base => .ok { base, size := rounded, byte := fun _ => 0 }

/-- Whether the bytes lie in the window. -/
def check (w : Window) (offset length : Nat) : Except MemoryError Unit :=
  if offset + length ≤ w.size then .ok () else .error (.outOfBounds offset length w.size)

/-- Memory with the given bytes from an address on. -/
def put (w : Window) (address : Nat) (data : Bytes) : Window :=
  { w with byte := fun i =>
      if address ≤ i then
        match data[i - address]? with
        | some b => b
        | none => w.byte i
      else w.byte i }

/-- Copies bytes into the window. -/
def write (w : Window) (offset : Nat) (data : Bytes) : Except MemoryError Window :=
  (w.check offset data.size).map fun _ => w.put (w.base + offset) data

/-- Writes one instruction. -/
def writeWord (w : Window) (offset : Nat) (word : BitVec 32) : Except MemoryError Window :=
  w.write offset (Bytes.ofWord word).toArray

/-- Copies bytes out of the window. -/
def read (w : Window) (offset length : Nat) : Except MemoryError Bytes :=
  (w.check offset length).map fun _ => Array.ofFn fun (i : Fin length) => w.byte (w.base + offset + i)

/-- Reads one instruction. -/
def readWord (w : Window) (offset : Nat) : Except MemoryError (BitVec 32) :=
  (w.read offset 4).map fun bytes => Bytes.toWord bytes.toList

end Window
end StackCompiler
