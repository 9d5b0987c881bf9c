/-
Regions of the code window. A region is filled from its start; the methods in
it are found by address.
-/
import StackCompiler.Bundle.Method

namespace StackCompiler

/-- A named stretch of addresses. -/
structure MemoryRegion where
  name : String
  start : Nat
  size : Nat
deriving DecidableEq, Repr, Inhabited

namespace MemoryRegion

def contains (r : MemoryRegion) (address : Nat) : Bool :=
  r.start ≤ address && address < r.start + r.size

def text (r : MemoryRegion) : String :=
  r.name ++ " [" ++ Hex.marked r.start ++ ", " ++ Hex.marked (r.start + r.size) ++ ")"

end MemoryRegion

/-- A region of the cache, filled from its start. -/
structure Region where
  index : Nat
  name : String
  start : Nat
  size : Nat
  used : Nat := 0
  /-- Methods by the start of their bundle, in order. -/
  methods : List (Nat × CompiledMethod) := []
deriving DecidableEq, Repr, Inhabited

namespace Region

def memoryRegion (r : Region) : MemoryRegion := ⟨r.name, r.start, r.size⟩

def contains (r : Region) (address : Nat) : Bool := r.memoryRegion.contains address

/-- Hands out bytes behind the earlier ones, at a multiple of the alignment from the region's start. -/
def allocate? (r : Region) (size alignment : Nat) : Option (Nat × Region) :=
  let offset := alignUp r.used (max alignment 1)
  if offset + size > r.size then none
  else some (r.start + offset, { r with used := offset + size })

/-- Puts a method into its place; one with the same start is replaced. -/
def place (start : Nat) (m : CompiledMethod) :
    List (Nat × CompiledMethod) → List (Nat × CompiledMethod)
  | [] => [(start, m)]
  | (s, n) :: rest =>
    if start < s then (start, m) :: (s, n) :: rest
    else if start = s then (start, m) :: rest
    else (s, n) :: place start m rest

def insert (r : Region) (m : CompiledMethod) : Region :=
  { r with methods := place m.start m r.methods }

/-- The method whose bundle holds an address: only the last one that starts at or before it can. -/
def find? (r : Region) (address : Nat) : Option CompiledMethod :=
  match (r.methods.takeWhile (·.1 ≤ address)).getLast? with
  | some (_, m) => if m.contains address then some m else none
  | none => none

end Region
end StackCompiler
