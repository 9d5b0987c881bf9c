/-
The code cache. Its window is the boot region followed by slots for runtime
regions, which are opened one after the other as the current region fills up.

An operation that fails keeps what it did before it failed, so results are
given together with the state.
-/
import StackCompiler.Cache.Region
import StackCompiler.Cache.Window

namespace StackCompiler

/-- Sizes of the boot region and of the others, and how many of these there may be. -/
structure CacheConfig where
  regionSize : Nat := 1048576
  regionCount : Nat := 64
  bootRegionSize : Nat := 4194304
deriving DecidableEq, Repr, Inhabited

/-- The bytes of the window, if they can be counted in 64 bits. -/
def CacheConfig.windowSize? (c : CacheConfig) : Option Nat :=
  let runtime := c.regionCount * c.regionSize
  if runtime ≥ 0x10000000000000000 ∨ runtime + c.bootRegionSize ≥ 0x10000000000000000 then none
  else some (runtime + c.bootRegionSize)

def maxRuntimeRegions : Nat := 64

/-- The address of a call instruction, and which method it calls. -/
structure CallSite where
  callee : MethodKey
  address : Nat
deriving DecidableEq, Repr

/-- Where an allocation lies. -/
structure Placement where
  region : Nat
  start : Nat
  size : Nat
deriving DecidableEq, Repr

/-- All installed code, where it lies and who calls it. -/
structure CodeCache where
  window : Window
  boot : Region
  /-- The runtime regions that have been opened; the last one receives code. -/
  runtime : Array Region := #[]
  regionSize : Nat
  regionCount : Nat
  registered : List MemoryRegion
  installed : List CompiledMethod := []
  /-- The installed versions of a method, oldest first. -/
  versions : MethodKey → List CompiledMethod := fun _ => []
  versions_eq : ∀ key, versions key = installed.filter (·.key = key) := by exact fun _ => rfl
  callSites : List CallSite := []
  unlinked : List CompiledMethod := []

namespace CodeCache

/-- A cache with an empty boot region, in a window for all regions that may be opened. -/
def create (c : CacheConfig) (host : Host := .mapping 0) : Except CacheError CodeCache :=
  if c.regionSize = 0 ∨ c.bootRegionSize = 0 then
    .error (.invalidLayout "region sizes must be non-zero")
  else if c.regionCount > maxRuntimeRegions then
    .error (.invalidLayout
      s!"{c.regionCount} runtime regions exceed the limit of {maxRuntimeRegions}")
  else
    match c.windowSize? with
    | none => .error (.invalidLayout "code window size overflows")
    | some size =>
      if size > callReach then .error (.windowOutOfReach size callReach)
      else
        match Window.reserve size host with
        | .error e => .error (.memory e)
        | .ok window =>
          let boot : Region := { index := 0, name := "boot", start := window.base, size := c.bootRegionSize }
          .ok { window, boot, regionSize := c.regionSize, regionCount := c.regionCount,
                registered := [boot.memoryRegion] }

def runtimeStart (s : CodeCache) : Nat := s.boot.start + s.boot.size

def currentRegion (s : CodeCache) : Nat := s.runtime.size

/-- The open region with an index; the boot region has the index zero. -/
def region? (s : CodeCache) (index : Nat) : Option Region :=
  if index = 0 then some s.boot else s.runtime[index - 1]?

/-- Puts a region in its place. -/
def setRegion (s : CodeCache) (index : Nat) (r : Region) : CodeCache :=
  if index = 0 then { s with boot := r }
  else { s with runtime := s.runtime.setIfInBounds (index - 1) r }

/-- Adds a region to the list unless it is there. -/
def register (s : CodeCache) (r : MemoryRegion) : CodeCache :=
  if s.registered.contains r then s else { s with registered := s.registered ++ [r] }

def tryAllocate (s : CodeCache) (size alignment : Nat) : Option (Placement × CodeCache) :=
  match s.region? s.currentRegion with
  | none => none
  | some r =>
    match r.allocate? size alignment with
    | none => none
    | some (start, r) => some (⟨s.currentRegion, start, size⟩, s.setRegion s.currentRegion r)

/-- Opens the next region, if one is left. -/
def rotate? (s : CodeCache) : Option CodeCache :=
  let slot := s.runtime.size
  if slot ≥ s.regionCount then none
  else
    let r : Region :=
      { index := slot + 1
        name := "runtime-" ++ toString slot
        start := s.runtimeStart + slot * s.regionSize
        size := s.regionSize }
    some { s.register r.memoryRegion with runtime := s.runtime.push r }

/-- Places bytes in the current region, or else in one new region. -/
def allocate (s : CodeCache) (size alignment : Nat) : Except CacheError Placement × CodeCache :=
  match s.tryAllocate size alignment with
  | some (p, s) => (.ok p, s)
  | none =>
    match s.rotate? with
    | none => (.error (.exhausted size s.regionSize s.runtime.size), s)
    | some s =>
      match s.tryAllocate size alignment with
      | some (p, s) => (.ok p, s)
      | none => (.error (.exhausted size s.regionSize s.runtime.size), s)

/-- The distance of an address from the start of the window. -/
def offsetOf (s : CodeCache) (address : Nat) : Except CacheError Nat :=
  if s.window.base ≤ address ∧ address - s.window.base < s.window.size then .ok (address - s.window.base)
  else .error (.outsideWindow address)

def readCode (s : CodeCache) (address length : Nat) : Except CacheError Bytes :=
  match s.offsetOf address with
  | .error e => .error e
  | .ok offset =>
    match s.window.read offset length with
    | .ok bytes => .ok bytes
    | .error e => .error (.memory e)

/-- Notes an installed method, as the newest version of its key. -/
def push (s : CodeCache) (m : CompiledMethod) : CodeCache :=
  { s with
    installed := s.installed ++ [m]
    versions := fun key => if m.key = key then s.versions key ++ [m] else s.versions key
    versions_eq := fun key => by
      rw [List.filter_append, ← s.versions_eq]
      split <;> simp [*] }

/-- The version that calls are linked to. -/
def newest? (s : CodeCache) (key : MethodKey) : Option CompiledMethod := (s.versions key).getLast?

/-- The method whose bundle holds an address. -/
def methodAt? (s : CodeCache) (address : Nat) : Option CompiledMethod :=
  if s.boot.contains address then s.boot.find? address
  else if address < s.runtimeStart then none
  else
    match s.runtime[(address - s.runtimeStart) / s.regionSize]? with
    | some r => r.find? address
    | none => none

def totalSize (s : CodeCache) : Nat := s.boot.used + s.runtime.foldr (fun r n => r.used + n) 0

/-- Recorded calls whose callee is not installed. -/
def pendingCallSites (s : CodeCache) : Nat :=
  (s.callSites.filter fun site => (s.newest? site.callee).isNone).length

end CodeCache
end StackCompiler
