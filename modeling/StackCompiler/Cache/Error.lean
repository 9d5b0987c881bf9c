/-
What can go wrong with the memory that holds code, and how it is said.
-/
import StackCompiler.Machine.Field

namespace StackCompiler

/-- What is refused by the host or by a window. -/
inductive MemoryError where
  | reserveFailed (size errno : Nat)
  | invalidSize (size : Nat)
  | outOfBounds (offset length size : Nat)
deriving DecidableEq, Repr

def MemoryError.message : MemoryError → String
  | reserveFailed size errno =>
    s!"cannot reserve {size} bytes for the code window (errno {errno})"
  | invalidSize size => s!"invalid code window size {size}"
  | outOfBounds offset length size =>
    s!"access of {length} bytes at offset " ++ Hex.marked offset ++ " is outside the "
      ++ Hex.marked size ++ "-byte window"

/-- Why a request to the cache fails. -/
inductive CacheError where
  | memory (e : MemoryError)
  | exhausted (size regionSize regions : Nat)
  | windowOutOfReach (size reach : Nat)
  | invalidLayout (reason : String)
  | outsideWindow (address : Nat)
  | notGenerated (method : String)
  | link (e : AssemblyError)
deriving DecidableEq, Repr

def CacheError.message : CacheError → String
  | memory e => e.message
  | exhausted size regionSize regions =>
    s!"code cache exhausted: {size} bytes do not fit a {regionSize}-byte region "
      ++ s!"({regions} runtime regions open)"
  | windowOutOfReach size reach =>
    s!"code window of {size} bytes exceeds the {reach}-byte call reach"
  | invalidLayout reason => s!"invalid code cache layout: {reason}"
  | outsideWindow address => "address " ++ Hex.marked address ++ " is outside the code window"
  | notGenerated method => s!"{method}: code not generated"
  | link e => "cannot link call: " ++ e.message

end StackCompiler
