/-
The calling convention and the sizes of the target machine.
-/
import StackCompiler.Value
import StackCompiler.Machine.Register

namespace StackCompiler.Convention

def reg (code : Nat) : Reg := ⟨⟨code % 32, Nat.mod_lt code (by decide)⟩⟩

/-- The registers that variables get, all saved by the caller. Their order is the order of bits
in register maps. -/
def allocatable : List Reg := [reg 9, reg 10, reg 11, reg 12, reg 13, reg 14, reg 15]

def arguments : List Reg :=
  [reg 0, reg 1, reg 2, reg 3, reg 4, reg 5, reg 6, reg 7]

/-- The register of a result, and of the exception that a handler receives. -/
def result : Reg := reg 0

def scratch : Reg := reg 16

def scratch2 : Reg := reg 17

def scratch3 : Reg := reg 8

def latch : Reg := reg 28

def dataModel : DataModel := ⟨8, .little⟩

def referenceSize : Nat := 8

def frameAlignment : Nat := 16

def bundleAlignment : Nat := 8

def mapIndex? (r : Reg) : Option Nat := allocatable.idxOf? r

def registerMapBytes : Nat := (allocatable.length + 7) / 8

end StackCompiler.Convention
