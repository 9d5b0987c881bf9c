/-
Compiled methods. A method is made without code and gets its bundle in one
step. Positions are bytes from the start of its code.

Stops are ordered: direct calls, indirect calls, safepoints. The maps of the
frame for all stops stand before the maps of registers for the safepoints.
-/
import StackCompiler.Bundle.Error
import StackCompiler.Bundle.Layout
import StackCompiler.Bundle.Leb128
import StackCompiler.Bytecode.Method

namespace StackCompiler

def nativeBit : Nat := 0x80000000

/-- From each range position on, the handler at the block position is in effect; zero means none. -/
structure CatchTable where
  ranges : List Nat := []
  blocks : List Nat := []
deriving DecidableEq, Repr, Inhabited

namespace CatchTable

def isEmpty (t : CatchTable) : Bool := t.ranges.isEmpty

def entries (t : CatchTable) : List (Nat × Option Nat) :=
  (t.ranges.zip t.blocks).map fun (range, block) => (range, if block = 0 then none else some block)

/-- The handler in effect at a position: that of the last range that starts at or before it. -/
def handlerAt? (t : CatchTable) (position : Nat) : Option Nat :=
  match (t.entries.takeWhile (·.1 ≤ position)).getLast? with
  | some (_, handler) => handler
  | none => none

end CatchTable

/-- The code of a method with its literals and tables, as it is installed. -/
structure Bundle where
  region : Nat := 0
  start : Nat := 0
  codeOffset : Nat := 0
  frameSize : Nat := 0
  scalars : Bytes := #[]
  references : List ObjectRef := []
  code : Bytes := #[]
  stopPositions : List Nat := []
  callees : List MethodKey := []
  indirectCalls : Nat := 0
  safepoints : Nat := 0
  frameMapBytes : Nat := 0
  registerMapBytes : Nat := 0
  maps : Bytes := #[]
  /-- The bytecode position of each stop, in groups of seven bits. -/
  descriptors : Bytes := #[]
  catchTable : CatchTable := {}
  inlineData : Bytes := #[]
deriving DecidableEq, Repr, Inhabited

namespace Bundle

def layout (b : Bundle) (referenceSize alignment : Nat) : Layout :=
  ⟨b.scalars.size, b.references.length * referenceSize, b.code.size, alignment⟩

end Bundle

/-- A bit set as bytes, lowest bit first. -/
def bitmap (bytes : Nat) (bits : List Nat) : List UInt8 :=
  (List.range bytes).map fun i =>
    let withBit (j n : Nat) : Nat := if bits.contains (8 * i + j) then n ||| 1 <<< j else n
    UInt8.ofNat ((List.range 8).foldr withBit 0)

def setBits (map : List UInt8) : List Nat :=
  (List.range (8 * map.length)).filter fun bit => (map.getD (bit / 8) 0).toNat.testBit (bit % 8)

/-- A method and the bundle it was published with. -/
structure CompiledMethod where
  key : MethodKey
  published : Option Bundle := none
deriving DecidableEq, Repr, Inhabited

namespace CompiledMethod

def publish (m : CompiledMethod) (b : Bundle) : Except CodegenError CompiledMethod :=
  match m.published with
  | some _ => .error (.alreadyGenerated m.key.text)
  | none => .ok { m with published := some b }

def isGenerated (m : CompiledMethod) : Bool := m.published.isSome

/-- The published bundle, or an empty one. -/
def bundle (m : CompiledMethod) : Bundle := m.published.getD {}

def start (m : CompiledMethod) : Nat := m.bundle.start

/-- The address of the first instruction. -/
def codeStart (m : CompiledMethod) : Nat := m.bundle.start + m.bundle.codeOffset

/-- The address behind the code. -/
def codeStop (m : CompiledMethod) : Nat := m.codeStart + m.bundle.code.size

def contains (m : CompiledMethod) (address : Nat) : Bool :=
  m.isGenerated && m.start ≤ address && address < m.codeStop

def stopCount (m : CompiledMethod) : Nat := m.bundle.stopPositions.length

def directCalls (m : CompiledMethod) : Nat := m.bundle.callees.length

def stopPosition? (m : CompiledMethod) (index : Nat) : Option Nat :=
  (m.bundle.stopPositions[index]?).map (· % nativeBit)

def isNativeCall (m : CompiledMethod) (index : Nat) : Bool :=
  index < m.directCalls && m.bundle.stopPositions.getD index 0 ≥ nativeBit

def stopIndex? (m : CompiledMethod) (position : Nat) : Option Nat :=
  m.bundle.stopPositions.findIdx? fun p => p % nativeBit = position

def handlerAt? (m : CompiledMethod) (position : Nat) : Option Nat :=
  m.bundle.catchTable.handlerAt? position

def frameMap? (m : CompiledMethod) (index : Nat) : Option (List UInt8) :=
  let size := m.bundle.frameMapBytes
  if index < m.stopCount then
    some (m.bundle.maps.extract (index * size) ((index + 1) * size)).toList
  else none

/-- The map of registers at a safepoint, counted among safepoints. -/
def registerMap? (m : CompiledMethod) (index : Nat) : Option (List UInt8) :=
  let base := m.stopCount * m.bundle.frameMapBytes
  let size := m.bundle.registerMapBytes
  if index < m.bundle.safepoints then
    some (m.bundle.maps.extract (base + index * size) (base + (index + 1) * size)).toList
  else none

def bytecodePosition? (m : CompiledMethod) (index : Nat) : Option Nat :=
  Leb128.get? index m.bundle.descriptors.toList

def stopName (m : CompiledMethod) (index : Nat) : String :=
  if index < m.directCalls then
    if m.isNativeCall index then "native" else "direct"
  else if index < m.directCalls + m.bundle.indirectCalls then "indirect"
  else "safepoint"

/-- The line of a stop: the slots, and for a safepoint the registers, that hold references. -/
def stopLine (m : CompiledMethod) (registerNames : List String) (index : Nat) : String :=
  let calls := m.directCalls + m.bundle.indirectCalls
  let position := (m.stopPosition? index).getD 0
  let bci := match m.bytecodePosition? index with
    | some bci => " bci " ++ toString bci
    | none => ""
  let slots := (setBits ((m.frameMap? index).getD [])).map fun slot =>
    "[sp, #" ++ toString (slot * 8) ++ "]"
  let names := (setBits ((m.registerMap? (index - calls)).getD [])).map fun bit =>
    registerNames.getD bit ("r" ++ toString bit)
  let registers :=
    if index < calls then "" else " registers \x7b" ++ ", ".intercalate names ++ "\x7d"
  "stop " ++ toString index ++ " @ " ++ Hex.marked position ++ " " ++ m.stopName index ++ bci
    ++ " frame \x7b" ++ ", ".intercalate slots ++ "\x7d" ++ registers

def mapListing (m : CompiledMethod) (registerNames : List String) : List String :=
  (List.range m.stopCount).map (m.stopLine registerNames)

end CompiledMethod
end StackCompiler
