/-
From lines to code. Each instruction is assembled where it stands; distances
to places remain open until the places have addresses. Block `i` has label
`i`, and literals get labels in the order of their first use.
-/
import StackCompiler.Bundle.Error
import StackCompiler.Machine.Buffer
import StackCompiler.Machine.InlineData
import StackCompiler.Emission.Line

namespace StackCompiler

/-- A stop as it was emitted, with the slots and registers that hold references. -/
structure Stop where
  kind : StopKind
  position : Nat
  bci : Nat
  slots : List Nat
  registers : List Nat
deriving DecidableEq, Repr

/-- What has been emitted so far. -/
structure Emission where
  buffer : Buffer
  literals : List (LiteralId × Label) := []
  stops : Array Stop := #[]
  /-- Where the handler changes, and the label of the handler from there on. -/
  ranges : Array (Nat × Option Label) := #[]
  handler : Option Nat := none
  inlineData : List InlineRun := []
deriving DecidableEq, Repr

namespace Emission

def literalLabel (e : Emission) (id : LiteralId) : Label × Emission :=
  match e.literals.lookup id with
  | some label => (label, e)
  | none =>
    let (label, buffer) := e.buffer.newLabel
    (label, { e with buffer, literals := e.literals ++ [(id, label)] })

def label (e : Emission) : Place → Label × Emission
  | .block id => (id, e)
  | .literal id => e.literalLabel id

/-- Notes that another handler is in effect from here on. A range that would be empty is taken
over. -/
def changeHandler (e : Emission) (handler : Option Nat) : Emission :=
  if handler = e.handler then e
  else
    let position := e.buffer.offset
    let ranges := match e.ranges.back? with
      | some (last, _) =>
        if last = position then e.ranges.pop.push (position, handler)
        else e.ranges.push (position, handler)
      | none => e.ranges.push (position, handler)
    { e with ranges, handler }

def trapSize : Nat := 4

def add (method : String) (e : Emission) : Line → Except CodegenError Emission
  | .insn opcode operands =>
    match opcode.assemble operands with
    | .ok w => .ok { e with buffer := e.buffer.emitWord w }
    | .error err => .error (.assembly err)
  | .toPlace opcode operands place =>
    let (label, e) := e.label place
    .ok { e with buffer := e.buffer.emitToLabel opcode operands label }
  | .stop kind bci slots registers =>
    .ok { e with stops := e.stops.push ⟨kind, e.buffer.offset, bci, slots, registers⟩ }
  | .trap =>
    let run : InlineRun := ⟨.bytes, e.buffer.offset, trapSize⟩
    .ok { e with buffer := e.buffer.emitWord 0, inlineData := InlineRun.record e.inlineData run }
  | .block id handler =>
    match e.buffer.bind id with
    | .ok buffer => .ok ({ e with buffer }.changeHandler handler)
    | .error err => .error (.assembly err)
  | .refuse what => .error (.unsupported method what)

def addAll (method : String) : List Line → Emission → Except CodegenError Emission
  | [], e => .ok e
  | line :: rest, e =>
    match e.add method line with
    | .ok e => addAll method rest e
    | .error err => .error err

/-- Before the first line: a label for each block, and no handler if there are handlers at
all. -/
def start (m : Linear.Method) : Emission :=
  { buffer := { labels := Array.replicate m.blocks.size .unbound }
    ranges := if m.hasHandlers then #[(0, none)] else #[] }

/-- Emits the code of a method. -/
def ofMethod (m : Linear.Method) (a : Allocation) : Except CodegenError Emission :=
  addAll m.key.text (lines m a) (start m)

/-- The literals that are used, with their labels, in pool order. -/
def pool (e : Emission) : List (LiteralId × Label) := e.literals.mergeSort fun a b => a.1 ≤ b.1

end Emission
end StackCompiler
