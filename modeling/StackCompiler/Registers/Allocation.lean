/-
Where the variables of a method live. What is live at a call goes to the
stack, since a call may change every register; the rest gets registers as far
as they go.
-/
import StackCompiler.Convention
import StackCompiler.Registers.Scan

namespace StackCompiler

/-- Where variables live, and which ones at each stop of a block. -/
structure Allocation where
  locations : Array (Option Location)
  slots : Nat
  stops : Array (List Linear.LivePoint)
deriving Repr

namespace Allocation

/-- The place of a variable; one that no instruction mentions reads as zero. -/
def location (a : Allocation) (v : Var) : Location :=
  ((a.locations[v]?).join).getD (.register .zero)

def liveAt (a : Allocation) (block index : Nat) : List Var :=
  match (a.stops.getD block []).find? (·.index = index) with
  | some point => point.live.toList
  | none => []

/-- Slots for what lives across calls, registers for the rest while there are any. -/
def ofMethod (registers : List Reg) (m : Linear.Method) : Allocation :=
  let l := Liveness.compute m
  let stops := l.allStops m
  let across := Liveness.acrossCalls stops
  let intervals := Interval.ofMethod m l
  let (onStack, candidates) := intervals.partition fun i => across.contains i.var
  let (assigned, spilled) := Scan.registers candidates registers
  let (slots, count) := Scan.slots (onStack ++ spilled)
  let unplaced : Array (Option Location) := Array.replicate m.varBound none
  let table := slots.foldl (fun t (v, slot) => t.setIfInBounds v (some (.stack slot))) unplaced
  let table := assigned.foldl (fun t (v, r) => t.setIfInBounds v (some (.register r))) table
  ⟨table, count, stops⟩

end Allocation
end StackCompiler
