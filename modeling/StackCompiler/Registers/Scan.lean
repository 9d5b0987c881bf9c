/-
Linear scan. Intervals are taken in the order of their starts. A register is
free again when the interval that had it ended before the next one starts. If
none is free, the interval that ends last goes to the stack. A second scan
gives out stack slots, the lowest free one first.
-/
import StackCompiler.Machine.Register
import StackCompiler.Registers.Interval

namespace StackCompiler

/-- Where a variable lives. -/
inductive Location where
  | register (r : Reg)
  /-- Slot `i` is at `[sp, #8 * i]`. -/
  | stack (slot : Nat)
deriving DecidableEq, Repr

def Location.text : Location → String
  | register r => r.text
  | stack slot => "[sp, #" ++ toString (slot * 8) ++ "]"

namespace Scan

def before (a b : Interval) : Bool :=
  a.start < b.start || (a.start == b.start && a.var ≤ b.var)

def inOrder (intervals : List Interval) : List Interval := intervals.mergeSort before

/-! ## Registers -/

/-- An interval that holds a register. -/
structure Active where
  stop : Nat
  var : Var
  reg : Reg
deriving DecidableEq, Repr

/-- The state of the scan over registers. -/
structure Registers where
  free : List Reg
  active : List Active := []
  assigned : List (Var × Reg) := []
  spilled : List Interval := []
  taken : List Interval := []
deriving Repr

def prefers (a b : Active) : Bool := a.stop < b.stop || (a.stop == b.stop && a.var ≤ b.var)

/-- The place and content of the entry that ends last. -/
def victim? (active : List Active) : Option (Nat × Active) :=
  let later (best : Option (Nat × Active)) (item : Active × Nat) : Option (Nat × Active) :=
    match best with
    | none => some (item.2, item.1)
    | some (_, a) => if prefers a item.1 then some (item.2, item.1) else best
  active.zipIdx.foldl later none

namespace Registers

/-- Frees the registers of intervals that ended before a point, in the order of declaration. -/
def expire (registers : List Reg) (s : Registers) (point : Nat) : Registers :=
  let freed := (s.active.filter (·.stop < point)).map (·.reg)
  let place (r : Reg) : Nat := registers.idxOf r
  { s with
    active := s.active.filter fun a => !(a.stop < point)
    free := (s.free ++ freed).mergeSort fun a b => place a ≤ place b }

def assign (s : Registers) (i : Interval) (r : Reg) : Registers :=
  { s with active := s.active ++ [⟨i.stop, i.var, r⟩], assigned := s.assigned ++ [(i.var, r)] }

def evict (s : Registers) (index : Nat) (a : Active) : Registers :=
  { s with
    active := s.active.eraseIdx index
    assigned := s.assigned.filter (·.1 ≠ a.var)
    spilled := s.spilled ++ (s.taken.find? (·.var = a.var)).toList }

def step (registers : List Reg) (s : Registers) (i : Interval) : Registers :=
  let s := { s with taken := i :: s.taken }.expire registers i.start
  match s.free with
  | r :: free => { s with free }.assign i r
  | [] =>
    match victim? s.active with
    | some (index, a) =>
      if a.stop > i.stop then (s.evict index a).assign i a.reg
      else { s with spilled := s.spilled ++ [i] }
    | none => { s with spilled := s.spilled ++ [i] }

end Registers

/-- Assigns registers to intervals; the second result is what got none. -/
def registers (intervals : List Interval) (registers : List Reg) :
    List (Var × Reg) × List Interval :=
  let s := (inOrder intervals).foldl (Registers.step registers) { free := registers }
  (s.assigned, s.spilled)

/-! ## Stack slots -/

/-- The state of the scan over slots. -/
structure Slots where
  free : List Nat := []
  /-- Last points and slots of the intervals that have one. -/
  active : List (Nat × Nat) := []
  count : Nat := 0
  assigned : List (Var × Nat) := []
deriving Repr

def insertSlot (slot : Nat) : List Nat → List Nat
  | [] => [slot]
  | s :: rest =>
    if slot < s then slot :: s :: rest
    else if slot = s then s :: rest
    else s :: insertSlot slot rest

namespace Slots

/-- Frees the slots of intervals that ended before a point. -/
def expire (s : Slots) (point : Nat) : Slots :=
  let freed := (s.active.filter (·.1 < point)).map (·.2)
  { s with
    active := s.active.filter fun a => !(a.1 < point)
    free := freed.foldl (fun free slot => insertSlot slot free) s.free }

def assign (s : Slots) (i : Interval) (slot : Nat) : Slots :=
  { s with active := s.active ++ [(i.stop, slot)], assigned := s.assigned ++ [(i.var, slot)] }

def step (s : Slots) (i : Interval) : Slots :=
  let s := s.expire i.start
  match s.free with
  | slot :: free => { s with free }.assign i slot
  | [] => { s with count := s.count + 1 }.assign i s.count

end Slots

/-- Assigns stack slots to intervals; the second result is the number of slots. -/
def slots (intervals : List Interval) : List (Var × Nat) × Nat :=
  let s := (inOrder intervals).foldl Slots.step {}
  (s.assigned, s.count)

end Scan
end StackCompiler
