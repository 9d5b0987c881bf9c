/-
A bounded stack of cells to be marked. When more cells than a threshold are on it,
a push drains the stack: each cell is popped and visited, and the visitor may push
more. A push that fills the last place calls the recovery, which has to leave the
stack below its capacity.

A visitor may keep a drain going for ever, so operations take fuel and have no
outcome when it runs out.
-/

namespace StackCompiler

/-- The address of a reference. -/
abbrev Cell := Nat

/-- Why an operation on the stack fails. -/
inductive MarkingError where
  | noVisitor
  | overflow (capacity : Nat)
  | invalidCapacity (capacity : Nat)
deriving DecidableEq, Repr

def MarkingError.message : MarkingError → String
  | noVisitor => "marking stack has no cell visitor"
  | overflow capacity =>
    s!"marking stack of {capacity} cells overflowed and was not recovered"
  | invalidCapacity capacity =>
    s!"marking stack needs a capacity of at least 2 cells, got {capacity}"

/-- Operations on the stack. -/
inductive MarkingStep where
  | push (c : Cell)
  | pop
  | drain
  | flush
  | clear
  | willDrain (n : UInt64)
  | describe
deriving DecidableEq, Repr

/-- What an operation answers. -/
inductive MarkingReply where
  | done
  | failed (e : MarkingError)
  | cell (c : Option Cell)
  | flag (b : Bool)
  | text (s : String)
deriving DecidableEq, Repr

/-- What callbacks were told, and with how many cells left. -/
inductive MarkingEvent where
  | popped (c : Cell) (left : Nat) (draining : Bool)
  | flushed (c : Cell)
  | overflow (left : Nat)
  | recovery (reply : MarkingReply) (left : Nat)
deriving DecidableEq, Repr

/-- What a visitor pushes when it visits a popped cell. It may look back at all that happened. -/
abbrev Visitor := List MarkingEvent → Cell → List Cell

/-- What a recovery does, looking back in the same way. -/
abbrev Recovery := List MarkingEvent → List MarkingStep

/-- Cells that wait for their visit, with the callbacks. -/
structure MarkingStack where
  capacity : Nat
  /-- A push drains when more cells than this are on the stack. -/
  threshold : Nat
  /-- The top comes first. -/
  cells : List Cell := []
  draining : Bool := false
  overflowing : Bool := false
  /-- Absent also while it is at work. -/
  visitor : Option Visitor := none
  /-- Absent also while it is at work. -/
  recovery : Option Recovery := none
  /-- What happened so far, the last thing first. -/
  history : List MarkingEvent := []

namespace MarkingStack

/-- An empty stack that drains when more than `percent` of the capacity is used. -/
def create (capacity percent : Nat) : Except MarkingError MarkingStack :=
  if capacity < 2 then .error (.invalidCapacity capacity)
  else .ok { capacity, threshold := capacity * min percent 100 / 100 }

def size (s : MarkingStack) : Nat := s.cells.length

def isEmpty (s : MarkingStack) : Bool := s.cells.isEmpty

/-- Whether `n` more pushes would take the stack above its threshold. The sum is taken in 64 bits. -/
def willDrain (s : MarkingStack) (n : UInt64) : Bool :=
  !s.draining && (UInt64.ofNat s.size + n).toNat > s.threshold

def flagText (b : Bool) : String := if b then "true" else "false"

def listing (s : MarkingStack) : String :=
  s!"MarkingStack \x7b capacity: {s.capacity}, top: {s.size}, "
    ++ s!"drain_threshold: {s.threshold}, draining: " ++ flagText s.draining ++ " \x7d"

end MarkingStack

/-- A computation on a marking stack: no outcome when fuel runs out, else a result or an error
with the state. -/
abbrev Marking := ExceptT MarkingError (StateT MarkingStack Option)

namespace Marking

/-- Without fuel there is no outcome. -/
def outOfFuel {α : Type} : Marking α := ExceptT.lift (StateT.lift none)

def note (e : MarkingEvent) : Marking Unit := modify fun s => { s with history := e :: s.history }

def attempt {α : Type} (x : Marking α) : Marking (Except MarkingError α) := ExceptT.lift x.run

def pop : Marking (Option Cell) := do
  let s ← get
  match s.cells with
  | [] => pure none
  | c :: cells =>
    set { s with cells }
    pure (some c)

def clear : Marking Unit := modify fun s => { s with cells := [] }

def takeVisitor : Marking Visitor := do
  let s ← get
  match s.visitor with
  | none => throw .noVisitor
  | some v =>
    set { s with visitor := none }
    pure v

def flush : Marking Unit := do
  let v ← takeVisitor
  modify fun s =>
    { s with
      cells := []
      visitor := some v
      history := (s.cells.map MarkingEvent.flushed).reverse ++ s.history }

def reply : Except MarkingError Unit → MarkingReply
  | .ok () => .done
  | .error e => .failed e

mutual

/-- Stores a cell, then drains or recovers if a limit is reached. -/
def push : Nat → Cell → Marking Unit
  | 0, _ => outOfFuel
  | fuel + 1, c => do
    let s ← get
    if s.size ≥ s.capacity then throw (.overflow s.capacity)
    else
      set { s with cells := c :: s.cells }
      if s.size + 1 = s.capacity then overflow fuel
      else if s.size + 1 > s.threshold ∧ s.draining = false then drain fuel
      else pure ()

def pushAll : Nat → List Cell → Marking Unit
  | 0, _ => outOfFuel
  | _ + 1, [] => pure ()
  | fuel + 1, c :: rest => do
    push fuel c
    pushAll fuel rest

/-- Visits the top until the stack is empty. -/
def drainWith : Nat → Visitor → Marking Unit
  | 0, _ => outOfFuel
  | fuel + 1, v => do
    match ← pop with
    | none => pure ()
    | some c =>
      let s ← get
      let history := .popped c s.size s.draining :: s.history
      set { s with history }
      pushAll fuel (v history c)
      drainWith fuel v

/-- Pops and visits every cell, those that the visitor pushes included. -/
def drain : Nat → Marking Unit
  | 0 => outOfFuel
  | fuel + 1 => do
    let v ← takeVisitor
    modify fun s => { s with draining := true }
    let result ← attempt (drainWith fuel v)
    modify fun s => { s with draining := false, visitor := some v }
    match result with
    | .ok () => pure ()
    | .error e => throw e

/-- Calls the recovery, which must bring the stack below its capacity. -/
def overflow : Nat → Marking Unit
  | 0 => outOfFuel
  | fuel + 1 => do
    let s ← get
    match s.overflowing, s.recovery with
    | false, some r =>
      let history := .overflow s.size :: s.history
      set { s with overflowing := true, recovery := none, history }
      recover fuel (r history)
      modify fun s => { s with overflowing := false, recovery := some r }
      let s ← get
      if s.size ≥ s.capacity then throw (.overflow s.capacity) else pure ()
    | _, _ => throw (.overflow s.capacity)

/-- Does what the recovery asks for. -/
def recover : Nat → List MarkingStep → Marking Unit
  | 0, _ => outOfFuel
  | _ + 1, [] => pure ()
  | fuel + 1, step :: rest => do
    let reply ← answer fuel step
    let s ← get
    note (.recovery reply s.size)
    recover fuel rest

/-- Does one operation. -/
def answer : Nat → MarkingStep → Marking MarkingReply
  | 0, _ => outOfFuel
  | fuel + 1, step => do
    match step with
    | .push c => return reply (← attempt (push fuel c))
    | .pop => return .cell (← pop)
    | .drain => return reply (← attempt (drain fuel))
    | .flush => return reply (← attempt flush)
    | .clear =>
      clear
      return .done
    | .willDrain n => return .flag ((← get).willDrain n)
    | .describe => return .text (← get).listing

end

end Marking
end StackCompiler
