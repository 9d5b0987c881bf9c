/-
Code buffers. Instructions that refer to labels are placeholders until the
buffer is finished. A label is bound to a position in the code, or fixed to
an address that, like the start of the code, counts from the start of the
bundle.
-/
import StackCompiler.Machine.Opcode

namespace StackCompiler

/-- An index into the labels of a buffer. -/
abbrev Label := Nat

/-- A position in the buffer, or an address outside. -/
inductive LabelState where
  | unbound
  | bound (position : Nat)
  | fixed (address : Nat)
deriving DecidableEq, Repr

/-- An instruction whose last operand is the distance to a label. -/
structure Placeholder where
  offset : Nat
  opcode : Opcode
  operands : List Operand
  label : Label
deriving DecidableEq, Repr

/-- Code with labels, and the instructions that wait for them. -/
structure Buffer where
  code : Bytes := #[]
  labels : Array LabelState := #[]
  placeholders : Array Placeholder := #[]
  start : Nat := 0
deriving DecidableEq, Repr, Inhabited

namespace Buffer

def empty : Buffer := {}

def offset (b : Buffer) : Nat := b.code.size

def emitBytes (b : Buffer) (bytes : List UInt8) : Buffer := { b with code := b.code ++ bytes }

def emitWord (b : Buffer) (w : BitVec 32) : Buffer := b.emitBytes (Bytes.ofWord w)

def emit (b : Buffer) (o : Opcode) (operands : List Operand) : Except AssemblyError Buffer :=
  (o.assemble operands).map b.emitWord

def emitToLabel (b : Buffer) (opcode : Opcode) (operands : List Operand) (label : Label) : Buffer :=
  let placeholder : Placeholder := ⟨b.offset, opcode, operands, label⟩
  let b := { b with placeholders := b.placeholders.push placeholder }
  b.emitWord 0

def newLabel (b : Buffer) : Label × Buffer :=
  (b.labels.size, { b with labels := b.labels.push .unbound })

/-- Binds a label to the end of the code, once. Code that fits a cache ends below `2^32`, so that the position is
not cut to 32 bits. -/
def bind (b : Buffer) (label : Label) : Except AssemblyError Buffer :=
  match b.labels[label]? with
  | some .unbound => .ok { b with labels := b.labels.setIfInBounds label (.bound b.offset) }
  | some _ => .error (.labelRebound label)
  | none => .error (.unboundLabel label)

/-- Fixes a label to an address; it may be moved again later. -/
def fix (b : Buffer) (label : Label) (address : Nat) : Except AssemblyError Buffer :=
  match b.labels[label]? with
  | some _ => .ok { b with labels := b.labels.setIfInBounds label (.fixed address) }
  | none => .error (.unboundLabel label)

def position (b : Buffer) (label : Label) : Except AssemblyError Nat :=
  match b.labels[label]? with
  | some (.bound p) => .ok p
  | _ => .error (.unboundLabel label)

def address (b : Buffer) (label : Label) : Except AssemblyError Nat :=
  match b.labels[label]? with
  | some (.bound p) => .ok (b.start + p)
  | some (.fixed a) => .ok a
  | _ => .error (.unboundLabel label)

/-- The word of a placeholder, with the distance from the instruction to its label. -/
def resolve (b : Buffer) (p : Placeholder) : Except AssemblyError (BitVec 32) :=
  match b.address p.label with
  | .error e => .error e
  | .ok target => p.opcode.assemble (p.operands ++ [.rel (distance (b.start + p.offset) target)])

/-- Replaces placeholders in order; the first that fails stops, and those before it stay
replaced. -/
def patch (b : Buffer) : List Placeholder → Buffer × Except AssemblyError Unit
  | [] => (b, .ok ())
  | p :: rest =>
    match b.resolve p with
    | .error e => (b, .error e)
    | .ok w => { b with code := Bytes.overwrite b.code p.offset (Bytes.ofWord w) }.patch rest

/-- The final code. Placeholders are kept, so labels may move and the code be finished again. -/
def finish (b : Buffer) : Buffer × Except AssemblyError Bytes :=
  match b.patch b.placeholders.toList with
  | (b, .ok ()) => (b, .ok b.code)
  | (b, .error e) => (b, .error e)

/-- Emits `nop` until the size is a multiple of `alignment`, at most `fuel` times. -/
def alignWithin (alignment : Nat) : Nat → Buffer → Buffer
  | 0, b => b
  | fuel + 1, b =>
    if b.offset % alignment = 0 then b else alignWithin alignment fuel (b.emitWord nopWord)

/-- Emits `nop` until the size is a multiple of `alignment`. -/
def align (b : Buffer) (alignment : Nat) : Buffer := alignWithin alignment alignment b

end Buffer
end StackCompiler
