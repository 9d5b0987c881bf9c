/-
Data inside code. The emitter records where it places bytes that are no
instructions; the disassembler prints them as data. A record takes nine
bytes: a tag, then start and size in little-endian order.
-/
import StackCompiler.Text.Hex

namespace StackCompiler

/-- Sorts of data inside code. -/
inductive InlineTag where
  | bytes
  | jumpTable
  | lookupTable
deriving DecidableEq, Repr, Inhabited

namespace InlineTag

def code : InlineTag → Nat
  | bytes => 0
  | jumpTable => 1
  | lookupTable => 2

def ofCode? : Nat → Option InlineTag
  | 0 => some bytes
  | 1 => some jumpTable
  | 2 => some lookupTable
  | _ => none

def name : InlineTag → String
  | bytes => "byte"
  | jumpTable => "jump table"
  | lookupTable => "lookup table"

end InlineTag

/-- A run of data; positions count from the start of the code. -/
structure InlineRun where
  tag : InlineTag
  start : Nat
  size : Nat
deriving DecidableEq, Repr, Inhabited

namespace InlineRun

/-- The first position after the run, at most the greatest 32-bit number. -/
def stop (r : InlineRun) : Nat := min (r.start + r.size) 0xFFFFFFFF

def encode (r : InlineRun) : List UInt8 :=
  UInt8.ofNat r.tag.code :: (Bytes.littleEndian 4 r.start ++ Bytes.littleEndian 4 r.size)

/-- Records in order; empty runs are not recorded. -/
def record (runs : List InlineRun) (r : InlineRun) : List InlineRun :=
  if r.size > 0 then runs ++ [r] else runs

def encodeAll (runs : List InlineRun) : Bytes := (runs.flatMap encode).toArray

end InlineRun

/-- Why code is not listed. -/
inductive DisassemblyError where
  | noMatch (position : Nat) (hex : String)
  | unsupportedInlineData (position : Nat) (kind : String)
  | truncatedDescriptors (offset : Nat)
  | unknownInlineDataTag (tag offset : Nat)
  | badInlineDataRange (start size offset : Nat)
deriving DecidableEq, Repr

def DisassemblyError.message : DisassemblyError → String
  | noMatch position hex => s!"no template matches {hex} at " ++ Hex.marked position
  | unsupportedInlineData position kind =>
    s!"{kind} inline data at " ++ Hex.marked position ++ " is not supported"
  | truncatedDescriptors offset => s!"inline data descriptor table is truncated at byte {offset}"
  | unknownInlineDataTag tag offset => s!"unknown inline data tag {tag} at byte {offset}"
  | badInlineDataRange start size offset =>
    s!"inline data descriptor at byte {offset} has invalid range start {start} size {size}"

/-- The runs of one code array, found by their start. -/
structure InlineTable where
  runs : List InlineRun
deriving DecidableEq, Repr, Inhabited

namespace InlineTable

def ofRuns (runs : List InlineRun) : InlineTable := ⟨runs.filter (·.size > 0)⟩

def at? (t : InlineTable) (position : Nat) : Option InlineRun :=
  t.runs.reverse.find? (·.start = position)

def isEmpty (t : InlineTable) : Bool := t.runs.isEmpty

/-- Reads records of nine bytes; `offset` is the place of the next one. -/
def decodeFrom (offset : Nat) : List UInt8 → Except DisassemblyError (List InlineRun)
  | tag :: a :: b :: c :: d :: e :: f :: g :: h :: rest =>
    match InlineTag.ofCode? tag.toNat with
    | none => .error (.unknownInlineDataTag tag.toNat offset)
    | some kind =>
      let start := Bytes.ofLittleEndian [a, b, c, d]
      let size := Bytes.ofLittleEndian [e, f, g, h]
      if size = 0 ∨ start + size ≥ 0x100000000 then .error (.badInlineDataRange start size offset)
      else (decodeFrom (offset + 9) rest).map (⟨kind, start, size⟩ :: ·)
  | _ => .ok []

/-- Reads a table; its runs are not empty and end before `2^32`. -/
def decode (bytes : Bytes) : Except DisassemblyError InlineTable :=
  if bytes.size % 9 ≠ 0 then .error (.truncatedDescriptors (bytes.size - bytes.size % 9))
  else (decodeFrom 0 bytes.toList).map ofRuns

end InlineTable
end StackCompiler
