/-
Disassembly. A word is decoded by every template whose fixed bits it has,
most specific first; a decoding counts only if it assembles to the same word.
Data runs are printed as bytes.
-/
import StackCompiler.Machine.Opcode
import StackCompiler.Machine.InlineData

namespace StackCompiler

/-- Whether synthetic readings of a word come before raw ones. -/
inductive Preference where
  | synthetic
  | raw
deriving DecidableEq, Repr, Inhabited

def Preference.keyword : Preference → String
  | synthetic => "synthetic"
  | raw => "raw"

def Preference.ofKeyword? : String → Option Preference
  | "synthetic" => some synthetic
  | "raw" => some raw
  | _ => none

/-- One reading of a word. -/
structure Decoding where
  template : Template
  operands : List Operand
deriving DecidableEq, Repr

/-- One line of a listing. -/
structure Entry where
  position : Nat
  bytes : List UInt8
  /-- Nothing for bytes that are data or that no template accepts. -/
  decoding : Option Decoding
deriving DecidableEq, Repr

namespace Entry

def byteText (b : UInt8) : String := Hex.markedTo 2 b.toNat

def text (e : Entry) : String :=
  match e.decoding with
  | some d => d.template.format d.operands e.position
  | none =>
    match e.bytes with
    | [b] => ".byte " ++ byteText b
    | bs => ".bytes " ++ ", ".intercalate (bs.map byteText)

def line (e : Entry) : String :=
  Hex.markedTo 8 e.position ++ "  " ++ Text.padRight 8 (Hex.bytes e.bytes.toArray) ++ "  " ++ e.text

end Entry

/-- How to read code. -/
structure Disassembler where
  catalog : Catalog := Catalog.aarch64
  start : Nat := 0
  preference : Preference := .synthetic
  /-- Considers only templates with this many operands. -/
  expected : Option Nat := none
  bytesForInvalid : Bool := true
  inlineData : InlineTable := ⟨[]⟩

namespace Disassembler

def skips (d : Disassembler) (t : Template) : Bool :=
  !t.disassemblable || (t.synthetic && d.preference = .raw)
    || (match d.expected with | some n => n ≠ t.fields.length | none => false)

def decodeBy? (d : Disassembler) (w : BitVec 32) (t : Template) : Option Decoding :=
  if d.skips t then none
  else
    match t.operands? w with
    | none => none
    | some operands =>
      if t.isLegal operands then
        match t.assemble operands with
        | .ok encoded => if encoded = w then some ⟨t, operands⟩ else none
        | .error _ => none
      else none

/-- All readings of a word. -/
def decode (d : Disassembler) (w : BitVec 32) : List Decoding :=
  (d.catalog.candidates w).filterMap (d.decodeBy? w)

/-- The decoding that is reported: the first alias if aliases come first, else the first. -/
def select? (d : Disassembler) (found : List Decoding) : Option Decoding :=
  match d.preference with
  | .raw => found.head?
  | .synthetic => (found.find? (·.template.synthetic)).or found.head?

def word (d : Disassembler) (position : Nat) (bytes : List UInt8) :
    Except DisassemblyError Entry :=
  match d.select? (d.decode (Bytes.toWord bytes)) with
  | some found => .ok ⟨position, bytes, some found⟩
  | none =>
    if d.bytesForInvalid then .ok ⟨position, bytes, none⟩
    else .error (.noMatch position (Hex.bytes bytes.toArray))

/-- The entry at an offset; nothing at the end of the code. -/
def scanOne (d : Disassembler) (code : Bytes) (offset : Nat) :
    Except DisassemblyError (Option Entry) :=
  let position := d.start + offset
  let bytes := (code.extract offset (offset + 4)).toList
  if bytes.isEmpty then .ok none
  else if bytes.length < 4 then
    .ok (if d.bytesForInvalid then some ⟨position, bytes, none⟩ else none)
  else (d.word position bytes).map some

/-- Data in entries of at most four bytes. -/
def dataEntries (position : Nat) : List UInt8 → List Entry
  | [] => []
  | a :: b :: c :: e :: rest => ⟨position, [a, b, c, e], none⟩ :: dataEntries (position + 4) rest
  | few => [⟨position, few, none⟩]

/-- Scans from an offset; every step goes on by at least one byte, so `fuel` bytes suffice. -/
def scanFrom (d : Disassembler) (code : Bytes) :
    Nat → Nat → Except DisassemblyError (List Entry)
  | 0, _ => .ok []
  | fuel + 1, offset =>
    if offset ≥ code.size then .ok []
    else
      match d.inlineData.at? offset with
      | some run =>
        if run.tag ≠ .bytes then
          .error (.unsupportedInlineData (d.start + offset) run.tag.name)
        else
          let stop := min run.stop code.size
          let data := dataEntries (d.start + offset) (code.extract offset stop).toList
          (d.scanFrom code fuel (max stop (offset + 1))).map (data ++ ·)
      | none =>
        match d.scanOne code offset with
        | .error e => .error e
        | .ok none => .ok []
        | .ok (some entry) =>
          (d.scanFrom code fuel (offset + entry.bytes.length)).map (entry :: ·)

def scan (d : Disassembler) (code : Bytes) : Except DisassemblyError (List Entry) :=
  d.scanFrom code code.size 0

def render (d : Disassembler) (code : Bytes) : Except DisassemblyError String :=
  (d.scan code).map fun entries => String.join (entries.map fun e => e.line ++ "\n")

end Disassembler
end StackCompiler
