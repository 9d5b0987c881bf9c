/-
Reading TOML documents: values, lines and the tables that headers open.
-/
import StackCompiler.Toml.Number
import StackCompiler.Toml.Text

namespace StackCompiler
namespace Toml

/-! ## Values -/

def word? (expected : String) (cs : List Char) : Option (List Char) :=
  if expected.toList.isPrefixOf cs then some (cs.drop expected.length) else none

mutual

/-- Reads a value that may nest less than `room` deep; `fuel` bounds the steps. -/
def value? : Nat → Nat → List Char → Option (Toml × List Char)
  | 0, _, _ => none
  | fuel + 1, room, cs =>
    match cs with
    | '[' :: rest =>
      if room ≤ 1 then none
      else (items? fuel (room - 1) rest).map fun (items, rest) => (.array items, rest)
    | '\x7b' :: rest =>
      if room ≤ 1 then none
      else
        match skipBlanks rest with
        | '\x7d' :: rest => some (.table .inline [], rest)
        | rest => (members? fuel (room - 1) [] rest).map fun (es, rest) => (.table .inline es, rest)
    | '\"' :: _ | '\x27' :: _ => (string? cs).map fun (s, rest) => (.string s, rest)
    | 't' :: _ => (word? "true" cs).map fun rest => (.bool true, rest)
    | 'f' :: _ => (word? "false" cs).map fun rest => (.bool false, rest)
    | cs => number? cs

/-- Reads the elements of an array up to its closing bracket; a comma may stand after the last. -/
def items? : Nat → Nat → List Char → Option (List Toml × List Char)
  | 0, _, _ => none
  | fuel + 1, room, cs =>
    match skipSpace cs with
    | ']' :: rest => some ([], rest)
    | cs =>
      match value? fuel room cs with
      | none => none
      | some (item, rest) =>
        match skipSpace rest with
        | ',' :: rest => (items? fuel room rest).map fun (items, rest) => (item :: items, rest)
        | ']' :: rest => some ([item], rest)
        | _ => none

/-- Reads the entries of a table in braces, on one line, up to its closing brace. -/
def members? : Nat → Nat → Entries → List Char → Option (Entries × List Char)
  | 0, _, _, _ => none
  | fuel + 1, room, es, cs =>
    match key? cs with
    | some ((path, key), '=' :: rest) =>
      match value? fuel room (skipBlanks rest) with
      | none => none
      | some (item, rest) =>
        match es.insert key item true path with
        | none => none
        | some es =>
          match skipBlanks rest with
          | ',' :: rest => members? fuel room es rest
          | '\x7d' :: rest => some (es, rest)
          | _ => none
    | _ => none

end

/-! ## Lines -/

/-- A document in the making: its entries and the path of the table that the last header
opened. -/
structure Draft where
  entries : Entries := []
  path : List String := []

/-- Reads an entry up to the end of its line. Twice the length bounds the steps of its value. -/
def entry? (d : Draft) (cs : List Char) : Option (Draft × List Char) := do
  let ((path, key), cs) ← key? cs
  let cs ← mark? '=' cs
  let (v, cs) ← value? (2 * cs.length + 2) depthLimit (skipBlanks cs)
  let rest ← lineEnd? cs
  let entries ← d.entries.within (·.insert key v true path) d.path
  return ({ d with entries }, rest)

/-- Reads the header of a table up to the end of its line, after its opening bracket. -/
def header? (d : Draft) (cs : List Char) : Option (Draft × List Char) := do
  let ((path, key), cs) ← key? cs
  let cs ← mark? ']' cs
  let rest ← lineEnd? cs
  let entries ← d.entries.within (·.openTable key) path
  return (⟨entries, path ++ [key]⟩, rest)

/-- Reads a header in double brackets up to the end of its line, after its opening brackets. -/
def nextHeader? (d : Draft) (cs : List Char) : Option (Draft × List Char) := do
  let ((path, key), cs) ← key? cs
  let cs ← mark? ']' cs
  let cs ← mark? ']' cs
  let rest ← lineEnd? cs
  let entries ← d.entries.within (·.openNext key) path
  return (⟨entries, path ++ [key]⟩, rest)

def line? (d : Draft) (cs : List Char) : Option (Draft × List Char) :=
  match skipBlanks cs with
  | '[' :: '[' :: rest => nextHeader? d rest
  | '[' :: rest => header? d rest
  | cs =>
    match lineEnd? cs with
    | some rest => some (d, rest)
    | none => entry? d cs

def lines? : Nat → Draft → List Char → Option Draft
  | _, d, [] => some d
  | 0, _, _ => none
  | fuel + 1, d, cs =>
    match line? d cs with
    | some (d, rest) => lines? fuel d rest
    | none => none

/-- Reads a document, after a byte order mark if there is one. A line takes a character. -/
def parse? (s : String) : Option Toml :=
  let cs :=
    match s.toList with
    | '\ufeff' :: rest => rest
    | cs => cs
  (lines? cs.length {} cs).map fun d => .table .header d.entries

end Toml
end StackCompiler
