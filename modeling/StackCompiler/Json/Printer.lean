/-
Writing JSON text, on one line or with one item a line and two blanks of
indentation a level.
-/
import StackCompiler.Json.Basic
import StackCompiler.Text.Hex

namespace StackCompiler
namespace Json

def escapedChar (c : Char) : List Char :=
  match c with
  | '\"' => ['\\', '\"']
  | '\\' => ['\\', '\\']
  | '\x08' => ['\\', 'b']
  | '\x0c' => ['\\', 'f']
  | '\n' => ['\\', 'n']
  | '\r' => ['\\', 'r']
  | '\t' => ['\\', 't']
  | c => if c.toNat < 0x20 then "\\u".toList ++ (Hex.padded 4 c.toNat).toList else [c]

/-- A string between quotes; a string without text is written empty. -/
def quoted (s : Option String) : String :=
  String.ofList ('\"' :: ((s.getD "").toList.flatMap escapedChar ++ ['\"']))

def digitsText (ds : List Nat) : String := String.join (ds.map toString)

end Json

def JsonNumber.render (n : JsonNumber) : String :=
  (if n.negative then "-" else "") ++ Json.digitsText n.whole
    ++ (match n.fraction with | some ds => "." ++ Json.digitsText ds | none => "")
    ++ (match n.exponent with | some e => "e" ++ toString e | none => "")

namespace Json

mutual

def render : Json → String
  | null => "null"
  | bool b => if b then "true" else "false"
  | number n => n.render
  | string s => quoted s
  | array items => "[" ++ ",".intercalate (renderItems items) ++ "]"
  | object fields => "\x7b" ++ ",".intercalate (renderFields fields) ++ "\x7d"

def renderItems : List Json → List String
  | [] => []
  | j :: rest => j.render :: renderItems rest

def renderFields : List (Option String × Json) → List String
  | [] => []
  | (key, j) :: rest => (quoted key ++ ":" ++ j.render) :: renderFields rest

end

def block (indent : String) (opening closing : String) (items : List String) : String :=
  if items.isEmpty then opening ++ closing
  else
    let inner := items.map (indent ++ "  " ++ ·)
    opening ++ "\n" ++ ",\n".intercalate inner ++ "\n" ++ indent ++ closing

mutual

/-- The document with one item a line, the first line not indented. -/
def pretty (indent : String) : Json → String
  | array items => block indent "[" "]" (prettyItems (indent ++ "  ") items)
  | object fields => block indent "\x7b" "\x7d" (prettyFields (indent ++ "  ") fields)
  | null => "null"
  | bool b => if b then "true" else "false"
  | number n => n.render
  | string s => quoted s

def prettyItems (indent : String) : List Json → List String
  | [] => []
  | j :: rest => j.pretty indent :: prettyItems indent rest

def prettyFields (indent : String) : List (Option String × Json) → List String
  | [] => []
  | (key, j) :: rest => (quoted key ++ ": " ++ j.pretty indent) :: prettyFields indent rest

end

end Json
end StackCompiler
