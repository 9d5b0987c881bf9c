/-
Quoted text as listings show it: between double quotes, with the quote, the
backslash and the common controls escaped and every other unprintable
character written by its number.
-/
import StackCompiler.Text.Hex
import StackCompiler.Text.Unprintable

namespace StackCompiler.Text

def quotedChar (c : Char) : List Char :=
  match c with
  | '\t' => ['\\', 't']
  | '\n' => ['\\', 'n']
  | '\r' => ['\\', 'r']
  | '\x00' => ['\\', '0']
  | '\"' => ['\\', '\"']
  | '\\' => ['\\', '\\']
  | c => if isUnprintable c then "\\u\x7b".toList ++ Nat.toDigits 16 c.toNat ++ ['\x7d'] else [c]

def quoted (s : String) : String :=
  String.ofList ('\"' :: (s.toList.flatMap quotedChar ++ ['\"']))

/-- `Name \x7b a, b \x7d`, the listing form of a record. -/
def record (name : String) (fields : List (String × String)) : String :=
  let items := fields.map fun (field, value) => field ++ ": " ++ value
  name ++ " \x7b " ++ ", ".intercalate items ++ " \x7d"

/-- `Name(a, b)`, the listing form of an application. -/
def apply (name : String) (args : List String) : String :=
  name ++ "(" ++ ", ".intercalate args ++ ")"

/-- `[a, b]`, the listing form of a list. -/
def list (items : List String) : String := "[" ++ ", ".intercalate items ++ "]"

/-- `Some(a)` or `None`, the listing form of an optional item. -/
def option (item : Option String) : String :=
  match item with
  | some s => apply "Some" [s]
  | none => "None"

/-- The lines of a text; a final newline ends the last line and starts none. -/
def lines (s : String) : List String :=
  let parts := s.splitOn "\n"
  if parts.getLast? = some "" then parts.dropLast else parts

/-- `s` followed by blanks up to `width` characters. -/
def padRight (width : Nat) (s : String) : String :=
  s ++ String.ofList (List.replicate (width - s.length) ' ')

end StackCompiler.Text
