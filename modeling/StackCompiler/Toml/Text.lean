/-
The text of a TOML document below its values: blanks, comments, strings and
keys. Every reader takes the characters that are left and returns what it read
with the characters after it.
-/
import StackCompiler.Text.Hex

namespace StackCompiler
namespace Toml

def isBlank (c : Char) : Bool := c = ' ' || c = '\t'

def skipBlanks (cs : List Char) : List Char := cs.dropWhile isBlank

/-- The characters of a comment: all but the control characters, a tab apart. -/
def isPrintable (c : Char) : Bool := c = '\t' || (0x20 ≤ c.toNat && c.toNat ≠ 0x7F)

def newline? : List Char → Option (List Char)
  | '\n' :: rest => some rest
  | '\r' :: '\n' :: rest => some rest
  | _ => none

def skipComment : List Char → List Char
  | '#' :: rest => rest.dropWhile isPrintable
  | cs => cs

def lineEnd? (cs : List Char) : Option (List Char) :=
  match skipComment (skipBlanks cs) with
  | [] => some []
  | cs => newline? cs

/-- Drops blanks, ends of lines and comments up to the end of their line. -/
def skipLines : Nat → List Char → List Char
  | 0, cs => cs
  | fuel + 1, cs =>
    let cs := skipBlanks cs
    match newline? (skipComment cs) with
    | some rest => skipLines fuel rest
    | none => cs

/-- Drops blanks, ends of lines and comments; a comment with no line after it stays. -/
def skipSpace (cs : List Char) : List Char := skipLines cs.length cs

/-! ## Strings -/

def escape? : Char → Option Char
  | '\"' => some '\"'
  | '\\' => some '\\'
  | 'b' => some '\x08'
  | 'f' => some '\x0c'
  | 'n' => some '\n'
  | 'r' => some '\r'
  | 't' => some '\t'
  | _ => none

def codePoint? (digits : List Char) : Option Char := do
  let n ← Hex.number? digits
  if n < 0xD800 ∨ (0xE000 ≤ n ∧ n < 0x110000) then some (Char.ofNat n) else none

/-- Reads a string in double quotes after the opening quote. -/
def basicString? (done : List Char) : List Char → Option (String × List Char)
  | [] => none
  | '\"' :: rest => some (String.ofList done.reverse, rest)
  | '\\' :: 'u' :: a :: b :: c :: d :: rest =>
    match codePoint? [a, b, c, d] with
    | some x => basicString? (x :: done) rest
    | none => none
  | '\\' :: 'U' :: a :: b :: c :: d :: e :: f :: g :: h :: rest =>
    match codePoint? [a, b, c, d, e, f, g, h] with
    | some x => basicString? (x :: done) rest
    | none => none
  | '\\' :: c :: rest =>
    match escape? c with
    | some x => basicString? (x :: done) rest
    | none => none
  | c :: rest =>
    if c ≠ '\\' && isPrintable c then basicString? (c :: done) rest else none

def literalString? (done : List Char) : List Char → Option (String × List Char)
  | [] => none
  | '\x27' :: rest => some (String.ofList done.reverse, rest)
  | c :: rest => if isPrintable c then literalString? (c :: done) rest else none

/-- Reads a string in three double quotes after the opening quotes. Up to two quotes may stand
before the closing ones. `trim` drops blanks and ends of lines, as a backslash at the end of a
line asks for. -/
def basicLines? (done : List Char) (trim : Bool) : List Char → Option (String × List Char)
  | [] => none
  | '\"' :: '\"' :: '\"' :: '\"' :: '\"' :: rest =>
    some (String.ofList ('\"' :: '\"' :: done).reverse, rest)
  | '\"' :: '\"' :: '\"' :: '\"' :: rest => some (String.ofList ('\"' :: done).reverse, rest)
  | '\"' :: '\"' :: '\"' :: rest => some (String.ofList done.reverse, rest)
  | '\r' :: '\n' :: rest => basicLines? (if trim then done else '\n' :: done) trim rest
  | '\n' :: rest => basicLines? (if trim then done else '\n' :: done) trim rest
  | '\\' :: 'u' :: a :: b :: c :: d :: rest =>
    match codePoint? [a, b, c, d] with
    | some x => basicLines? (x :: done) false rest
    | none => none
  | '\\' :: 'U' :: a :: b :: c :: d :: e :: f :: g :: h :: rest =>
    match codePoint? [a, b, c, d, e, f, g, h] with
    | some x => basicLines? (x :: done) false rest
    | none => none
  | '\\' :: c :: rest =>
    match escape? c with
    | some x => basicLines? (x :: done) false rest
    | none =>
      if (newline? (skipBlanks (c :: rest))).isNone then none
      else if c = '\r' then basicLines? done true (c :: rest)
      else basicLines? done true rest
  | c :: rest =>
    if trim && isBlank c then basicLines? done true rest
    else if c ≠ '\\' && isPrintable c then basicLines? (c :: done) false rest
    else none

def literalLines? (done : List Char) : List Char → Option (String × List Char)
  | [] => none
  | '\x27' :: '\x27' :: '\x27' :: '\x27' :: '\x27' :: rest =>
    some (String.ofList ('\x27' :: '\x27' :: done).reverse, rest)
  | '\x27' :: '\x27' :: '\x27' :: '\x27' :: rest =>
    some (String.ofList ('\x27' :: done).reverse, rest)
  | '\x27' :: '\x27' :: '\x27' :: rest => some (String.ofList done.reverse, rest)
  | '\r' :: '\n' :: rest => literalLines? ('\n' :: done) rest
  | '\n' :: rest => literalLines? ('\n' :: done) rest
  | c :: rest => if isPrintable c then literalLines? (c :: done) rest else none

def skipNewline (cs : List Char) : List Char := (newline? cs).getD cs

def string? : List Char → Option (String × List Char)
  | '\"' :: '\"' :: '\"' :: rest => basicLines? [] false (skipNewline rest)
  | '\"' :: rest => basicString? [] rest
  | '\x27' :: '\x27' :: '\x27' :: rest => literalLines? [] (skipNewline rest)
  | '\x27' :: rest => literalString? [] rest
  | _ => none

/-! ## Keys -/

def isBare (c : Char) : Bool := c.isAlphanum || c = '_' || c = '-'

/-- Reads one part of a key: a string on one line, or a run of plain characters. -/
def keyPart? : List Char → Option (String × List Char)
  | '\"' :: rest => basicString? [] rest
  | '\x27' :: rest => literalString? [] rest
  | cs =>
    match cs.span isBare with
    | ([], _) => none
    | (run, rest) => some (String.ofList run, rest)

/-- Reads the parts of a key, with blanks around each. -/
def keyParts? : Nat → List Char → Option (List String × List Char)
  | 0, _ => none
  | fuel + 1, cs =>
    match keyPart? (skipBlanks cs) with
    | none => none
    | some (part, rest) =>
      match skipBlanks rest with
      | '.' :: rest => (keyParts? fuel rest).map fun (parts, rest) => (part :: parts, rest)
      | rest => some ([part], rest)

def depthLimit : Nat := 80

/-- Reads a key of less than `depthLimit` parts: the tables it passes through and its last part. -/
def key? (cs : List Char) : Option ((List String × String) × List Char) := do
  let (parts, rest) ← keyParts? (depthLimit - 1) cs
  let last ← parts.getLast?
  return ((parts.dropLast, last), rest)

end Toml
end StackCompiler
