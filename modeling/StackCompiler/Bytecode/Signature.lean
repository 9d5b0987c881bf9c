/-
Method descriptors: `(` parameter types `)` result type. A type is a letter
for a scalar, `L` name `;` for a class, or `[` before the type of elements.
-/
import StackCompiler.Kind

namespace StackCompiler

/-- What a descriptor says. -/
structure Signature where
  params : List Kind
  result : Kind
deriving DecidableEq, Repr, Inhabited

namespace Signature

/-- Reads one field type off the front. -/
def field? : List Char → Option (Kind × List Char)
  | [] => none
  | 'L' :: rest =>
    match rest.span (· ≠ ';') with
    | (_ :: _, _ :: after) => some (.reference, after)
    | _ => none
  | '[' :: rest =>
    match field? rest with
    | none | some (.void, _) => none
    | some (_, after) => some (.reference, after)
  | c :: rest =>
    match c with
    | 'I' | 'Z' | 'B' | 'C' | 'S' => some (.int, rest)
    | 'J' => some (.long, rest)
    | 'D' => some (.double, rest)
    | 'W' => some (.word, rest)
    | 'V' => some (.void, rest)
    | _ => none

/-- Reads parameter types to the end of the text, whose length bounds their number. -/
def fields? : Nat → List Char → Option (List Kind)
  | _, [] => some []
  | 0, _ :: _ => none
  | fuel + 1, cs =>
    match field? cs with
    | none | some (.void, _) => none
    | some (k, rest) => (fields? fuel rest).map (k :: ·)

/-- Reads a descriptor. The parameters end at the first closing parenthesis. -/
def ofChars? (cs : List Char) : Option Signature :=
  match cs with
  | '(' :: rest =>
    match rest.span (· ≠ ')') with
    | (inside, _ :: after) =>
      match fields? inside.length inside, field? after with
      | some params, some (result, []) => some ⟨params, result⟩
      | _, _ => none
    | _ => none
  | _ => none

def parse? (descriptor : String) : Option Signature := ofChars? descriptor.toList

def listing (s : Signature) : String :=
  "Signature \x7b params: [" ++ ", ".intercalate (s.params.map Kind.title) ++ "], ret: "
    ++ s.result.title ++ " \x7d"

end Signature
end StackCompiler
