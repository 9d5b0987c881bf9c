/-
The layout of a bundle: scalar literals, then reference literals, then code,
each starting at a multiple of the alignment.
-/
import StackCompiler.Text.Quoted

namespace StackCompiler

/-- The parts of a bundle, in their order. -/
inductive BundlePart where
  | scalars
  | references
  | code
deriving DecidableEq, Repr

namespace BundlePart

def all : List BundlePart := [scalars, references, code]

def name : BundlePart → String
  | scalars => "scalar literals"
  | references => "reference literals"
  | code => "code"

end BundlePart

/-- The sizes from which the parts get their places. -/
structure Layout where
  scalarBytes : Nat
  referenceBytes : Nat
  codeBytes : Nat
  alignment : Nat
deriving DecidableEq, Repr

namespace Layout

def length (l : Layout) : BundlePart → Nat
  | .scalars => l.scalarBytes
  | .references => l.referenceBytes
  | .code => l.codeBytes

/-- Where a part starts, from the start of the bundle. -/
def offset (l : Layout) : BundlePart → Nat
  | .scalars => 0
  | .references => alignUp l.scalarBytes l.alignment
  | .code => alignUp (alignUp l.scalarBytes l.alignment + l.referenceBytes) l.alignment

/-- Where a part ends. -/
def stop (l : Layout) (part : BundlePart) : Nat := l.offset part + l.length part

def size (l : Layout) : Nat := alignUp (l.stop .code) l.alignment

def listing (l : Layout) : List String :=
  let line (part : BundlePart) : String :=
    Text.padRight 20 part.name ++ " [" ++ Hex.markedTo 4 (l.offset part) ++ ", "
      ++ Hex.markedTo 4 (l.stop part) ++ ")"
  (BundlePart.all.map line) ++ [Text.padRight 20 "bundle size" ++ " " ++ toString l.size]

end Layout
end StackCompiler
