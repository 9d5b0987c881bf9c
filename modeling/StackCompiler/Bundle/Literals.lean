/-
The literals of a bundle. Scalars stand in order of their width, the widest
first, so that each is aligned; references follow.
-/
import StackCompiler.Bundle.Error
import StackCompiler.Convention
import StackCompiler.Linear.Basic
import StackCompiler.Machine.Buffer

namespace StackCompiler

/-- Literals with their labels, in the order of the bundle. -/
structure LiteralPool where
  scalars : List (Label × Nat)
  scalarBytes : Bytes
  references : List (Label × ObjectRef)
deriving DecidableEq, Repr

namespace LiteralPool

def scalarsOf (literals : List (Literal × Label)) : List (Value × Label) :=
  literals.filterMap fun (literal, label) =>
    match literal with
    | .scalar v => some (v, label)
    | .reference _ => none

def referencesOf (literals : List (Literal × Label)) : List (Label × ObjectRef) :=
  literals.filterMap fun (literal, label) =>
    match literal with
    | .scalar _ => none
    | .reference r => some (label, r)

/-- Writes scalars one after the other. Each must start where the one before it ends by its
width. -/
def write (offset : Nat) (placed : List (Label × Nat)) (bytes : Bytes) :
    List (Value × Label) → Except CodegenError (List (Label × Nat) × Bytes)
  | [] =>
    if bytes.size ≠ offset then .error (.literal (.misplaced offset bytes.size))
    else .ok (placed, bytes)
  | (v, label) :: rest =>
    if bytes.size ≠ offset then .error (.literal (.misplaced offset bytes.size))
    else
      match Convention.dataModel.image v with
      | .error e => .error (.literal e)
      | .ok image =>
        write (offset + v.kind.width) (placed ++ [(label, offset)]) (bytes ++ image) rest

/-- Packs literals that are given in pool order; those of one width keep it. -/
def pack (literals : List (Literal × Label)) : Except CodegenError LiteralPool :=
  let scalars := (scalarsOf literals).mergeSort fun a b => a.1.kind.width ≥ b.1.kind.width
  match write 0 [] #[] scalars with
  | .error e => .error e
  | .ok (placed, bytes) => .ok ⟨placed, bytes, referencesOf literals⟩

def referenceBytes (p : LiteralPool) : Nat := p.references.length * Convention.referenceSize

/-- The address of each label in a bundle whose scalars and references start as given. -/
def addresses (p : LiteralPool) (scalarBase referenceBase : Nat) : List (Label × Nat) :=
  p.scalars.map (fun (label, offset) => (label, scalarBase + offset))
    ++ p.references.zipIdx.map fun ((label, _), i) =>
      (label, referenceBase + i * Convention.referenceSize)

end LiteralPool
end StackCompiler
