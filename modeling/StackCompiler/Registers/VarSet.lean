/-
Sets of variables. A set is a number whose binary digits say which variables
it holds, so two sets with the same members are equal.
-/
import StackCompiler.Linear.Basic

namespace StackCompiler

/-- A set of variables, one bit for each. -/
structure VarSet where
  bits : Nat
deriving DecidableEq, Repr, Inhabited

namespace VarSet

def empty : VarSet := ⟨0⟩

def contains (s : VarSet) (v : Var) : Bool := s.bits.testBit v

instance : Membership Var VarSet := ⟨fun s v => s.contains v = true⟩

instance (v : Var) (s : VarSet) : Decidable (v ∈ s) :=
  inferInstanceAs (Decidable (s.contains v = true))

def insert (s : VarSet) (v : Var) : VarSet := ⟨s.bits ||| 1 <<< v⟩

def erase (s : VarSet) (v : Var) : VarSet :=
  if s.contains v then ⟨s.bits ^^^ 1 <<< v⟩ else s

def union (s t : VarSet) : VarSet := ⟨s.bits ||| t.bits⟩

def insertAll (s : VarSet) (vs : List Var) : VarSet := vs.foldl insert s

def toList (s : VarSet) : List Var := (List.range (s.bits.log2 + 1)).filter s.contains

end VarSet
end StackCompiler
