/-
AArch64 general registers and condition codes.
-/

namespace StackCompiler

/-- A general register, by its code. Code 31 is the stack pointer or the zero register. -/
structure Reg where
  code : Fin 32
deriving DecidableEq, Repr, Inhabited

namespace Reg

def ofCode? (n : Nat) : Option Reg := if h : n < 32 then some ⟨⟨n, h⟩⟩ else none

def x0 : Reg := ⟨0⟩

def fp : Reg := ⟨29⟩

def lr : Reg := ⟨30⟩

def sp : Reg := ⟨31⟩

def zero : Reg := ⟨31⟩

def title (r : Reg) : String :=
  if r = fp then "Fp" else if r = lr then "Lr" else if r = sp then "Sp" else s!"X{r.code.val}"

/-- The name with the letter `x`, whatever the role. -/
def text (r : Reg) : String := s!"x{r.code.val}"

end Reg

/-- Conditions on flags. -/
inductive Cond where
  | eq
  | ne
  | cs
  | cc
  | mi
  | pl
  | vs
  | vc
  | hi
  | ls
  | ge
  | lt
  | gt
  | le
  | al
deriving DecidableEq, Repr, Inhabited

namespace Cond

def all : List Cond := [eq, ne, cs, cc, mi, pl, vs, vc, hi, ls, ge, lt, gt, le, al]

def code : Cond → Nat
  | eq => 0
  | ne => 1
  | cs => 2
  | cc => 3
  | mi => 4
  | pl => 5
  | vs => 6
  | vc => 7
  | hi => 8
  | ls => 9
  | ge => 10
  | lt => 11
  | gt => 12
  | le => 13
  | al => 14

/-- The condition with the given code; code 15 has no meaning. -/
def ofCode? (n : Nat) : Option Cond := all[n]?

/-- The condition that holds when this one does not; `al` is its own. -/
def negate : Cond → Cond
  | eq => ne
  | ne => eq
  | cs => cc
  | cc => cs
  | mi => pl
  | pl => mi
  | vs => vc
  | vc => vs
  | hi => ls
  | ls => hi
  | ge => lt
  | lt => ge
  | gt => le
  | le => gt
  | al => al

def name : Cond → String
  | eq => "eq"
  | ne => "ne"
  | cs => "cs"
  | cc => "cc"
  | mi => "mi"
  | pl => "pl"
  | vs => "vs"
  | vc => "vc"
  | hi => "hi"
  | ls => "ls"
  | ge => "ge"
  | lt => "lt"
  | gt => "gt"
  | le => "le"
  | al => "al"

end Cond
end StackCompiler
