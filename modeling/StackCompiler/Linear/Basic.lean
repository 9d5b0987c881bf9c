/-
Linear code. Values live in variables that can be assigned again and again,
and later get a register or a stack slot. Blocks are emitted in order; where
values merge, they are moved. Each block names the handler that its calls
fall to.
-/
import StackCompiler.Bytecode.Method

namespace StackCompiler

/-- An index into the variables of a method. -/
abbrev Var := Nat

/-- An index into the literals of a method. -/
abbrev LiteralId := Nat

/-- A constant that is loaded from the bundle. -/
inductive Literal where
  | scalar (v : Value)
  | reference (r : ObjectRef)
deriving DecidableEq, Repr, Inhabited

def Literal.ofValue : Value → Literal
  | .reference r => reference r
  | v => scalar v

def fitsMove (bits : Int) : Bool := -0x10000 ≤ bits && bits ≤ 0xFFFF

/-- What a call leads to. -/
inductive CallTarget where
  | direct (callee : MethodKey)
  | native (callee : MethodKey)
  | indirect (address : Var)
deriving DecidableEq, Repr

namespace Linear

/-- An instruction on variables. -/
inductive Insn where
  | move (dst src : Var)
  | const (dst : Var) (value : Value)
  | literal (dst : Var) (id : LiteralId)
  | parameter (dst : Var) (index : Nat)
  | arith (op : BinaryOp) (kind : Kind) (dst lhs rhs : Var)
  | negate (kind : Kind) (dst src : Var)
  | convert (c : Conversion) (dst src : Var)
  | call (target : CallTarget) (args : List Var) (result : Option Var) (noreturn : Bool) (bci : Nat)
  | safepoint (bci : Nat)
  | caught (dst : Var)
deriving DecidableEq, Repr

namespace Insn

def uses : Insn → List Var
  | move _ src | negate _ _ src | convert _ _ src => [src]
  | arith _ _ _ lhs rhs => [lhs, rhs]
  | call (.indirect address) args _ _ _ => args ++ [address]
  | call _ args _ _ _ => args
  | const .. | literal .. | parameter .. | safepoint _ | caught _ => []

/-- The variable that is assigned. -/
def def? : Insn → Option Var
  | move dst _ | const dst _ | literal dst _ | parameter dst _ | arith _ _ dst _ _
  | negate _ dst _ | convert _ dst _ | caught dst => some dst
  | call _ _ result _ _ => result
  | safepoint _ => none

/-- Only calls may throw. -/
def isCall : Insn → Bool
  | call .. => true
  | _ => false

/-- Whether the collector may run at the instruction. -/
def isStop : Insn → Bool
  | call .. | safepoint _ => true
  | _ => false

def vars (i : Insn) : List Var := i.uses ++ i.def?.toList

end Insn

/-- How a linear block ends. -/
inductive Terminator where
  | jump (target : Nat)
  | branch (cond : Comparison) (kind : Kind) (lhs rhs : Var) (taken notTaken : Nat)
  | ret (value : Option Var)
  /-- Behind a call that does not return. -/
  | unreachable
deriving DecidableEq, Repr

instance : Inhabited Terminator := ⟨.unreachable⟩

namespace Terminator

def uses : Terminator → List Var
  | branch _ _ lhs rhs _ _ => [lhs, rhs]
  | ret value => value.toList
  | jump _ | unreachable => []

def successors : Terminator → List Nat
  | jump target => [target]
  | branch _ _ _ _ taken notTaken => [taken, notTaken]
  | ret _ | unreachable => []

end Terminator

/-- Instructions with one end, and one handler for all calls in them. -/
structure Block where
  insns : List Insn := []
  term : Terminator := .unreachable
  /-- The block that runs when a call here throws. -/
  handler : Option Nat := none
  isCatch : Bool := false
deriving DecidableEq, Repr, Inhabited

def Block.successors (b : Block) : List Nat := b.term.successors ++ b.handler.toList

def Block.vars (b : Block) : List Var := b.insns.flatMap Insn.vars ++ b.term.uses

/-- A method as blocks of instructions on variables. -/
structure Method where
  key : MethodKey
  vars : Array Kind := #[]
  blocks : Array Block := #[]
  literals : Array Literal := #[]
deriving DecidableEq, Repr, Inhabited

namespace Method

/-- The place of a value in the pool. Equal values share one place. -/
def intern (pool : Array Literal) (v : Value) : LiteralId × Array Literal :=
  let literal := Literal.ofValue v
  match pool.idxOf? literal with
  | some id => (id, pool)
  | none => (pool.size, pool.push literal)

def hasHandlers (m : Method) : Bool := m.blocks.any (·.handler.isSome)

/-- A number above every variable of a method, also above those that are mentioned but not
declared. -/
def varBound (m : Method) : Nat :=
  (m.blocks.toList.flatMap Block.vars).foldl (fun n v => max n (v + 1)) m.vars.size

end Method
end Linear
end StackCompiler
