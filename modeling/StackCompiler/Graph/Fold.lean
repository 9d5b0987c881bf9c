/-
Folding: arithmetic on constants becomes a constant, and a branch whose
outcome is known becomes a jump. Every pass returns what it counted.
-/
import StackCompiler.Arithmetic
import StackCompiler.Graph.Order

namespace StackCompiler.Graph

/-- The value of an operator whose inputs are constants; a constant itself is not evaluated. -/
def evaluate? (g : Graph) : Operator → Option Value
  | .binary op lhs rhs =>
    match g.constant? lhs, g.constant? rhs with
    | some a, some b => op.eval? a b
    | _, _ => none
  | .negate x =>
    match g.constant? x with
    | some a => a.negate?
    | none => none
  | .convert c x =>
    match g.constant? x with
    | some a => c.eval? a
    | none => none
  | _ => none

def foldNode (s : Graph × Nat) (id : NodeId) : Graph × Nat :=
  match s.1.evaluate? (s.1.node id).op with
  | some v => (s.1.replace id (.constant v), s.2 + 1)
  | none => s

def foldConstants (g : Graph) : Graph × Nat :=
  (g.reachable.flatMap fun b => (g.block b).body).foldl foldNode (g, 0)

def outcome? (g : Graph) (cond : Comparison) (lhs rhs : NodeId) : Option Bool :=
  if lhs = rhs ∧ g.kindOf lhs ≠ .double then some cond.onSame
  else
    match g.constant? lhs, g.constant? rhs with
    | some a, some b => cond.eval? a b
    | _, _ => none

def foldBranch (s : Graph × Nat) (id : BlockId) : Graph × Nat :=
  let b := s.1.block id
  match b.cont with
  | .branch cond lhs rhs taken notTaken =>
    match s.1.outcome? cond lhs rhs with
    | some outcome =>
      let edge := if outcome then taken else notTaken
      (s.1.setBlock id { b with cont := .jump edge }, s.2 + 1)
    | none => s
  | _ => s

def foldBranches (g : Graph) : Graph × Nat := g.reachable.foldl foldBranch (g, 0)

end StackCompiler.Graph
