/-
The span of each variable in the linear order of the code. An instruction
with the running number `i` reads at point `2i` and writes at `2i + 1`, so a
result may take the register of an operand that is not needed any more.
-/
import StackCompiler.Registers.Liveness

namespace StackCompiler

/-- The points from `start` to `stop`, both included, in which a variable is needed. -/
structure Interval where
  var : Var
  start : Nat
  stop : Nat
deriving DecidableEq, Repr, Inhabited

namespace Interval

def cover (i : Interval) (point : Nat) : Interval :=
  { i with start := min i.start point, stop := max i.stop point }

/-- The interval of each variable, if it has one yet. -/
abbrev Table := Array (Option Interval)

def touch (t : Table) (v : Var) (point : Nat) : Table :=
  match t[v]? with
  | some (some i) => t.setIfInBounds v (some (i.cover point))
  | _ => t.setIfInBounds v (some ⟨v, point, point⟩)

def touchAll (t : Table) (vs : List Var) (point : Nat) : Table :=
  vs.foldl (touch · · point) t

def touchInsns : Nat → List Linear.Insn → Table → Table
  | _, [], t => t
  | point, i :: rest, t =>
    let t := touchAll t i.uses point
    touchInsns (point + 2) rest (touchAll t i.def?.toList (point + 1))

/-- A block from a point on: its instructions, its end, and what is live at its start and its
end. -/
def touchBlock (l : Liveness) (id : Nat) (b : Linear.Block) (base : Nat) (t : Table) : Table :=
  let last := base + 2 * b.insns.length
  let t := touchAll (touchInsns base b.insns t) b.term.uses last
  let t := touchAll t (l.liveIn id).toList base
  touchAll t (l.liveOut id).toList (last + 1)

def touchBlocks (l : Liveness) : Nat → Nat → List Linear.Block → Table → Table
  | _, _, [], t => t
  | id, base, b :: rest, t =>
    touchBlocks l (id + 1) (base + 2 * b.insns.length + 2) rest (touchBlock l id b base t)

/-- The intervals of all variables that are mentioned, in order. -/
def ofMethod (m : Linear.Method) (l : Liveness) : List Interval :=
  let t := touchBlocks l 0 0 m.blocks.toList (Array.replicate m.varBound none)
  t.toList.filterMap id

end Interval
end StackCompiler
