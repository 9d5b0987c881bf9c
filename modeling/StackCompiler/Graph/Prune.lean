/-
Dead nodes: arithmetic that no effect, continuation or edge needs is dropped
from the bodies.
-/
import StackCompiler.Graph.Order

namespace StackCompiler.Graph

def needs (g : Graph) (id : NodeId) : List NodeId :=
  let n := g.node id
  n.op.inputs ++ (match n.handler with | some e => e.args | none => [])

/-- What a block needs by itself: its effects and what its continuation mentions. -/
def rootsOf (g : Graph) (id : BlockId) : List NodeId :=
  let b := g.block id
  b.body.filter (fun n => !(g.node n).op.isPure) ++ b.cont.inputs ++ b.cont.edges.flatMap (·.args)

/-- The nodes that reachable blocks need, directly or through others. -/
def needed (g : Graph) : Array Bool :=
  (Search.run g.nodes.size g.needs (g.reachable.flatMap g.rootsOf)).seen

def pruneBlock (needed : Array Bool) (s : Graph × Nat) (id : BlockId) : Graph × Nat :=
  let b := s.1.block id
  let body := b.body.filter fun n => needed.getD n false
  (s.1.setBlock id { b with body }, s.2 + (b.body.length - body.length))

def prune (g : Graph) : Graph × Nat := g.reachable.foldl (pruneBlock g.needed) (g, 0)

end StackCompiler.Graph
