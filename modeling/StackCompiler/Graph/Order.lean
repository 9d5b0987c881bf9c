/-
The blocks that control can reach, each before those that are first found
from it (reverse post-order), and the edges between them.
-/
import StackCompiler.Search
import StackCompiler.Graph.Basic

namespace StackCompiler.Graph

/-- The blocks that the entry leads to, in reverse postorder. -/
def reachable (g : Graph) : List BlockId :=
  (Search.run g.blocks.size g.successors [entry]).order

def edgesOf (g : Graph) (blocks : List BlockId) : List Edge := blocks.flatMap g.edges

def size (g : Graph) : Nat := g.reachable.foldr (fun b n => (g.block b).body.length + n) 0

end StackCompiler.Graph
