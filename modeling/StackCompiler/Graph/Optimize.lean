/-
The passes over a graph in their order: inlining once, folding and parameters
until nothing changes, dead nodes last.
-/
import StackCompiler.Graph.Fold
import StackCompiler.Graph.Inline
import StackCompiler.Graph.Params
import StackCompiler.Graph.Prune

namespace StackCompiler

/-- Which passes are made. -/
structure OptimizerOptions where
  inlines : Bool := true
  inlineLimit : Nat := 16
  folds : Bool := true
deriving DecidableEq, Repr, Inhabited

/-- What passes have changed. -/
structure OptimizerStats where
  inlined : Nat := 0
  folded : Nat := 0
  branchesFolded : Nat := 0
  paramsRemoved : Nat := 0
  deadNodes : Nat := 0
deriving DecidableEq, Repr, Inhabited

namespace Graph

def simplifyWithin : Nat → Graph × OptimizerStats → Graph × OptimizerStats
  | 0, s => s
  | fuel + 1, (g, stats) =>
    let (g, folded) := g.foldConstants
    let (g, branches) := g.foldBranches
    let (g, params) := g.removeTrivialParams
    let stats :=
      { stats with
        folded := stats.folded + folded
        branchesFolded := stats.branchesFolded + branches
        paramsRemoved := stats.paramsRemoved + params }
    if folded + branches + params = 0 then (g, stats) else simplifyWithin fuel (g, stats)

/-- Each round but the last makes a node constant, a branch a jump, or removes a parameter. -/
def simplify (s : Graph × OptimizerStats) : Graph × OptimizerStats :=
  simplifyWithin (s.1.nodes.size + s.1.blocks.size + s.1.paramCount + 1) s

/-- All passes that are asked for, with what they changed. -/
def optimize (options : OptimizerOptions) (provider : MethodProvider) (g : Graph) :
    Graph × OptimizerStats :=
  let (g, inlined) := if options.inlines then g.inlineCalls provider options.inlineLimit else (g, 0)
  let stats : OptimizerStats := { inlined }
  let (g, stats) :=
    if options.folds then simplify (g, stats)
    else
      let (g, paramsRemoved) := g.removeTrivialParams
      (g, { stats with paramsRemoved })
  let (g, deadNodes) := g.prune
  (g, { stats with deadNodes })

end Graph
end StackCompiler
