/-
Parameters that receive one value. If every edge into a block passes, for one
parameter, either one and the same value or the parameter itself, then that
value takes the place of the parameter.
-/
import StackCompiler.Graph.Order

namespace StackCompiler.Graph

/-- The one value that is passed for a parameter besides the parameter itself. -/
def soleValue? (param : NodeId) (args : List NodeId) : Option NodeId :=
  match args.filter (· ≠ param) with
  | [] => none
  | v :: rest => if rest.all (· = v) then some v else none

/-- The value of a parameter whose edges, from the given blocks, all pass that value. -/
def trivialValue? (g : Graph) (order : List BlockId) (block : BlockId) (index : Nat) :
    Option NodeId :=
  let edges := (g.edgesOf order).filter (·.target = block)
  soleValue? ((g.block block).params.getD index 0) (edges.map (·.args.getD index 0))

/-- The edge without its argument for a parameter of `block`. -/
def dropArg (block : BlockId) (index : Nat) (e : Edge) : Edge :=
  if e.target = block then { e with args := e.args.eraseIdx index } else e

def mapEdgesOf (f : Edge → Edge) (g : Graph) (id : BlockId) : Graph :=
  let b := g.block id
  let onNode (g : Graph) (n : NodeId) : Graph :=
    let node := g.node n
    match node.handler with
    | some e => g.setNode n { node with handler := some (f e) }
    | none => g
  (b.body.foldl onNode g).setBlock id { b with cont := b.cont.mapEdges f }

/-- Writes their places, in 16 bits, into the parameters of a block. -/
def renumber (g : Graph) (block : BlockId) : Graph :=
  let number (g : Graph) (item : NodeId × Nat) : Graph :=
    g.setNode item.1 { g.node item.1 with op := .blockParam block (.ofNat item.2) }
  (g.block block).params.zipIdx.foldl number g

def removeParam (g : Graph) (order : List BlockId) (block : BlockId) (index : Nat)
    (value : NodeId) : Graph :=
  let b := g.block block
  let param := b.params.getD index 0
  let g := g.setBlock block { b with params := b.params.eraseIdx index }
  let g := order.foldl (mapEdgesOf (dropArg block index)) g
  (g.redirect param value).renumber block

/-- Removes the trivial parameters of a block among its first `count`, the last one first. -/
def sweepParams (order : List BlockId) (block : BlockId) : Nat → Graph × Nat → Graph × Nat
  | 0, s => s
  | index + 1, s =>
    match s.1.trivialValue? order block index with
    | some value =>
      sweepParams order block index (s.1.removeParam order block index value, s.2 + 1)
    | none => sweepParams order block index s

/-- Looks at each block but the entry once. -/
def sweepBlocks (order : List BlockId) (s : Graph × Nat) : Graph × Nat :=
  let sweep (s : Graph × Nat) (block : BlockId) : Graph × Nat :=
    if block = entry then s else sweepParams order block (s.1.block block).params.length s
  order.foldl sweep s

def sweepAll (order : List BlockId) : Nat → Graph × Nat → Graph × Nat
  | 0, s => s
  | fuel + 1, s =>
    let swept := sweepBlocks order s
    if swept.2 = s.2 then swept else sweepAll order fuel swept

def paramCount (g : Graph) : Nat := g.blocks.foldr (fun b n => b.params.length + n) 0

/-- Removes trivial parameters until none is left; each sweep but the last removes one. -/
def removeTrivialParams (g : Graph) : Graph × Nat :=
  sweepAll g.reachable (g.paramCount + 1) (g, 0)

end StackCompiler.Graph
