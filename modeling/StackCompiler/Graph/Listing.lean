/-
The listing of a graph. Nodes are numbered in the order of the listing, so
the listing does not depend on the numbers inside the graph: first the
parameters and the body of each block, then what else is mentioned.
-/
import StackCompiler.Graph.Order

namespace StackCompiler

open Text

/-- The listing form of an operator whose nodes have the given names. -/
def Operator.listing (name : NodeId → Nat) (op : Operator) : String :=
  let ref id := "#" ++ toString (name id)
  let refs ids := list (ids.map ref)
  match op with
  | constant v => apply "Arithmetic" [apply "Constant" [v.listing]]
  | binary op lhs rhs =>
    apply "Arithmetic"
      [record "Binary" [("op", op.title), ("lhs", ref lhs), ("rhs", ref rhs)]]
  | negate x => apply "Arithmetic" [apply "Negate" [ref x]]
  | convert c x =>
    apply "Arithmetic"
      [record "Convert" [("conversion", c.title), ("operand", ref x)]]
  | parameter index => apply "Control" [apply "Parameter" [toString index]]
  | blockParam block index =>
    apply "Control"
      [record "BlockParam" [("block", "#" ++ toString block), ("index", toString index.toNat)]]
  | safepoint => apply "Control" ["Safepoint"]
  | caught => apply "Control" ["CatchParameter"]
  | newArray element length =>
    apply "Allocation"
      [record "NewArray" [("element", element.title), ("length", ref length)]]
  | newInstance cls =>
    apply "Allocation"
      [record "NewInstance" [("class", apply "ObjectRef" [toString cls.handle.toNat])]]
  | arrayLength array =>
    apply "Allocation" [record "ArrayLength" [("array", ref array)]]
  | arrayLoad element array index =>
    apply "Allocation"
      [record "ArrayLoad"
        [("element", element.title), ("array", ref array), ("index", ref index)]]
  | arrayStore element array index value =>
    apply "Allocation"
      [record "ArrayStore"
        [("element", element.title), ("array", ref array), ("index", ref index),
         ("value", ref value)]]
  | callStatic callee args =>
    apply "Invoke" [record "Static" [("method", callee.listing), ("args", refs args)]]
  | callNative callee args =>
    apply "Invoke" [record "Native" [("method", callee.listing), ("args", refs args)]]
  | callIndirect target signature args =>
    apply "Invoke"
      [record "Indirect"
        [("target", ref target), ("signature", signature.listing), ("args", refs args)]]

namespace Graph

def listed (g : Graph) (id : BlockId) : List NodeId := (g.block id).params ++ (g.block id).body

def mentioned (g : Graph) (id : BlockId) : List NodeId :=
  let b := g.block id
  let ofNode n :=
    (g.node n).op.inputs ++ (match (g.node n).handler with | some e => e.args | none => [])
  b.body.flatMap ofNode ++ b.cont.inputs ++ b.cont.edges.flatMap (·.args)

/-- Numbers the nodes of a list in order of first occurrence. -/
def numberNodes (size : Nat) (ids : List NodeId) : Array (Option Nat) :=
  let step (s : Array (Option Nat) × Nat) (id : NodeId) :=
    match s.1[id]? with
    | some none => (s.1.setIfInBounds id (some s.2), s.2 + 1)
    | _ => s
  (ids.foldl step (Array.replicate size none, 0)).1

def names (g : Graph) : NodeId → Nat :=
  let order := g.reachable
  let table := numberNodes g.nodes.size (order.flatMap g.listed ++ order.flatMap g.mentioned)
  fun id => ((table[id]?).join).getD id

def nameList (name : NodeId → Nat) (ids : List NodeId) : String :=
  ", ".intercalate (ids.map fun id => "v" ++ toString (name id))

def edgeListing (name : NodeId → Nat) (e : Edge) : String :=
  "b" ++ toString e.target ++ "(" ++ nameList name e.args ++ ")"

def contListing (name : NodeId → Nat) (c : Continuation) : String :=
  let v id := "v" ++ toString (name id)
  match c with
  | .jump e => "jump " ++ edgeListing name e
  | .branch cond lhs rhs taken notTaken =>
    "if " ++ v lhs ++ " " ++ cond.sign ++ " " ++ v rhs ++ " then " ++ edgeListing name taken
      ++ " else " ++ edgeListing name notTaken
  | .ret (some id) => "return " ++ v id
  | .ret none => "return"
  | .raise exception (some e) => "throw " ++ v exception ++ " catch " ++ edgeListing name e
  | .raise exception none => "throw " ++ v exception

def nodeListing (name : NodeId → Nat) (id : NodeId) (n : Node) : String :=
  let line := "  v" ++ toString (name id) ++ ": " ++ n.kind.name ++ " = " ++ n.op.listing name
  match n.handler with
  | some e => line ++ " catch " ++ edgeListing name e
  | none => line

def blockListing (g : Graph) (name : NodeId → Nat) (id : BlockId) : List String :=
  let b := g.block id
  let mark := if b.isHandler then " handler" else ""
  let head := "b" ++ toString id ++ "(" ++ nameList name b.params ++ ")" ++ mark ++ ":"
  head :: b.body.map (fun n => nodeListing name n (g.node n)) ++ ["  " ++ contListing name b.cont]

def listing (g : Graph) : List String :=
  let name := g.names
  ("cir " ++ g.key.text) :: g.reachable.flatMap (g.blockListing name)

end Graph
end StackCompiler
