/-
The value graph of a method. A method is a set of blocks. A block has
parameters, which are the values that its predecessors pass, a body in order
of evaluation, and one continuation. Every edge passes one argument for each
parameter of its target, so values merge by being passed.

Nodes and blocks are named by their numbers and are never removed; what no
reachable block mentions is not part of the method any more.
-/
import StackCompiler.Bytecode.Method

namespace StackCompiler

/-- An index into the nodes of a graph. -/
abbrev NodeId := Nat

/-- An index into the blocks of a graph. -/
abbrev BlockId := Nat

/-- How the value of a node is made. -/
inductive Operator where
  | constant (v : Value)
  | binary (op : BinaryOp) (lhs rhs : NodeId)
  | negate (x : NodeId)
  | convert (c : Conversion) (x : NodeId)
  | parameter (index : Nat)
  | blockParam (block : BlockId) (index : UInt16)
  | safepoint
  | caught
  | newArray (element : Kind) (length : NodeId)
  | newInstance (cls : ObjectRef)
  | arrayLength (array : NodeId)
  | arrayLoad (element : Kind) (array index : NodeId)
  | arrayStore (element : Kind) (array index value : NodeId)
  | callStatic (callee : MethodKey) (args : List NodeId)
  | callNative (callee : MethodKey) (args : List NodeId)
  | callIndirect (target : NodeId) (signature : Signature) (args : List NodeId)
deriving DecidableEq, Repr, Inhabited

namespace Operator

/-- The nodes that are read. -/
def inputs : Operator → List NodeId
  | constant _ | parameter _ | blockParam _ _ | safepoint | caught | newInstance _ => []
  | binary _ lhs rhs => [lhs, rhs]
  | negate x | convert _ x => [x]
  | newArray _ length => [length]
  | arrayLength array => [array]
  | arrayLoad _ array index => [array, index]
  | arrayStore _ array index value => [array, index, value]
  | callStatic _ args | callNative _ args => args
  | callIndirect target _ args => target :: args

/-- Renames the nodes that are read. -/
def mapInputs (f : NodeId → NodeId) : Operator → Operator
  | binary op lhs rhs => binary op (f lhs) (f rhs)
  | negate x => negate (f x)
  | convert c x => convert c (f x)
  | newArray element length => newArray element (f length)
  | arrayLength array => arrayLength (f array)
  | arrayLoad element array index => arrayLoad element (f array) (f index)
  | arrayStore element array index value => arrayStore element (f array) (f index) (f value)
  | callStatic callee args => callStatic callee (args.map f)
  | callNative callee args => callNative callee (args.map f)
  | callIndirect target signature args => callIndirect (f target) signature (args.map f)
  | op => op

def constant? : Operator → Option Value
  | constant v => some v
  | _ => none

/-- Whether a node may throw. -/
def canThrow : Operator → Bool
  | newArray .. | newInstance _ | arrayLength _ | arrayLoad .. | arrayStore .. | callStatic ..
  | callNative .. | callIndirect .. => true
  | _ => false

/-- Whether a node may be dropped when nothing reads it. -/
def isPure : Operator → Bool
  | constant _ | binary .. | negate _ | convert .. => true
  | _ => false

end Operator

/-- A transfer of control, with one argument for each parameter of the target. -/
structure Edge where
  target : BlockId
  args : List NodeId
deriving DecidableEq, Repr, Inhabited

def Edge.mapArgs (f : NodeId → NodeId) (e : Edge) : Edge := { e with args := e.args.map f }

/-- A value that is made at one place, and the position of its instruction. -/
structure Node where
  op : Operator
  kind : Kind
  bci : Nat
  /-- Where an exception goes, inside a protected range. -/
  handler : Option Edge := none
deriving DecidableEq, Repr, Inhabited

namespace Node

def mapNodes (f : NodeId → NodeId) (n : Node) : Node :=
  { n with op := n.op.mapInputs f, handler := n.handler.map (·.mapArgs f) }

end Node

/-- How a block ends. -/
inductive Continuation where
  | jump (edge : Edge)
  | branch (cond : Comparison) (lhs rhs : NodeId) (taken notTaken : Edge)
  | ret (value : Option NodeId)
  | raise (exception : NodeId) (handler : Option Edge)
deriving DecidableEq, Repr

instance : Inhabited Continuation := ⟨.ret none⟩

namespace Continuation

/-- Where a block may lead at its end. -/
def edges : Continuation → List Edge
  | jump e => [e]
  | branch _ _ _ taken notTaken => [taken, notTaken]
  | ret _ => []
  | raise _ handler => handler.toList

/-- The nodes that are read, not counting the arguments of edges. -/
def inputs : Continuation → List NodeId
  | jump _ => []
  | branch _ lhs rhs _ _ => [lhs, rhs]
  | ret value => value.toList
  | raise exception _ => [exception]

def mapEdges (f : Edge → Edge) : Continuation → Continuation
  | jump e => jump (f e)
  | branch cond lhs rhs taken notTaken => branch cond lhs rhs (f taken) (f notTaken)
  | ret value => ret value
  | raise exception handler => raise exception (handler.map f)

def mapNodes (f : NodeId → NodeId) : Continuation → Continuation
  | jump e => jump (e.mapArgs f)
  | branch cond lhs rhs taken notTaken =>
    branch cond (f lhs) (f rhs) (taken.mapArgs f) (notTaken.mapArgs f)
  | ret value => ret (value.map f)
  | raise exception handler => raise (f exception) (handler.map (·.mapArgs f))

end Continuation

/-- Nodes that are made in turn; edges to the block give its parameters. -/
structure Block where
  params : List NodeId := []
  body : List NodeId := []
  cont : Continuation := .ret none
  bci : Nat
  /-- Entered by exceptions only. -/
  isHandler : Bool := false
deriving DecidableEq, Repr, Inhabited

/-- A method in single assignment form. -/
structure Graph where
  key : MethodKey
  signature : Signature
  nodes : Array Node
  blocks : Array Block
deriving DecidableEq, Repr, Inhabited

namespace Graph

/-- The block where runs start. -/
def entry : BlockId := 0

def empty (key : MethodKey) (signature : Signature) : Graph :=
  ⟨key, signature, #[], #[{ bci := 0 }]⟩

/-- The node with a number. -/
def node (g : Graph) (id : NodeId) : Node := g.nodes.getD id default

/-- The block with a number. -/
def block (g : Graph) (id : BlockId) : Block := g.blocks.getD id default

def kindOf (g : Graph) (id : NodeId) : Kind := (g.node id).kind

def constant? (g : Graph) (id : NodeId) : Option Value := (g.node id).op.constant?

def addNode (g : Graph) (n : Node) : NodeId × Graph :=
  (g.nodes.size, { g with nodes := g.nodes.push n })

def addBlock (g : Graph) (b : Block) : BlockId × Graph :=
  (g.blocks.size, { g with blocks := g.blocks.push b })

def setBlock (g : Graph) (id : BlockId) (b : Block) : Graph :=
  { g with blocks := g.blocks.setIfInBounds id b }

def setNode (g : Graph) (id : NodeId) (n : Node) : Graph :=
  { g with nodes := g.nodes.setIfInBounds id n }

/-- Adds a parameter of the given kind to a block. Its place is kept in 16 bits. -/
def addParam (g : Graph) (block : BlockId) (kind : Kind) : Graph :=
  let b := g.block block
  let (id, g) := g.addNode { op := .blockParam block (.ofNat b.params.length), kind, bci := b.bci }
  g.setBlock block { b with params := b.params ++ [id] }

/-- Replaces what a node computes; its users keep reading it. -/
def replace (g : Graph) (id : NodeId) (op : Operator) : Graph :=
  let n := g.node id
  g.setNode id { n with op, handler := if op.canThrow then n.handler else none }

/-- Makes every use of one node read another instead. -/
def redirect (g : Graph) (source target : NodeId) : Graph :=
  let swap id := if id = source then target else id
  { g with
    nodes := g.nodes.map (·.mapNodes swap)
    blocks := g.blocks.map fun b => { b with cont := b.cont.mapNodes swap } }

/-- The edges that leave a block: those of exceptions first. -/
def edges (g : Graph) (id : BlockId) : List Edge :=
  let b := g.block id
  b.body.filterMap (fun n => (g.node n).handler) ++ b.cont.edges

def successors (g : Graph) (id : BlockId) : List BlockId := (g.edges id).map (·.target)

end Graph
end StackCompiler
