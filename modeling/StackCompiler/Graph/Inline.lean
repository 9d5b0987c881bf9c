/-
Inlining. A static call of a short method that consists of straight-line
instructions and a return is replaced by the nodes of that method.
-/
import StackCompiler.Graph.Build
import StackCompiler.Graph.Order

namespace StackCompiler.Graph

/-- Whether a method is a single block without calls, of at most `limit` instructions. -/
def isInlinable (m : Method) (limit : Nat) : Bool :=
  match m.code.getLast? with
  | none => false
  | some last =>
    m.handlers.isEmpty && m.code.length ≤ limit && (last = .ret || last = .retValue)
      && m.code.dropLast.all (·.isStackOp)

/-- The nodes of a call that was replaced, and its value if it has one. -/
structure Expansion where
  body : List NodeId
  value : Option NodeId
deriving DecidableEq, Repr

/-- Follows a callee up to its return. Nodes stay in the graph also when the callee does not fit. -/
def expandFrom (ctx : Context) (result : Kind) (bci : Nat) :
    Nat → List Instruction → Cursor → Graph × Option Expansion
  | _, [], c => (c.graph, none)
  | pc, insn :: rest, c =>
    match insn with
    | .ret => (c.graph, some ⟨c.body.toList, none⟩)
    | .retValue =>
      match c.frame.stack with
      | value :: _ =>
        if c.graph.kindOf value = result then (c.graph, some ⟨c.body.toList, some value⟩)
        else (c.graph, none)
      | [] => (c.graph, none)
    | .stack op =>
      match c.step ctx pc bci op with
      | .ok c => expandFrom ctx result bci (pc + 1) rest c
      | .error _ => (c.graph, none)
    | _ => (c.graph, none)

/-- Instantiates a callee over the arguments of a call at `bci`; its other locals start with
zero. -/
def expand (g : Graph) (callee : Method) (args : List NodeId) (bci : Nat) :
    Graph × Option Expansion :=
  match callee.key.signature? with
  | none => (g, none)
  | some signature =>
    let kinds := callee.localKinds signature
    if kinds.length < args.length then (g, none)
    else
      let addZero (c : Cursor) (kind : Kind) : Cursor :=
        let (id, c) := c.append { op := .constant kind.zero, kind, bci }
        { c with frame := { c.frame with locals := c.frame.locals ++ [id] } }
      let c := (kinds.drop args.length).foldl addZero ⟨g, ⟨args, []⟩, #[]⟩
      expandFrom ⟨callee.key.text, kinds⟩ signature.result bci 0 callee.code c

/-- The callee and the arguments of a node that is an inlinable call; a method is not inlined
into itself. -/
def inlinee? (g : Graph) (provider : MethodProvider) (limit : Nat) (id : NodeId) :
    Option (Method × List NodeId) :=
  match (g.node id).op with
  | .callStatic callee args =>
    if callee = g.key then none
    else
      match provider callee with
      | some m => if isInlinable m limit then some (m, args) else none
      | none => none
  | _ => none

/-- The state while one block is inlined into. -/
structure Inlining where
  graph : Graph
  body : Array NodeId
  count : Nat

def inlineNode (provider : MethodProvider) (limit : Nat) (s : Inlining) (id : NodeId) : Inlining :=
  match s.graph.inlinee? provider limit id with
  | none => { s with body := s.body.push id }
  | some (callee, args) =>
    match s.graph.expand callee args (s.graph.node id).bci with
    | (graph, none) => { s with graph, body := s.body.push id }
    | (graph, some e) =>
      let graph := match e.value with
        | some value => graph.redirect id value
        | none => graph
      { graph, body := s.body ++ e.body, count := s.count + 1 }

def inlineBlock (provider : MethodProvider) (limit : Nat) (s : Graph × Nat) (id : BlockId) :
    Graph × Nat :=
  let done := (s.1.block id).body.foldl (inlineNode provider limit) ⟨s.1, #[], s.2⟩
  let b := done.graph.block id
  (done.graph.setBlock id { b with body := done.body.toList }, done.count)

def inlineCalls (provider : MethodProvider) (limit : Nat) (g : Graph) : Graph × Nat :=
  g.reachable.foldl (inlineBlock provider limit) (g, 0)

end StackCompiler.Graph
