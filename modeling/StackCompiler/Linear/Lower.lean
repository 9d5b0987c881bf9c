/-
From the value graph to linear code. Each node gets a variable when it is
first mentioned. The parameters of a block are variables that every edge into
the block assigns; the moves of one edge act as if done at once. Allocation,
array access and throwing become calls of support routines. A new block
starts wherever the handler of calls changes, so every block has at most one.
-/
import StackCompiler.Graph.Order
import StackCompiler.Linear.Basic
import StackCompiler.Linear.Support

namespace StackCompiler.Linear

open Support

/-! ## Moves that act at once -/

/-- What is to be assigned: pairs of target and source, without those that change nothing. -/
def assignments (dsts srcs : List Var) : List (Var × Var) :=
  (dsts.zip srcs).filter fun (dst, src) => dst ≠ src

/-- Whether a source is also a target, so that the order of moves would matter. -/
def interferes (pairs : List (Var × Var)) : Bool :=
  pairs.any fun (_, src) => (pairs.map (·.1)).contains src

def directMoves (pairs : List (Var × Var)) : List Insn :=
  pairs.map fun (dst, src) => .move dst src

/-- Moves through temporary variables from `fresh` on: all sources are read before a target is written. -/
def stagedMoves (fresh : Var) (pairs : List (Var × Var)) : List Insn :=
  (pairs.zipIdx fresh).map (fun (pair, temp) => .move temp pair.2)
    ++ (pairs.zipIdx fresh).map (fun (pair, temp) => .move pair.1 temp)

def moves (fresh : Var) (pairs : List (Var × Var)) : List Insn :=
  if interferes pairs then stagedMoves fresh pairs else directMoves pairs

/-! ## The state of lowering -/

/-- The state of lowering. -/
structure Lowering where
  vars : Array Kind
  /-- The variable of each node that has been mentioned. -/
  varOf : Array (Option Var)
  literals : Array Literal
  blocks : Array Block
  current : Nat
  code : Array Insn
  handler : Option Nat

/-- Steps that change the state of lowering. -/
abbrev Lower := StateM Lowering

/-- The graph, and the linear block where each of its blocks starts. -/
structure Source where
  graph : Graph
  startOf : Array Nat

def Source.start (s : Source) (b : BlockId) : Nat := s.startOf.getD b 0

namespace Lower

def newVar (kind : Kind) : Lower Var := fun s => (s.vars.size, { s with vars := s.vars.push kind })

def var (src : Source) (id : NodeId) : Lower Var := fun s =>
  match (s.varOf[id]?).join with
  | some v => (v, s)
  | none =>
    let v := s.vars.size
    (v, { s with
          vars := s.vars.push (src.graph.kindOf id)
          varOf := s.varOf.setIfInBounds id (some v) })

def varsOf (src : Source) (ids : List NodeId) : Lower (List Var) := ids.mapM (var src)

def literal (v : Value) : Lower LiteralId := fun s =>
  let (id, literals) := Method.intern s.literals v
  (id, { s with literals })

def newBlock (b : Block) : Lower Nat := fun s =>
  (s.blocks.size, { s with blocks := s.blocks.push b })

def emit (insns : List Insn) : Lower Unit := modify fun s => { s with code := s.code ++ insns }

def close (term : Terminator) : Lower Unit :=
  modify fun s =>
    let b := s.blocks.getD s.current default
    { s with
      blocks :=
        s.blocks.setIfInBounds s.current
          { b with insns := s.code.toList, term, handler := s.handler } }

def enter (block : Nat) (handler : Option Nat) : Lower Unit :=
  modify fun s => { s with current := block, code := #[], handler }

/-- Goes on in the current block if it has this handler or no call yet, else in a new one. -/
def underHandler (handler : Option Nat) : Lower Unit := do
  let s ← get
  if s.handler = handler then pure ()
  else if s.code.any (·.isCall) then
    let next ← newBlock {}
    close (.jump next)
    enter next handler
  else
    modify fun s => { s with handler }

/-- Adds a variable of the same kind for each of the given ones. -/
def addTemps (vs : List Var) : Lower Unit :=
  modify fun s => { s with vars := s.vars ++ vs.map fun v => s.vars.getD v default }

def edgeMoves (src : Source) (e : Edge) : Lower (List Insn) := do
  let dsts ← varsOf src (src.graph.block e.target).params
  let srcs ← varsOf src e.args
  let pairs := assignments dsts srcs
  let s ← get
  if interferes pairs then addTemps (pairs.map (·.2))
  pure (moves s.vars.size pairs)

/-- Where a branch goes along an edge: through a block with the moves if there are any. -/
def edgeTarget (src : Source) (e : Edge) : Lower Nat := do
  let target := src.start e.target
  match ← edgeMoves src e with
  | [] => pure target
  | insns => newBlock { insns, term := .jump target }

/-- An instruction that gives a variable a constant. References other than null are literals. -/
def constant (dst : Var) (v : Value) : Lower Insn := do
  let movable := v.kind ≠ .reference ∨ v = .null
  if movable ∧ fitsMove v.signedBits then pure (.const dst v)
  else
    let id ← literal v
    pure (.literal dst id)

def call (src : Source) (id : NodeId) (target : CallTarget) (args : List Var) : Lower Insn := do
  let n := src.graph.node id
  let result ← if n.kind = .void then pure none else some <$> var src id
  pure (.call target args result false n.bci)

def callRoutine (src : Source) (id : NodeId) (routine : MethodKey) (args : List NodeId) :
    Lower (List Insn) := do
  let args ← varsOf src args
  let insn ← call src id (.direct routine) args
  pure [insn]

def node (src : Source) (id : NodeId) : Lower (List Insn) := do
  let n := src.graph.node id
  match n.op with
  | .constant v =>
    let dst ← var src id
    let insn ← constant dst v
    pure [insn]
  | .binary op lhs rhs =>
    let dst ← var src id
    let lhs ← var src lhs
    let rhs ← var src rhs
    pure [.arith op n.kind dst lhs rhs]
  | .negate x =>
    let dst ← var src id
    let x ← var src x
    pure [.negate n.kind dst x]
  | .convert c x =>
    let dst ← var src id
    let x ← var src x
    pure [.convert c dst x]
  | .parameter index =>
    let dst ← var src id
    pure [.parameter dst index]
  | .blockParam .. => pure []
  | .safepoint => pure [.safepoint n.bci]
  | .caught =>
    let dst ← var src id
    pure [.caught dst]
  | .newArray element length =>
    let tag ← newVar .int
    let length ← var src length
    let insn ← call src id (.direct newArray) [tag, length]
    pure [.const tag (.int element.tag), insn]
  | .newInstance cls =>
    let hub ← newVar .reference
    let load ← constant hub (.reference cls)
    let insn ← call src id (.direct newInstance) [hub]
    pure [load, insn]
  | .arrayLength array => callRoutine src id arrayLength [array]
  | .arrayLoad element array index =>
    callRoutine src id (arrayLoad element) [array, index]
  | .arrayStore element array index value =>
    callRoutine src id (arrayStore element) [array, index, value]
  | .callStatic callee args => callRoutine src id callee args
  | .callNative callee args =>
    let args ← varsOf src args
    let insn ← call src id (.native callee) args
    pure [insn]
  | .callIndirect target _ args =>
    let args ← varsOf src args
    let address ← var src target
    let insn ← call src id (.indirect address) args
    pure [insn]

/-- Goes on under the handler of an edge, if there is one, and passes the edge's arguments. -/
def protect (src : Source) (handler : Option Edge) : Lower Unit := do
  underHandler (handler.map fun e => src.start e.target)
  match handler with
  | some e =>
    let insns ← edgeMoves src e
    emit insns
  | none => pure ()

def bodyNode (src : Source) (id : NodeId) : Lower Unit := do
  let n := src.graph.node id
  if n.op.canThrow then protect src n.handler
  let insns ← node src id
  emit insns

def cont (src : Source) : Continuation → Lower Terminator
  | .jump e => do
    let insns ← edgeMoves src e
    emit insns
    pure (.jump (src.start e.target))
  | .branch cond lhs rhs taken notTaken => do
    let kind := src.graph.kindOf lhs
    let lhs ← var src lhs
    let rhs ← var src rhs
    let taken ← edgeTarget src taken
    let notTaken ← edgeTarget src notTaken
    pure (.branch cond kind lhs rhs taken notTaken)
  | .ret none => pure (.ret none)
  | .ret (some id) => do
    let v ← var src id
    pure (.ret (some v))
  | .raise exception handler => do
    protect src handler
    let bci := (src.graph.node exception).bci
    let v ← var src exception
    emit [.call (.direct throwException) [v] none true bci]
    pure .unreachable

def block (src : Source) (id : BlockId) : Lower Unit := do
  let b := src.graph.block id
  enter (src.start id) none
  b.body.forM (bodyNode src)
  let term ← cont src b.cont
  close term

end Lower

def starts (g : Graph) (order : List BlockId) : Array Nat :=
  order.zipIdx.foldl (fun table (id, start) => table.setIfInBounds id start)
    (Array.replicate g.blocks.size 0)

/-- Linear code for a graph. -/
def lower (g : Graph) : Method :=
  let order := g.reachable
  let src : Source := ⟨g, starts g order⟩
  let reserved : List Block := order.map fun id => { isCatch := (g.block id).isHandler }
  let start : Lowering :=
    { vars := #[]
      varOf := Array.replicate g.nodes.size none
      literals := #[]
      blocks := reserved.toArray
      current := 0
      code := #[]
      handler := none }
  let (_, s) := (order.forM (Lower.block src)).run start
  { key := g.key, vars := s.vars, blocks := s.blocks, literals := s.literals }

end StackCompiler.Linear
