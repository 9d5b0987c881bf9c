/-
From bytecode to the value graph. The operand stack is followed with nodes in
place of values. Where a block ends, every local and stack entry becomes an
argument of the edge, so each block starts from its own parameters.

Blocks start at branch targets, behind branches and at the bounds and entries of
handlers. They are built in the order in which an edge first reaches them, the
handlers before all others.
-/
import StackCompiler.Bytecode.Error
import StackCompiler.Graph.Basic

namespace StackCompiler.Graph

/-- The nodes in locals and on the operand stack, its top first. -/
structure Frame where
  locals : List NodeId
  stack : List NodeId
deriving DecidableEq, Repr, Inhabited

/-- What an edge passes: the locals, then the stack from its bottom. -/
def Frame.values (f : Frame) : List NodeId := f.locals ++ f.stack.reverse

/-- What errors need to know of the method. -/
structure Context where
  method : String
  localKinds : List Kind

/-- The state while one block is read. -/
structure Cursor where
  graph : Graph
  frame : Frame
  body : Array NodeId

namespace Cursor

/-- Adds a node to the graph and to the body. -/
def append (c : Cursor) (n : Node) : NodeId × Cursor :=
  let (id, graph) := c.graph.addNode n
  (id, { c with graph, body := c.body.push id })

def push (c : Cursor) (id : NodeId) : Cursor :=
  { c with frame := { c.frame with stack := id :: c.frame.stack } }

def pushNew (c : Cursor) (op : Operator) (kind : Kind) (bci : Nat) : Cursor :=
  let (id, c) := c.append { op, kind, bci }
  c.push id

def popAny (c : Cursor) (ctx : Context) (pc : Nat) : Except BytecodeError (NodeId × Cursor) :=
  match c.frame.stack with
  | [] => .error (.stackUnderflow ctx.method pc)
  | id :: stack => .ok (id, { c with frame := { c.frame with stack } })

def pop (c : Cursor) (ctx : Context) (pc : Nat) (expected : Kind) :
    Except BytecodeError (NodeId × Cursor) := do
  let (id, c) ← c.popAny ctx pc
  let found := c.graph.kindOf id
  if found = expected then .ok (id, c) else .error (.kindMismatch ctx.method pc expected found)

/-- Pops values whose kinds are given last first; the result has the first one in front. -/
def popReversed (ctx : Context) (pc : Nat) :
    List Kind → Cursor → List NodeId → Except BytecodeError (List NodeId × Cursor)
  | [], c, found => .ok (found, c)
  | kind :: kinds, c, found => do
    let (id, c) ← c.pop ctx pc kind
    popReversed ctx pc kinds c (id :: found)

/-- Pops the arguments of a call; the last argument is on top. -/
def popArgs (c : Cursor) (ctx : Context) (pc : Nat) (kinds : List Kind) :
    Except BytecodeError (List NodeId × Cursor) :=
  popReversed ctx pc kinds.reverse c []

def binary (c : Cursor) (ctx : Context) (pc bci : Nat) (op : BinaryOp) (kind : Kind) :
    Except BytecodeError Cursor := do
  let (rhs, c) ← c.pop ctx pc kind
  let (lhs, c) ← c.pop ctx pc kind
  .ok (c.pushNew (.binary op lhs rhs) kind bci)

def negate (c : Cursor) (ctx : Context) (pc bci : Nat) (kind : Kind) :
    Except BytecodeError Cursor := do
  let (x, c) ← c.pop ctx pc kind
  .ok (c.pushNew (.negate x) kind bci)

/-- The effect of an instruction on stack and locals; new nodes get the position `bci`. -/
def step (c : Cursor) (ctx : Context) (pc bci : Nat) : StackOp → Except BytecodeError Cursor
  | .constInt v => .ok (c.pushNew (.constant (.int v)) .int bci)
  | .constLong v => .ok (c.pushNew (.constant (.long v)) .long bci)
  | .constDouble v => .ok (c.pushNew (.constant (.double v)) .double bci)
  | .constNull => .ok (c.pushNew (.constant .null) .reference bci)
  | .constObject r => .ok (c.pushNew (.constant (.reference r)) .reference bci)
  | .load index =>
    match c.frame.locals[index]? with
    | some id => .ok (c.push id)
    | none => .error (.badLocal ctx.method pc index)
  | .store index =>
    match ctx.localKinds[index]? with
    | none => .error (.badLocal ctx.method pc index)
    | some kind => do
      let (id, c) ← c.pop ctx pc kind
      .ok { c with frame := { c.frame with locals := c.frame.locals.set index id } }
  | .pop => do
    let (_, c) ← c.popAny ctx pc
    .ok c
  | .dup => do
    let (id, _) ← c.popAny ctx pc
    .ok (c.push id)
  | .intOp op => c.binary ctx pc bci op .int
  | .longOp op => c.binary ctx pc bci op .long
  | .doubleOp op => c.binary ctx pc bci op.binary .double
  | .negInt => c.negate ctx pc bci .int
  | .negLong => c.negate ctx pc bci .long
  | .convert conversion => do
    let (x, c) ← c.pop ctx pc conversion.source
    .ok (c.pushNew (.convert conversion x) conversion.result bci)

end Cursor

/-! ## Where blocks start -/

/-- Where blocks start. -/
structure Outline where
  blockAt : Array (Option BlockId)
  /-- The positions of starts, in order; the first one starts block 1. -/
  leaders : List Nat
deriving Repr

namespace Outline

/-- The block that starts at an instruction. -/
def block? (o : Outline) (pc : Nat) : Option BlockId := (o.blockAt[pc]?).join

def isLeader (o : Outline) (pc : Nat) : Bool := (o.block? pc).isSome

def badTarget? (size : Nat) : Nat → List Instruction → Option (Nat × Nat)
  | _, [] => none
  | pc, insn :: rest =>
    match insn.target? with
    | some target => if target ≥ size then some (pc, target) else badTarget? size (pc + 1) rest
    | none => badTarget? size (pc + 1) rest

def badHandler? (size : Nat) (handlers : List Handler) : Option Nat :=
  handlers.findIdx? fun h => h.start ≥ h.stop || h.stop > size || h.entry ≥ size

/-- The positions that the instructions from `pc` on make starts of blocks. -/
def marksOf : Nat → List Instruction → List Nat
  | _, [] => []
  | pc, insn :: rest =>
    match insn.target? with
    | some target => target :: (pc + 1) :: marksOf (pc + 1) rest
    | none => if insn.endsFlow then (pc + 1) :: marksOf (pc + 1) rest else marksOf (pc + 1) rest

/-- All positions that start blocks, in no order; they may lie behind the end. -/
def marks (m : Method) : List Nat :=
  0 :: (marksOf 0 m.code ++ m.handlers.flatMap fun h => [h.start, h.stop, h.entry])

def number (blockAt : Array (Option BlockId)) : BlockId → List Nat → Array (Option BlockId)
  | _, [] => blockAt
  | id, pc :: rest => number (blockAt.setIfInBounds pc (some id)) (id + 1) rest

def of (m : Method) : Outline :=
  let size := m.code.length
  let marked := (marks m).foldl (·.setIfInBounds · true) (Array.replicate size false)
  let leaders := (List.range size).filter fun pc => marked.getD pc false
  ⟨number (Array.replicate size none) 1 leaders, leaders⟩

def check (name : String) (m : Method) : Except BytecodeError Unit :=
  let size := m.code.length
  if size = 0 then .error (.fallsOffEnd name)
  else
    match badTarget? size 0 m.code with
    | some (pc, target) => .error (.badBranchTarget name pc target)
    | none =>
      match badHandler? size m.handlers with
      | some index => .error (.badHandler name index)
      | none => .ok ()

end Outline

/-! ## Inside a block -/

/-- How a block leaves, before its edges are made. -/
inductive Exit where
  | jump (target : Nat)
  | branch (cond : Comparison) (lhs rhs : NodeId) (target next : Nat)
  | ret (value : Option NodeId)
  | raise (exception : NodeId) (handler : Option Edge)
deriving DecidableEq, Repr

/-- What is fixed while a method is read. -/
structure Plan where
  method : Method
  context : Context
  outline : Outline

namespace Plan

/-- Where an exception at `pc` goes: to its handler, with the locals. -/
def handlerEdge (p : Plan) (pc : Nat) (frame : Frame) : Option Edge :=
  match p.method.handlerFor? pc with
  | none => none
  | some h => (p.outline.block? h.entry).map fun target => ⟨target, frame.locals⟩

/-- Adds a node that may throw, and pushes its value if it has one. -/
def call (p : Plan) (c : Cursor) (op : Operator) (kind : Kind) (pc : Nat) : Cursor :=
  let (id, c) := c.append { op, kind, bci := pc, handler := p.handlerEdge pc c.frame }
  if kind = .void then c else c.push id

/-- A backward branch polls first. -/
def poll (c : Cursor) (pc target : Nat) : Cursor :=
  if target ≤ pc then (c.append { op := .safepoint, kind := .void, bci := pc }).2 else c

/-- Ends a block with a conditional branch, which needs an instruction behind it. -/
def branch (p : Plan) (c : Cursor) (cond : Comparison) (lhs rhs : NodeId) (pc target : Nat) :
    Except BytecodeError (Cursor × Option Exit) :=
  if pc + 1 ≥ p.method.code.length then .error (.fallsOffEnd p.context.method)
  else .ok (poll c pc target, some (.branch cond lhs rhs target (pc + 1)))

def branchConst (p : Plan) (c : Cursor) (cond : Comparison) (v : Value) (pc target : Nat) :
    Except BytecodeError (Cursor × Option Exit) := do
  let (lhs, c) ← c.pop p.context pc v.kind
  let (rhs, c) := c.append { op := .constant v, kind := v.kind, bci := pc }
  p.branch c cond lhs rhs pc target

/-- Reads the signature of a callee and checks the number of its parameters. -/
def calleeSignature (name descriptor : String) : Except BytecodeError Signature := do
  let s ← Signature.parse descriptor
  if s.params.length > maxArguments then .error (.tooManyArguments name s.params.length) else .ok s

/-- The effect of an instruction, and how the block leaves if the instruction ends it. -/
def step (p : Plan) (c : Cursor) (pc : Nat) (insn : Instruction) :
    Except BytecodeError (Cursor × Option Exit) :=
  let ctx := p.context
  match insn with
  | .stack op => do
    let c ← c.step ctx pc pc op
    .ok (c, none)
  | .newArray element => do
    let (length, c) ← c.pop ctx pc .int
    .ok (p.call c (.newArray element length) .reference pc, none)
  | .newInstance cls => .ok (p.call c (.newInstance cls) .reference pc, none)
  | .arrayLength => do
    let (array, c) ← c.pop ctx pc .reference
    .ok (p.call c (.arrayLength array) .int pc, none)
  | .arrayLoad element => do
    let (index, c) ← c.pop ctx pc .int
    let (array, c) ← c.pop ctx pc .reference
    .ok (p.call c (.arrayLoad element array index) element pc, none)
  | .arrayStore element => do
    let (value, c) ← c.pop ctx pc element
    let (index, c) ← c.pop ctx pc .int
    let (array, c) ← c.pop ctx pc .reference
    .ok (p.call c (.arrayStore element array index value) .void pc, none)
  | .invokeStatic callee => do
    let s ← calleeSignature callee.text callee.descriptor
    let (args, c) ← c.popArgs ctx pc s.params
    .ok (p.call c (.callStatic callee args) s.result pc, none)
  | .invokeNative callee => do
    let s ← calleeSignature callee.text callee.descriptor
    let (args, c) ← c.popArgs ctx pc s.params
    .ok (p.call c (.callNative callee args) s.result pc, none)
  | .invokeIndirect descriptor => do
    let s ← calleeSignature (ctx.method ++ "@" ++ toString pc) descriptor
    let (target, c) ← c.pop ctx pc .word
    let (args, c) ← c.popArgs ctx pc s.params
    .ok (p.call c (.callIndirect target s args) s.result pc, none)
  | .safepoint => .ok ((c.append { op := .safepoint, kind := .void, bci := pc }).2, none)
  | .raise => do
    let (exception, c) ← c.pop ctx pc .reference
    .ok (c, some (.raise exception (p.handlerEdge pc c.frame)))
  | .ret =>
    match c.graph.signature.result with
    | .void => .ok (c, some (.ret none))
    | result => .error (.kindMismatch ctx.method pc result .void)
  | .retValue => do
    let (value, c) ← c.pop ctx pc c.graph.signature.result
    .ok (c, some (.ret (some value)))
  | .goto target => .ok (poll c pc target, some (.jump target))
  | .ifZero cond target => p.branchConst c cond (.int 0) pc target
  | .ifNull target => p.branchConst c .eq .null pc target
  | .ifNonNull target => p.branchConst c .ne .null pc target
  | .ifCompare cond target => do
    let (rhs, c) ← c.popAny ctx pc
    let (lhs, c) ← c.pop ctx pc (c.graph.kindOf rhs)
    p.branch c cond lhs rhs pc target

/-- Translates instructions from `pc` until the block ends: at an instruction that ends it, or
before the start of another block. -/
def run (p : Plan) (start : Nat) : Nat → List Instruction → Cursor →
    Except BytecodeError (Cursor × Exit)
  | _, [], _ => .error (.fallsOffEnd p.context.method)
  | pc, insn :: rest, c =>
    if pc ≠ start ∧ p.outline.isLeader pc then .ok (c, .jump pc)
    else
      match p.step c pc insn with
      | .error e => .error e
      | .ok (c, some exit) => .ok (c, exit)
      | .ok (c, none) => run p start (pc + 1) rest c

end Plan

/-! ## The whole method -/

/-- A graph with blocks still to be filled. -/
structure Draft where
  graph : Graph
  started : Array Bool
  /-- Positions of started blocks that wait to be filled, in order. -/
  pending : List Nat

namespace Draft

def start (d : Draft) (block : BlockId) (pc : Nat) (kinds : List Kind) : Draft :=
  { graph := kinds.foldl (·.addParam block ·) d.graph
    started := d.started.setIfInBounds block true
    pending := d.pending ++ [pc] }

/-- The edge from `frame` at `pc` to the block at `target`. The first edge decides the kinds of
the parameters, later ones must agree; no such edge enters a handler. -/
def edgeTo (d : Draft) (p : Plan) (target : Nat) (frame : Frame) (pc : Nat) :
    Except BytecodeError (Edge × Draft) :=
  match p.outline.block? target with
  | none => .error (.badBranchTarget p.context.method pc target)
  | some block =>
    let kinds := frame.values.map d.graph.kindOf
    let b := d.graph.block block
    let edge : Edge := ⟨block, frame.values⟩
    if b.isHandler then .error (.stackMismatch p.context.method target)
    else if d.started.getD block false then
      if b.params.map d.graph.kindOf = kinds then .ok (edge, d)
      else .error (.stackMismatch p.context.method target)
    else .ok (edge, d.start block target kinds)

def close (d : Draft) (p : Plan) (frame : Frame) (pc : Nat) :
    Exit → Except BytecodeError (Continuation × Draft)
  | .jump target => do
    let (edge, d) ← d.edgeTo p target frame pc
    .ok (.jump edge, d)
  | .branch cond lhs rhs target next => do
    let (taken, d) ← d.edgeTo p target frame pc
    let (notTaken, d) ← d.edgeTo p next frame pc
    .ok (.branch cond lhs rhs taken notTaken, d)
  | .ret value => .ok (.ret value, d)
  | .raise exception handler => .ok (.raise exception handler, d)

def finish (d : Draft) (block : BlockId) (body : List NodeId) (cont : Continuation) : Draft :=
  let b := d.graph.block block
  { d with graph := d.graph.setBlock block { b with body, cont } }

/-- Where the reading of a block starts: with its parameters as locals and stack, and in a
handler with the exception on the stack. -/
def cursor (d : Draft) (p : Plan) (block : BlockId) (start : Nat) : Cursor :=
  let b := d.graph.block block
  let count := p.context.localKinds.length
  let c : Cursor := ⟨d.graph, ⟨b.params.take count, (b.params.drop count).reverse⟩, #[]⟩
  if b.isHandler then c.pushNew .caught .reference start else c

/-- Reads one open block. -/
def fill (d : Draft) (p : Plan) (start : Nat) : Except BytecodeError Draft := do
  let block := (p.outline.block? start).getD 0
  let (c, exit) ← p.run start start (p.method.code.drop start) (d.cursor p block start)
  let (cont, d) ← { d with graph := c.graph }.close p c.frame start exit
  .ok (d.finish block c.body.toList cont)

/-- Fills what waits. A block waits once, so as much fuel as there are blocks suffices. -/
def drain (p : Plan) : Nat → Draft → Except BytecodeError Draft
  | 0, d => .ok d
  | fuel + 1, d =>
    match d.pending with
    | [] => .ok d
    | pc :: pending => do
      let d ← { d with pending }.fill p pc
      drain p fuel d

/-- The entry block: parameters and zeroes for all locals, then a jump to the first
instruction. -/
def enter (d : Draft) (p : Plan) : Except BytecodeError Draft := do
  let params := d.graph.signature.params.length
  let addLocal (c : Cursor) (item : Kind × Nat) : Cursor :=
    let op := if item.2 < params then Operator.parameter item.2 else .constant item.1.zero
    let (id, c) := c.append { op, kind := item.1, bci := 0 }
    { c with frame := { c.frame with locals := c.frame.locals ++ [id] } }
  let c := p.context.localKinds.zipIdx.foldl addLocal ⟨d.graph, ⟨[], []⟩, #[]⟩
  let (edge, d) ← { d with graph := c.graph }.edgeTo p 0 c.frame 0
  .ok (d.finish entry c.body.toList (.jump edge))

/-- A draft with all blocks, in which the handlers at the given positions wait. -/
def begin (p : Plan) (signature : Signature) (entries : List Nat) : Draft :=
  let add (g : Graph) (pc : Nat) : Graph :=
    (g.addBlock { bci := pc, isHandler := entries.contains pc }).2
  let graph := p.outline.leaders.foldl add (Graph.empty p.method.key signature)
  let openHandler (d : Draft) (pc : Nat) : Draft :=
    d.start ((p.outline.block? pc).getD 0) pc p.context.localKinds
  entries.foldl openHandler ⟨graph, Array.replicate graph.blocks.size false, []⟩

end Draft

/-- The graph of a method whose handlers are opened in the given order of their positions. -/
def buildFrom (entries : List Nat) (m : Method) : Except BytecodeError Graph := do
  let signature ← m.key.signature
  let name := m.key.text
  if signature.params.length > maxArguments then
    .error (.tooManyArguments name signature.params.length)
  else
    Outline.check name m
    let p : Plan := ⟨m, ⟨name, m.localKinds signature⟩, Outline.of m⟩
    let d ← (Draft.begin p signature entries).enter p
    let d ← Draft.drain p p.outline.leaders.length d
    .ok d.graph

/-- The positions where handlers start, in the order of the table. -/
def handlerEntries (m : Method) : List Nat := (m.handlers.map (·.entry)).eraseDups

/-- An order in which the handlers of a method are opened. -/
structure HandlerOrder (m : Method) where
  entries : List Nat
  perm : entries.Perm (handlerEntries m)

def HandlerOrder.table (m : Method) : HandlerOrder m := ⟨handlerEntries m, .refl _⟩

/-- The graph of a method, by default with its handlers in the order of the table. -/
def build (m : Method) (order : HandlerOrder m := .table m) : Except BytecodeError Graph :=
  buildFrom order.entries m

end StackCompiler.Graph
