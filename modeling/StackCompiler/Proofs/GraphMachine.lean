/-
The meaning of a value graph. A run is inside one block at a time and
evaluates the nodes of its body in order; the values of nodes are kept until
the node is evaluated again. An edge gives the parameters of its target the
values of its arguments, all at once, and an exception takes the edge of the
node that threw it.
-/
import StackCompiler.Graph.Order
import StackCompiler.Proofs.World
import StackCompiler.Proofs.Behaviour

namespace StackCompiler

/-- The service that an operator asks for, with its inputs as arguments. -/
def Operator.service? : Operator → Option Service
  | newArray element _ => some (.newArray element)
  | newInstance cls => some (.newInstance cls)
  | arrayLength _ => some .arrayLength
  | arrayLoad element _ _ => some (.arrayLoad element)
  | arrayStore element _ _ _ => some (.arrayStore element)
  | callStatic callee _ => some (.callStatic callee)
  | callNative callee _ => some (.callNative callee)
  | callIndirect _ signature _ => some (.callIndirect signature)
  | _ => none

theorem Operator.isSome_service? (op : Operator) : op.service?.isSome = op.canThrow := by
  cases op <;> rfl

/-- The value that an operator computes by itself from the values of its inputs. -/
def Operator.value? (op : Operator) (w : World) (k : Kind) (env : Store) : Option Value :=
  match op with
  | .constant v => some v
  | .binary op lhs rhs =>
    match env lhs, env rhs with
    | some a, some b => some (w.binary op k a b)
    | _, _ => none
  | .negate x => (env x).map (·.negateAs k)
  | .convert c x => (env x).map c.apply
  | .parameter index => w.args[index]?
  | _ => none

theorem Operator.value?_congr {op : Operator} {env env'} (w : World) (k : Kind) (h : ∀ n ∈ op.inputs, env n = env' n) :
    op.value? w k env = op.value? w k env' := by
  cases op <;> simp_all [value?, inputs]

namespace Graph

/-- Where a run is: in a block, before the nodes `rest` of its body. -/
structure State where
  block : BlockId
  rest : List NodeId
  env : Store
  /-- The exception that brought control into the block. -/
  caught : Option Value

def State.give (s : State) (n : NodeId) (v : Value) : State := { s with env := s.env.set n (some v) }

/-- The step that gives a node its value; there is none where an input is missing. -/
def State.compute (s : State) (n : NodeId) (v : Option Value) : List Event × Progress State Outcome :=
  match v with
  | some v => ([], .going (s.give n v))
  | none => ([], .ended .wrong)

def follow (g : Graph) (e : Edge) (env : Store) (caught : Option Value) : State :=
  let b := g.block e.target
  ⟨e.target, b.body, env.setAll b.params (e.args.map env), caught⟩

/-- Where an exception leads. -/
def throwTo (g : Graph) (handler : Option Edge) (env : Store) (x : Value) : Progress State Outcome :=
  match handler with
  | some e => .going (g.follow e env (some x))
  | none => .ended (.thrown x)

/-- Evaluates a node; the state has the rest of the body already. -/
def stepNode (g : Graph) (w : World) (past : List Event) (s : State) (n : NodeId) :
    List Event × Progress State Outcome :=
  let node := g.node n
  match node.op with
  | .blockParam .. => ([], .going s)
  | .safepoint => ([.polled node.bci], .going s)
  | .caught =>
    match s.caught with
    | some x => ([], .going (s.give n x))
    | none => ([], .ended .wrong)
  | op =>
    match op.service? with
    | some service =>
      match s.env.read op.inputs with
      | some args =>
        let reply := w.oracle past ⟨service, args⟩
        ([.asked ⟨service, args⟩ reply],
          match reply with
          | .value v => .going (if node.kind = .void then s else s.give n v)
          | .throws x => g.throwTo node.handler s.env x)
      | none => ([], .ended .wrong)
    | none =>
      match op.value? w node.kind s.env with
      | some v => ([], .going (s.give n v))
      | none => ([], .ended .wrong)

def stepCont (g : Graph) (w : World) (s : State) : Continuation → List Event × Progress State Outcome
  | .jump e => ([], .going (g.follow e s.env none))
  | .branch cond lhs rhs taken notTaken =>
    match s.env lhs, s.env rhs with
    | some a, some b =>
      ([], .going (g.follow (if w.compare cond a b then taken else notTaken) s.env none))
    | _, _ => ([], .ended .wrong)
  | .ret none => ([], .ended (.returned none))
  | .ret (some x) =>
    match s.env x with
    | some v => ([], .ended (.returned (some v)))
    | none => ([], .ended .wrong)
  | .raise exception handler =>
    match s.env exception with
    | some x => ([.raised x], g.throwTo handler s.env x)
    | none => ([], .ended .wrong)

def machine (g : Graph) (w : World) : Machine Event State Outcome where
  step past s :=
    match s.rest with
    | n :: rest => g.stepNode w past { s with rest } n
    | [] => g.stepCont w s (g.block s.block).cont

/-- Where a run starts. -/
def start (g : Graph) : State := ⟨entry, (g.block entry).body, .empty, none⟩

section
variable {g : Graph} {w : World} {past : List Event} {s : State} {n : NodeId}

theorem stepNode_computes (hs : (g.node n).op.service? = none) (hpo : (g.node n).op ≠ .safepoint)
    (hc : (g.node n).op ≠ .caught) (hp : ∀ b i, (g.node n).op ≠ .blockParam b i) :
    g.stepNode w past s n = s.compute n ((g.node n).op.value? w (g.node n).kind s.env) := by
  rcases hn : g.node n with ⟨op, kind, bci, handler⟩
  rw [hn] at hs hpo hc hp
  cases op with
  | constant | binary | negate | convert | parameter =>
    simp only [stepNode, hn, Operator.service?, State.compute]
  | blockParam b i => exact absurd rfl (hp b i)
  | safepoint => exact absurd rfl hpo
  | caught => exact absurd rfl hc
  | _ => cases hs

theorem stepNode_service_none {service} (hs : (g.node n).op.service? = some service)
    (ha : s.env.read (g.node n).op.inputs = none) : g.stepNode w past s n = ([], .ended .wrong) := by
  rcases hn : g.node n with ⟨op, kind, bci, handler⟩
  rw [hn] at hs ha
  cases op <;> cases hs <;> simp only [stepNode, hn, Operator.service?, ha]

theorem stepNode_value {v} (h : (g.node n).op.value? w (g.node n).kind s.env = some v) :
    g.stepNode w past s n = ([], .going (s.give n v)) := by
  rcases hn : g.node n with ⟨op, kind, bci, handler⟩
  rw [hn] at h
  cases op with
  | constant | binary | negate | convert | parameter => simp only [stepNode, hn, Operator.service?, h]
  | _ => cases h

theorem stepNode_service {service args} (hs : (g.node n).op.service? = some service)
    (ha : s.env.read (g.node n).op.inputs = some args) :
    g.stepNode w past s n = ([.asked ⟨service, args⟩ (w.oracle past ⟨service, args⟩)],
      match w.oracle past ⟨service, args⟩ with
      | .value v => .going (if (g.node n).kind = .void then s else s.give n v)
      | .throws x => g.throwTo (g.node n).handler s.env x) := by
  rcases hn : g.node n with ⟨op, kind, bci, handler⟩
  rw [hn] at hs ha
  cases op <;> cases hs <;> simp only [stepNode, hn, Operator.service?, ha]

theorem stepNode_safepoint (h : (g.node n).op = .safepoint) :
    g.stepNode w past s n = ([.polled (g.node n).bci], .going s) := by
  simp only [stepNode, h]

theorem stepNode_caught {x} (h : (g.node n).op = .caught) (hc : s.caught = some x) :
    g.stepNode w past s n = ([], .going (s.give n x)) := by
  simp only [stepNode, h, hc]

end

end Graph
end StackCompiler
