/-
The meaning of linear code. Variables are cells that hold a value or nothing, and
a move copies whatever there is. All that happens outside is a call, answered as
the routine that it names. A call that does not return throws its argument.
-/
import StackCompiler.Proofs.Behaviour
import StackCompiler.Proofs.Layout

namespace StackCompiler

def Literal.value : Literal → Value
  | scalar v => v
  | reference r => .reference r

@[simp] theorem Literal.value_ofValue (v : Value) : (Literal.ofValue v).value = v := by
  cases v <;> rfl

namespace Linear

/-- Whom a call calls, with the address that a variable held. -/
inductive Callee where
  | direct (callee : MethodKey)
  | native (callee : MethodKey)
  | indirect (address : Value)
deriving DecidableEq, Repr

/-- A call with the values of its arguments. -/
structure Call where
  callee : Callee
  args : List Value
deriving DecidableEq, Repr

/-- What an observer sees of a run. -/
inductive Event where
  | called (call : Call) (reply : Reply)
  | polled (bci : Nat)
deriving DecidableEq, Repr

/-- What surrounds a run of linear code. -/
structure World where
  /-- Arguments, arithmetic and order. -/
  values : StackCompiler.World
  /-- The answer to a call, from everything that happened before. -/
  oracle : List Event → Call → Reply

/-- How a call is answered. -/
def World.reply (w : World) (past : List Event) (noreturn : Bool) (call : Call) : Reply :=
  match noreturn, call.args with
  | true, [x] => .throws x
  | _, _ => w.oracle past call

/-- Where a run is: in a block, before the instructions `rest`. -/
structure State where
  block : Nat
  rest : List Insn
  env : Store
  /-- The exception that brought control into the block. -/
  caught : Option Value

namespace State

def give (s : State) (x : Var) (v : Value) : State := { s with env := s.env.set x (some v) }

/-- The same for the variable of a result, if there is one. -/
def giveTo (s : State) (result : Option Var) (v : Value) : State :=
  match result with
  | some x => s.give x v
  | none => s

/-- Whom a call calls in a state. -/
def callee? (s : State) : CallTarget → Option Callee
  | .direct callee => some (.direct callee)
  | .native callee => some (.native callee)
  | .indirect address => (s.env address).map .indirect

/-- A call with the values of its variables. -/
def call? (s : State) (target : CallTarget) (args : List Var) : Option Call :=
  match s.callee? target, s.env.read args with
  | some callee, some args => some ⟨callee, args⟩
  | _, _ => none

end State

namespace Method

def block (m : Method) (i : Nat) : Block := m.blocks.getD i default

theorem block_eq {m : Method} {i b} (h : m.blocks[i]? = some b) : m.block i = b := by
  rw [block, Array.getD_eq_getD_getElem?, h, Option.getD_some]

def enter (m : Method) (i : Nat) (env : Store) (caught : Option Value) : State :=
  ⟨i, (m.block i).insns, env, caught⟩

/-- Where an exception leads. -/
def throwTo (m : Method) (handler : Option Nat) (env : Store) (x : Value) : Progress State Outcome :=
  match handler with
  | some i => .going (m.enter i env (some x))
  | none => .ended (.thrown x)

/-- The state after a value has been computed, which needs what it reads. -/
def assign (s : State) (dst : Var) (v : Option Value) : List Event × Progress State Outcome :=
  match v with
  | some v => ([], .going (s.give dst v))
  | none => ([], .ended .wrong)

/-- Runs one instruction; the state has the rest of the block already. -/
def stepInsn (m : Method) (w : World) (past : List Event) (s : State) :
    Insn → List Event × Progress State Outcome
  | .move dst src => ([], .going { s with env := s.env.set dst (s.env src) })
  | .const dst v => assign s dst (some v)
  | .literal dst id => assign s dst ((m.literals[id]?).map (·.value))
  | .parameter dst index => assign s dst w.values.args[index]?
  | .arith op kind dst lhs rhs =>
    assign s dst (match s.env lhs, s.env rhs with
      | some a, some b => some (w.values.binary op kind a b)
      | _, _ => none)
  | .negate kind dst src => assign s dst ((s.env src).map (·.negateAs kind))
  | .convert c dst src => assign s dst ((s.env src).map c.apply)
  | .call target args result noreturn _ =>
    match s.call? target args with
    | some call =>
      let reply := w.reply past noreturn call
      ([.called call reply],
        match reply with
        | .value v =>
          if noreturn then .ended .wrong
          else .going (s.giveTo result v)
        | .throws x => m.throwTo (m.block s.block).handler s.env x)
    | none => ([], .ended .wrong)
  | .safepoint bci => ([.polled bci], .going s)
  | .caught dst => assign s dst s.caught

def stepTerm (m : Method) (w : World) (s : State) : Terminator → List Event × Progress State Outcome
  | .jump target => ([], .going (m.enter target s.env none))
  | .branch cond _ lhs rhs taken notTaken =>
    match s.env lhs, s.env rhs with
    | some a, some b =>
      ([], .going (m.enter (if w.values.compare cond a b then taken else notTaken) s.env none))
    | _, _ => ([], .ended .wrong)
  | .ret none => ([], .ended (.returned none))
  | .ret (some x) =>
    match s.env x with
    | some v => ([], .ended (.returned (some v)))
    | none => ([], .ended .wrong)
  | .unreachable => ([], .ended .wrong)

def machine (m : Method) (w : World) : Machine Event State Outcome where
  step past s :=
    match s.rest with
    | insn :: rest => m.stepInsn w past { s with rest } insn
    | [] => m.stepTerm w s (m.block s.block).term

/-- Where a run starts. -/
def start (m : Method) : State := m.enter 0 .empty none

/-- A call in a block without a handler. -/
theorem stepInsn_call_of_none {m : Method} {s} {target args call} (hc : s.call? target args = some call)
    (hh : (m.block s.block).handler = none) (w : World) (past : List Event) (result : Option Var) (bci : Nat) :
    m.stepInsn w past s (.call target args result false bci) = ([.called call (w.oracle past call)],
      match w.oracle past call with
      | .value v => .going (s.giveTo result v)
      | .throws x => .ended (.thrown x)) := by
  simp only [stepInsn, hc, hh]
  rfl

theorem run_moves (m : Method) (w : World) {b caught rest} (past : List Event) :
    ∀ (insns : List Insn) (env : Store), (∀ insn ∈ insns, ∃ dst src, insn = .move dst src) →
      (m.machine w).run insns.length past ⟨b, insns ++ rest, env, caught⟩ =
        (past, .going ⟨b, rest, afterMoves env insns, caught⟩)
  | [], _, _ => rfl
  | insn :: insns, env, h => by
    obtain ⟨dst, src, rfl⟩ := h insn List.mem_cons_self
    have hs : (m.machine w).step past ⟨b, .move dst src :: insns ++ rest, env, caught⟩ =
      ([], .going ⟨b, insns ++ rest, env.set dst (env src), caught⟩) := rfl
    rw [List.length_cons, Machine.run_step_going hs, List.append_nil]
    exact run_moves m w past insns _ fun x hx => h x (List.mem_cons_of_mem _ hx)

theorem silent_moves (m : Method) (w : World) {b caught rest insns} (env : Store)
    (h : ∀ insn ∈ insns, ∃ dst src, insn = .move dst src) :
    (m.machine w).Silent ⟨b, insns ++ rest, env, caught⟩ ⟨b, rest, afterMoves env insns, caught⟩ :=
  ⟨_, fun past => run_moves m w past insns env h⟩

theorem step_constant {m : Method} {S} (hl : m.literals = S.literals) {dst v insn}
    (h : ConstantCode S dst v insn) (w : World) (past : List Event) (s : State) :
    m.stepInsn w past s insn = ([], .going (s.give dst v)) := by
  cases h with
  | const => rfl
  | literal h => simp only [stepInsn, hl, h, Option.map_some, Literal.value_ofValue, assign]

end Method
end Linear
end StackCompiler
