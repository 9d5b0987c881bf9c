/-
The meaning of bytecode. Parameters come first among the locals, the declared
ones start with zero. An exception goes to the first table entry that covers the
instruction: the locals are kept, and the exception is all that the stack holds.
A branch that does not lead forward polls.
-/
import StackCompiler.Proofs.World
import StackCompiler.Proofs.Behaviour

namespace StackCompiler

/-- Where a run of bytecode is. -/
structure StackState where
  pc : Nat
  locals : List Value
  /-- The top comes first. -/
  stack : List Value
deriving DecidableEq, Repr

/-- The effect of an instruction on locals and operand stack. -/
def StackOp.apply (w : World) (locals stack : List Value) : StackOp → Option (List Value × List Value)
  | constInt v => some (locals, .int v :: stack)
  | constLong v => some (locals, .long v :: stack)
  | constDouble v => some (locals, .double v :: stack)
  | constNull => some (locals, .null :: stack)
  | constObject r => some (locals, .reference r :: stack)
  | load index =>
    match locals[index]? with
    | some v => some (locals, v :: stack)
    | none => none
  | store index =>
    match stack with
    | v :: stack => if index < locals.length then some (locals.set index v, stack) else none
    | [] => none
  | pop =>
    match stack with
    | _ :: stack => some (locals, stack)
    | [] => none
  | dup =>
    match stack with
    | v :: stack => some (locals, v :: v :: stack)
    | [] => none
  | intOp op => arith op .int
  | longOp op => arith op .long
  | doubleOp op => arith op.binary .double
  | negInt => negate .int
  | negLong => negate .long
  | convert c =>
    match stack with
    | v :: stack => some (locals, c.apply v :: stack)
    | [] => none
where
  arith (op : BinaryOp) (k : Kind) : Option (List Value × List Value) :=
    match stack with
    | b :: a :: stack => some (locals, w.binary op k a b :: stack)
    | _ => none
  negate (k : Kind) : Option (List Value × List Value) :=
    match stack with
    | v :: stack => some (locals, v.negateAs k :: stack)
    | [] => none

/-- Takes `count` values off a stack; the one pushed first comes first. -/
def takeArgs (count : Nat) (stack : List Value) : Option (List Value × List Value) :=
  if count ≤ stack.length then some ((stack.take count).reverse, stack.drop count) else none

/-- The request of an instruction that makes one, and the stack behind its operands. -/
def Instruction.request? (stack : List Value) : Instruction → Option (Request × List Value)
  | newArray element => ask (.newArray element) 1
  | newInstance cls => ask (.newInstance cls) 0
  | arrayLength => ask .arrayLength 1
  | arrayLoad element => ask (.arrayLoad element) 2
  | arrayStore element => ask (.arrayStore element) 3
  | invokeStatic callee =>
    match callee.signature? with
    | some s => ask (.callStatic callee) s.params.length
    | none => none
  | invokeNative callee =>
    match callee.signature? with
    | some s => ask (.callNative callee) s.params.length
    | none => none
  | invokeIndirect descriptor =>
    match Signature.parse? descriptor, stack with
    | some s, address :: stack =>
      match takeArgs s.params.length stack with
      | some (args, stack) => some (⟨.callIndirect s, address :: args⟩, stack)
      | none => none
    | _, _ => none
  | _ => none
where
  ask (service : Service) (count : Nat) : Option (Request × List Value) :=
    match takeArgs count stack with
    | some (args, stack) => some (⟨service, args⟩, stack)
    | none => none

/-- Whether a conditional branch is taken, and the stack behind its operands. -/
def Instruction.test? (w : World) (stack : List Value) : Instruction → Option (Bool × Nat × List Value)
  | ifZero cond target => against cond (.int 0) target
  | ifNull target => against .eq .null target
  | ifNonNull target => against .ne .null target
  | ifCompare cond target =>
    match stack with
    | b :: a :: stack => some (w.compare cond a b, target, stack)
    | _ => none
  | _ => none
where
  against (cond : Comparison) (v : Value) (target : Nat) : Option (Bool × Nat × List Value) :=
    match stack with
    | a :: stack => some (w.compare cond a v, target, stack)
    | [] => none

namespace Method

/-- Where an exception at `pc` leads. -/
def throwAt (m : Method) (pc : Nat) (locals : List Value) (x : Value) :
    Progress StackState Outcome :=
  match m.handlerFor? pc with
  | some h => .going ⟨h.entry, locals, [x]⟩
  | none => .ended (.thrown x)

/-- The poll of a branch from `pc`. -/
def pollAt (pc target : Nat) : List Event := if target ≤ pc then [.polled pc] else []

/-- Runs one instruction. -/
def stepInsn (m : Method) (w : World) (past : List Event) (s : StackState) (insn : Instruction) :
    List Event × Progress StackState Outcome :=
  match insn with
  | .stack op =>
    match op.apply w s.locals s.stack with
    | some (locals, stack) => ([], .going ⟨s.pc + 1, locals, stack⟩)
    | none => ([], .ended .wrong)
  | .goto target => (pollAt s.pc target, .going { s with pc := target })
  | .safepoint => ([.polled s.pc], .going { s with pc := s.pc + 1 })
  | .ret => ([], .ended (.returned none))
  | .retValue =>
    match s.stack with
    | v :: _ => ([], .ended (.returned (some v)))
    | [] => ([], .ended .wrong)
  | .raise =>
    match s.stack with
    | x :: _ => ([.raised x], m.throwAt s.pc s.locals x)
    | [] => ([], .ended .wrong)
  | .ifZero .. | .ifCompare .. | .ifNull _ | .ifNonNull _ =>
    match insn.test? w s.stack with
    | some (taken, target, stack) =>
      (pollAt s.pc target, .going ⟨if taken then target else s.pc + 1, s.locals, stack⟩)
    | none => ([], .ended .wrong)
  | _ =>
    match insn.request? s.stack with
    | some (request, stack) =>
      let reply := w.oracle past request
      ([.asked request reply],
        match reply with
        | .value v =>
          .going ⟨s.pc + 1, s.locals, if request.service.result = .void then stack else v :: stack⟩
        | .throws x => m.throwAt s.pc s.locals x)
    | none => ([], .ended .wrong)

/-- The machine of a method. -/
def machine (m : Method) (w : World) : Machine Event StackState Outcome where
  step past s :=
    match m.code[s.pc]? with
    | some insn => m.stepInsn w past s insn
    | none => ([], .ended .wrong)

/-- Where a run starts. -/
def start (m : Method) (w : World) : StackState := ⟨0, w.args ++ m.locals.map (·.zero), []⟩

section
variable {m : Method} {w : World} {past : List Event} {s : StackState} {insn : Instruction}

theorem stepInsn_request {r stack} (h : insn.request? s.stack = some (r, stack)) :
    m.stepInsn w past s insn = ([.asked r (w.oracle past r)],
      match w.oracle past r with
      | .value v => .going ⟨s.pc + 1, s.locals, if r.service.result = .void then stack else v :: stack⟩
      | .throws x => m.throwAt s.pc s.locals x) := by
  cases insn with
  | newArray | newInstance | arrayLength | arrayLoad | arrayStore | invokeStatic | invokeNative
  | invokeIndirect => simp only [stepInsn, h]
  | _ => cases h

theorem stepInsn_test {taken target stack} (h : insn.test? w s.stack = some (taken, target, stack)) :
    m.stepInsn w past s insn =
      (pollAt s.pc target, .going ⟨if taken then target else s.pc + 1, s.locals, stack⟩) := by
  cases insn with
  | ifZero | ifCompare | ifNull | ifNonNull => simp only [stepInsn, h]
  | _ => cases h

end

end Method
end StackCompiler
