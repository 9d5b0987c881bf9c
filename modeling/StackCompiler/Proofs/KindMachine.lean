/-
When a method is well formed, said without blocks or graphs. The kind machine
runs bytecode with kinds in place of values, from the first instruction and from
every handler. A method is verified if this machine never gets stuck, comes to
each position with one stack only, and to a handler by no ordinary transfer.
-/
import StackCompiler.Bytecode.Error

namespace StackCompiler

open Signature

namespace Kind

/-- Takes values of the given kinds off a stack, the top first. -/
def take? : List Kind → List Kind → Option (List Kind)
  | [], stack => some stack
  | _ :: _, [] => none
  | k :: ks, k' :: stack => if k' = k then take? ks stack else none

/-- Puts a result on a stack; there is none of kind void. -/
def pushOn (k : Kind) (stack : List Kind) : List Kind := if k = .void then stack else k :: stack

theorem take?_append : ∀ ks stack : List Kind, take? ks (ks ++ stack) = some stack
  | [], _ => rfl
  | k :: ks, stack => by simp [take?, take?_append ks stack]

end Kind

/-- The signature of a method that can be called. -/
def Signature.callable? (descriptor : String) : Option Signature :=
  (parse? descriptor).filter fun s => s.params.length ≤ maxArguments

theorem Signature.callable?_eq_some {descriptor s} :
    callable? descriptor = some s ↔
      parse? descriptor = some s ∧ s.params.length ≤ maxArguments := by
  simp [callable?, Option.filter_eq_some_iff]

/-- The stack behind an instruction that works on stack and locals only. -/
def StackOp.kinds? (locals : List Kind) (op : StackOp) (stack : List Kind) : Option (List Kind) :=
  match op with
  | .constInt _ => some (.int :: stack)
  | .constLong _ => some (.long :: stack)
  | .constDouble _ => some (.double :: stack)
  | .constNull | .constObject _ => some (.reference :: stack)
  | .load index => (locals[index]?).map (· :: stack)
  | .store index => (locals[index]?).bind fun k => Kind.take? [k] stack
  | .pop => stack.tail?
  | .dup => stack.head?.map (· :: stack)
  | .intOp _ => (Kind.take? [.int, .int] stack).map (.int :: ·)
  | .longOp _ => (Kind.take? [.long, .long] stack).map (.long :: ·)
  | .doubleOp _ => (Kind.take? [.double, .double] stack).map (.double :: ·)
  | .negInt => (Kind.take? [.int] stack).map (.int :: ·)
  | .negLong => (Kind.take? [.long] stack).map (.long :: ·)
  | .convert c => (Kind.take? [c.source] stack).map (c.result :: ·)

namespace Instruction

/-- The stack behind a call; the last argument is on top, and above it what `first` says. -/
def callKinds? (first : List Kind) (descriptor : String) (stack : List Kind) : Option (List Kind) :=
  (callable? descriptor).bind fun s =>
    (Kind.take? (first ++ s.params.reverse) stack).map s.result.pushOn

/-- The stack behind an instruction of a method with the given locals and result. -/
def kinds? (locals : List Kind) (result : Kind) (insn : Instruction) (stack : List Kind) :
    Option (List Kind) :=
  match insn with
  | .stack op => op.kinds? locals stack
  | .newArray _ => (Kind.take? [.int] stack).map (.reference :: ·)
  | .newInstance _ => some (.reference :: stack)
  | .arrayLength => (Kind.take? [.reference] stack).map (.int :: ·)
  | .arrayLoad element => (Kind.take? [.int, .reference] stack).map element.pushOn
  | .arrayStore element => Kind.take? [element, .int, .reference] stack
  | .invokeStatic callee | .invokeNative callee => callKinds? [] callee.descriptor stack
  | .invokeIndirect descriptor => callKinds? [.word] descriptor stack
  | .safepoint | .goto _ => some stack
  | .raise => Kind.take? [.reference] stack
  | .ret => if result = .void then some stack else none
  | .retValue => Kind.take? [result] stack
  | .ifZero _ _ => Kind.take? [.int] stack
  | .ifNull _ | .ifNonNull _ => Kind.take? [.reference] stack
  | .ifCompare _ _ => stack.head?.bind fun k => Kind.take? [k, k] stack

/-- Where control may go from the instruction at `pc`, exceptions apart. -/
def next (insn : Instruction) (pc : Nat) : List Nat :=
  insn.target?.toList ++ if insn.endsFlow then [] else [pc + 1]

end Instruction

/-- A position and the kinds on the operand stack, the top first. -/
structure KindState where
  pc : Nat
  stack : List Kind
deriving DecidableEq, Repr

namespace Method

/-- The states behind a state; nothing if the machine is stuck there. -/
def kindStep? (m : Method) (s : Signature) (σ : KindState) : Option (List KindState) :=
  (m.code[σ.pc]?).bind fun insn =>
    (insn.kinds? (m.localKinds s) s.result σ.stack).map fun stack =>
      (insn.next σ.pc).map fun pc => ⟨pc, stack⟩

/-- The states that the kind machine comes to. -/
inductive KindReached (m : Method) (s : Signature) : KindState → Prop
  | start : KindReached m s ⟨0, []⟩
  | handler {h : Handler} (mem : h ∈ m.handlers) : KindReached m s ⟨h.entry, [.reference]⟩
  | step {σ τ : KindState} {behind : List KindState} (reached : KindReached m s σ)
      (step? : m.kindStep? s σ = some behind) (mem : τ ∈ behind) : KindReached m s τ

/-- The states that it comes to by an ordinary transfer: at the start, or from another state. -/
inductive KindEntered (m : Method) (s : Signature) : KindState → Prop
  | start : KindEntered m s ⟨0, []⟩
  | step {σ τ : KindState} {behind : List KindState} (reached : KindReached m s σ)
      (step? : m.kindStep? s σ = some behind) (mem : τ ∈ behind) : KindEntered m s τ

/-- The method is well formed, with the given signature. -/
structure Verified (m : Method) (s : Signature) : Prop where
  callable : callable? m.key.descriptor = some s
  nonempty : m.code ≠ []
  targets : ∀ insn ∈ m.code, ∀ target ∈ insn.target?, target < m.code.length
  /-- A handler protects instructions of the method and starts at one of them. -/
  handlers : ∀ h ∈ m.handlers, h.start < h.stop ∧ h.stop ≤ m.code.length ∧ h.entry < m.code.length
  not_stuck : ∀ σ, m.KindReached s σ → (m.kindStep? s σ).isSome = true
  handler_entry : ∀ σ, m.KindEntered s σ → ∀ h ∈ m.handlers, σ.pc ≠ h.entry
  unique : ∀ σ τ, m.KindReached s σ → m.KindReached s τ → σ.pc = τ.pc → σ.stack = τ.stack

variable {m : Method} {s : Signature} {σ τ : KindState}

theorem KindEntered.reached (h : m.KindEntered s σ) : m.KindReached s σ := by
  cases h with
  | start => exact .start
  | step hσ hs hm => exact .step hσ hs hm

theorem kindStep?_eq_some {behind} :
    m.kindStep? s σ = some behind ↔ ∃ insn stack, m.code[σ.pc]? = some insn ∧
      insn.kinds? (m.localKinds s) s.result σ.stack = some stack ∧
      behind = (insn.next σ.pc).map fun pc => ⟨pc, stack⟩ := by
  simp only [kindStep?, Option.bind_eq_some_iff, Option.map_eq_some_iff]
  constructor
  · rintro ⟨insn, hi, stack, hs, rfl⟩
    exact ⟨insn, stack, hi, hs, rfl⟩
  · rintro ⟨insn, stack, hi, hs, rfl⟩
    exact ⟨insn, hi, stack, hs, rfl⟩

theorem KindReached.enters (h : m.KindReached s σ) {insn stack} (hi : m.code[σ.pc]? = some insn)
    (hs : insn.kinds? (m.localKinds s) s.result σ.stack = some stack) {pc} (hpc : pc ∈ insn.next σ.pc) :
    m.KindEntered s ⟨pc, stack⟩ :=
  .step h (kindStep?_eq_some.mpr ⟨insn, stack, hi, hs, rfl⟩)
    (List.mem_map.mpr ⟨pc, hpc, rfl⟩)

namespace Verified

/-- Verified code has an instruction wherever it gets, and never lacks an operand. -/
theorem step (V : m.Verified s) (h : m.KindReached s σ) : ∃ insn stack, m.code[σ.pc]? = some insn ∧
    insn.kinds? (m.localKinds s) s.result σ.stack = some stack ∧
    ∀ pc ∈ insn.next σ.pc, m.KindEntered s ⟨pc, stack⟩ := by
  obtain ⟨behind, hst⟩ := Option.isSome_iff_exists.mp (V.not_stuck σ h)
  obtain ⟨insn, stack, hi, hs, _⟩ := kindStep?_eq_some.mp hst
  exact ⟨insn, stack, hi, hs, fun pc hpc => h.enters hi hs hpc⟩

theorem pc_lt (V : m.Verified s) (h : m.KindReached s σ) : σ.pc < m.code.length := by
  obtain ⟨insn, stack, hi, _⟩ := V.step h
  exact (List.getElem?_eq_some_iff.mp hi).1

end Verified

end Method
end StackCompiler
