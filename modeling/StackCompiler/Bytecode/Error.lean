/-
What can be wrong with bytecode, and how it is said.
-/
import StackCompiler.Bytecode.Method

namespace StackCompiler

def maxArguments : Nat := 8

/-- What is wrong with the code of a method. -/
inductive BytecodeError where
  | stackUnderflow (method : String) (pc : Nat)
  | kindMismatch (method : String) (pc : Nat) (expected found : Kind)
  | badBranchTarget (method : String) (pc target : Nat)
  | badLocal (method : String) (pc index : Nat)
  | stackMismatch (method : String) (pc : Nat)
  | fallsOffEnd (method : String)
  | badHandler (method : String) (index : Nat)
  | badDescriptor (descriptor : String)
  | tooManyArguments (method : String) (count : Nat)
  | malformed (reason : String)
deriving DecidableEq, Repr

def BytecodeError.message : BytecodeError → String
  | stackUnderflow method pc => s!"{method}: stack underflow at {pc}"
  | kindMismatch method pc expected found =>
    s!"{method}: expected {expected.name} at {pc}, found {found.name}"
  | badBranchTarget method pc target =>
    s!"{method}: branch at {pc} targets {target}, outside the method"
  | badLocal method pc index => s!"{method}: local {index} used at {pc} does not exist"
  | stackMismatch method pc => s!"{method}: stack shapes disagree at the merge into {pc}"
  | fallsOffEnd method => s!"{method}: execution falls off the end of the code"
  | badHandler method index => s!"{method}: exception handler {index} has an invalid range"
  | badDescriptor descriptor => "bad method descriptor " ++ Text.quoted descriptor
  | tooManyArguments method count =>
    s!"{method}: {count} arguments exceed the limit of {maxArguments}"
  | malformed reason => s!"malformed program: {reason}"

def Signature.parse (descriptor : String) : Except BytecodeError Signature :=
  match Signature.parse? descriptor with
  | some s => .ok s
  | none => .error (.badDescriptor descriptor)

def MethodKey.signature (k : MethodKey) : Except BytecodeError Signature :=
  Signature.parse k.descriptor

end StackCompiler
