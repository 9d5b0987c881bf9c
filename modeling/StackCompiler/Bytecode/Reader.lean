/-
Programs as JSON text: a list of methods. An instruction without operands is
its name, any other one an object whose only field is its name.
-/
import StackCompiler.Json.Reader
import StackCompiler.Bytecode.Error

namespace StackCompiler

def Instruction.plain : List (String × Instruction) :=
  [("a_const_null", .stack .constNull), ("pop", .stack .pop), ("dup", .stack .dup)]
    ++ BinaryOp.all.map (fun op => ("i_" ++ op.keyword, .stack (.intOp op)))
    ++ [("i_neg", .stack .negInt)]
    ++ BinaryOp.all.map (fun op => ("l_" ++ op.keyword, .stack (.longOp op)))
    ++ [("l_neg", .stack .negLong)]
    ++ DoubleOp.all.map (fun op => ("d_" ++ op.binary.keyword, .stack (.doubleOp op)))
    ++ [("i2l", .stack (.convert .intToLong)), ("l2i", .stack (.convert .longToInt)),
        ("array_length", .arrayLength), ("throw", .raise), ("return", .ret),
        ("return_value", .retValue), ("safepoint", .safepoint)]

namespace Json

/-- An integer from `-limit` up to before `limit`. -/
def signed? (limit : Nat) (j : Json) : Option Int :=
  j.integer?.filter fun i => -(limit : Int) ≤ i ∧ i < limit

def position? (j : Json) : Option Nat := j.natBelow? 0x10000000000000000

def object? (j : Json) : Option ObjectRef :=
  (j.natBelow? 0x10000000000000000).map fun n => ⟨UInt64.ofNat n⟩

def kind? (j : Json) : Option Kind := j.keyword? >>= Kind.ofKeyword?

def methodKey? (j : Json) : Option MethodKey := do
  match ← j.fields? ["holder", "name", "descriptor"] with
  | [some holder, some name, some descriptor] =>
    return ⟨← holder.text?, ← name.text?, ← descriptor.text?⟩
  | _ => none

def condition? (j : Json) : Option (Comparison × Nat) := do
  match ← j.fields? ["cond", "target"] with
  | [some cond, some target] =>
    return (← cond.keyword? >>= Comparison.ofKeyword?, ← target.position?)
  | _ => none

def operation? (name : String) (j : Json) : Option Instruction :=
  match name with
  | "i_const" => (j.signed? 0x80000000).map fun i => .stack (.constInt (Int32.ofInt i))
  | "l_const" => (j.signed? 0x8000000000000000).map fun i => .stack (.constLong (Int64.ofInt i))
  | "d_const" => j.double?.map (.stack ∘ .constDouble)
  | "ldc" => j.object?.map (.stack ∘ .constObject)
  | "load" => (j.natBelow? 0x10000).map (.stack ∘ .load)
  | "store" => (j.natBelow? 0x10000).map (.stack ∘ .store)
  | "if" => j.condition?.map fun (cond, target) => .ifZero cond target
  | "if_cmp" => j.condition?.map fun (cond, target) => .ifCompare cond target
  | "if_null" => j.position?.map .ifNull
  | "if_non_null" => j.position?.map .ifNonNull
  | "goto" => j.position?.map .goto
  | "new_array" => j.kind?.map .newArray
  | "new_instance" => j.object?.map .newInstance
  | "array_load" => j.kind?.map .arrayLoad
  | "array_store" => j.kind?.map .arrayStore
  | "invoke_static" => j.methodKey?.map .invokeStatic
  | "invoke_native" => j.methodKey?.map .invokeNative
  | "invoke_indirect" => j.text?.map .invokeIndirect
  | _ => none

def instruction? (j : Json) : Option Instruction :=
  match j.keyword?.bind fun name => Instruction.plain.lookup name with
  | some i => some i
  | none =>
    match j.variant? with
    | some (name, some content) => content.operation? name
    | _ => none

def handler? (j : Json) : Option Handler := do
  match ← j.fields? ["start", "end", "handler"] with
  | [some start, some stop, some entry] =>
    return ⟨← start.position?, ← stop.position?, ← entry.position?⟩
  | _ => none

def listOf? {α : Type} (item? : Json → Option α) : Option Json → Option (List α)
  | none => some []
  | some j => j.items? >>= (·.mapM item?)

def method? (j : Json) : Option Method := do
  match ← j.fields? ["key", "locals", "code", "handlers"] with
  | [some key, locals, some code, handlers] =>
    return {
      key := ← key.methodKey?
      locals := ← listOf? kind? locals
      code := ← listOf? instruction? (some code)
      handlers := ← listOf? handler? handlers }
  | _ => none

def program? (j : Json) : Option Program := (listOf? method? (some j)).map (⟨·⟩)

end Json

def Program.ofJson (j : Json) : Except BytecodeError Program :=
  match j.program? with
  | some p => .ok p
  | none => .error (.malformed "not a list of methods")

def Program.parse (text : String) : Except BytecodeError Program :=
  match Json.parse? text with
  | some j => Program.ofJson j
  | none => .error (.malformed "not a JSON document")

end StackCompiler
