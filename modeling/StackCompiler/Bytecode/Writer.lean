/-
Instructions as JSON, in the form that programs are read from.
-/
import StackCompiler.Bytecode.Reader

namespace StackCompiler

def JsonNumber.ofDouble (x : Double) : JsonNumber :=
  let digit (c : Char) : Nat := c.toNat - '0'.toNat
  if x.exponentField = 0 ∧ x.fractionField = 0 then ⟨x.negative, [0], some [0], none⟩
  else
    let s := x.rounded.shortest
    ⟨x.negative, (Nat.toDigits 10 s.digits).map digit, some [0], some s.exponent⟩

def MethodKey.toJson (k : MethodKey) : Json :=
  .record [("holder", .text k.holder), ("name", .text k.name), ("descriptor", .text k.descriptor)]

namespace Instruction

def condition (cond : Comparison) (target : Nat) : Json :=
  .record [("cond", .text cond.keyword), ("target", .ofNat target)]

def operand? : Instruction → Option (String × Json)
  | stack (.constInt v) => some ("i_const", .ofInt v.toInt)
  | stack (.constLong v) => some ("l_const", .ofInt v.toInt)
  | stack (.constDouble v) => some ("d_const", .number (.ofDouble v))
  | stack (.constObject r) => some ("ldc", .ofNat r.handle.toNat)
  | stack (.load n) => some ("load", .ofNat n)
  | stack (.store n) => some ("store", .ofNat n)
  | ifZero cond target => some ("if", condition cond target)
  | ifCompare cond target => some ("if_cmp", condition cond target)
  | ifNull target => some ("if_null", .ofNat target)
  | ifNonNull target => some ("if_non_null", .ofNat target)
  | goto target => some ("goto", .ofNat target)
  | newArray k => some ("new_array", .text k.keyword)
  | newInstance r => some ("new_instance", .ofNat r.handle.toNat)
  | arrayLoad k => some ("array_load", .text k.keyword)
  | arrayStore k => some ("array_store", .text k.keyword)
  | invokeStatic k => some ("invoke_static", k.toJson)
  | invokeNative k => some ("invoke_native", k.toJson)
  | invokeIndirect d => some ("invoke_indirect", .text d)
  | _ => none

def toJson (i : Instruction) : Json :=
  match i.operand? with
  | some (name, operand) => .record [(name, operand)]
  | none =>
    match plain.find? (·.2 = i) with
    | some (name, _) => .text name
    | none => .null

end Instruction
end StackCompiler
