/-
The listing of linear code.
-/
import StackCompiler.Linear.Basic

namespace StackCompiler

open Text

namespace Linear

def varListing (v : Nat) : String := "#" ++ toString v

def flagListing (b : Bool) : String := if b then "true" else "false"

end Linear

def Literal.listing : Literal → String
  | scalar v => apply "Scalar" [v.listing]
  | reference r => apply "Reference" [apply "ObjectRef" [toString r.handle.toNat]]

def CallTarget.listing : CallTarget → String
  | direct callee => apply "Direct" [callee.listing]
  | native callee => apply "Native" [callee.listing]
  | indirect address => apply "Indirect" [Linear.varListing address]

namespace Linear

def Insn.listing : Insn → String
  | move dst src => record "Move" [("dst", varListing dst), ("src", varListing src)]
  | const dst value => record "Const" [("dst", varListing dst), ("value", value.listing)]
  | literal dst id =>
    record "LoadLiteral" [("dst", varListing dst), ("literal", varListing id)]
  | parameter dst index =>
    record "Parameter" [("dst", varListing dst), ("index", toString index)]
  | arith op kind dst lhs rhs =>
    record "Arith"
      [("op", op.title), ("kind", kind.title), ("dst", varListing dst), ("lhs", varListing lhs),
       ("rhs", varListing rhs)]
  | negate kind dst src =>
    record "Negate" [("kind", kind.title), ("dst", varListing dst), ("src", varListing src)]
  | convert c dst src =>
    record "Convert"
      [("conversion", c.title), ("dst", varListing dst), ("src", varListing src)]
  | call target args result noreturn bci =>
    record "Call"
      [("target", target.listing), ("args", list (args.map varListing)),
       ("result", option (result.map varListing)), ("noreturn", flagListing noreturn),
       ("bci", toString bci)]
  | safepoint bci => record "Safepoint" [("bci", toString bci)]
  | caught dst => record "CatchParameter" [("dst", varListing dst)]

def Terminator.listing : Terminator → String
  | jump target => apply "Jump" [varListing target]
  | branch cond kind lhs rhs taken notTaken =>
    record "Branch"
      [("cond", cond.title), ("kind", kind.title), ("lhs", varListing lhs),
       ("rhs", varListing rhs), ("taken", varListing taken), ("not_taken", varListing notTaken)]
  | ret value => apply "Return" [option (value.map varListing)]
  | unreachable => "Unreachable"

def Block.listing (id : Nat) (b : Block) : List String :=
  let mark := if b.isCatch then " catch" else ""
  let handler := match b.handler with
    | some h => " handler e" ++ toString h
    | none => ""
  ("e" ++ toString id ++ mark ++ handler ++ ":")
    :: b.insns.map (fun i => "  " ++ i.listing) ++ ["  " ++ b.term.listing]

def Method.listing (m : Method) : List String :=
  let literals := m.literals.toList.zipIdx.map fun (literal, id) =>
    "  lit" ++ toString id ++ ": " ++ literal.listing
  let blocks := m.blocks.toList.zipIdx.flatMap fun (b, id) => b.listing id
  ("eir " ++ m.key.text) :: literals ++ blocks

end Linear
end StackCompiler
