/-
What can go wrong while machine code is made, and how it is said.
-/
import StackCompiler.Value
import StackCompiler.Cache.Error

namespace StackCompiler

/-- Why no bundle was made or installed. -/
inductive CodegenError where
  | assembly (e : AssemblyError)
  | literal (e : LiteralError)
  | cache (e : CacheError)
  | catchAtZero (method : String)
  | bundleSizeMismatch (method : String) (computed derived : Nat)
  | unsupported (method what : String)
  | alreadyGenerated (method : String)
deriving DecidableEq, Repr

def CodegenError.message : CodegenError → String
  | assembly e => "assembler failed: " ++ e.message
  | literal e => "literal serialisation failed: " ++ e.message
  | cache e => e.message
  | catchAtZero method => s!"{method}: catch block entry at code position 0"
  | bundleSizeMismatch method computed derived =>
    s!"{method}: bundle size {computed} differs from the size {derived} implied by the target method"
  | unsupported method what => s!"{method}: cannot emit {what}"
  | alreadyGenerated method => s!"{method}: code already generated"

end StackCompiler
