/-
The command line program.
-/
import StackCompiler.CommandLine.Directory

namespace StackCompiler.CommandLine

/-- The number and the details of a system error. The number may be given negated. -/
def systemError? : IO.Error → Option (Nat × String)
  | .noFileOrDirectory _ code details | .inappropriateType _ code details
  | .permissionDenied _ code details | .invalidArgument _ code details
  | .resourceExhausted _ code details | .noSuchThing _ code details
  | .interrupted _ code details | .otherError code details =>
    some (min code.toNat (-code).toNat, details)
  | _ => none

def readFailure (e : IO.Error) : String :=
  match systemError? e with
  | some (code, details) =>
    match ReadError.ofCode? code with
    | some known => known.message
    | none => s!"{details} (os error {code})"
  | none => toString e

def readBytes (path : String) : IO (Except String Bytes) := do
  try
    let bytes ← IO.FS.readBinFile path
    return .ok bytes.data
  catch e => return .error (readFailure e)

def namedFiles (args : List String) : List String :=
  match parse false args with
  | .ok command => command.files
  | .error _ => []

end StackCompiler.CommandLine

open StackCompiler CommandLine in
def main (args : List String) : IO UInt32 := do
  let found ← (namedFiles args).mapM fun path => return (path, ← readBytes path)
  let files : Files := fun path => (found.lookup path).getD (.error "not read")
  let outcome := run files args
  IO.print outcome.stdout
  if let some message := outcome.stderr then IO.eprintln message
  return UInt32.ofNat outcome.exit
