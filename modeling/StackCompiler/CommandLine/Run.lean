/-
The program behind the command line: what a run prints and how it ends, as a
function of its arguments and of the files it can read.
-/
import StackCompiler.Bytecode.Reader
import StackCompiler.CommandLine.Arguments
import StackCompiler.Config.Toml
import StackCompiler.Json.Printer
import StackCompiler.Session

namespace StackCompiler
namespace CommandLine

/-- The content of a file, or the reason why it cannot be read. -/
abbrev Files := String → Except String Bytes

/-- What a run does: the exit code, the text it prints, and the message of its failure. -/
structure Outcome where
  exit : Nat
  stdout : String := ""
  stderr : Option String := none
deriving DecidableEq, Repr

/-- What is printed, and the error that ended it. -/
abbrev Report := String × Option CompileError

def Report.ofExcept : Except CompileError String → Report
  | .ok text => (text, none)
  | .error e => ("", some e)

def Report.outcome : Report → Outcome
  | (stdout, none) => { exit := 0, stdout }
  | (stdout, some e) =>
    { exit := if e.isFatal then 70 else 1, stdout, stderr := some s!"error: {e.message}" }

def readFile (files : Files) (path : String) : Except CompileError Bytes :=
  match files path with
  | .ok bytes => .ok bytes
  | .error reason => .error (.io path reason)

def text (bytes : Bytes) : Except CompileError String :=
  match Utf8.decode bytes with
  | .ok s => .ok s
  | .error e => .error (.input e.message)

/-! ## Compiling -/

/-- The settings of a compilation: those of the file with the changes that the flags ask for. -/
def settings (files : Files) (r : CompileRequest) : Except CompileError Config := do
  let base ←
    match r.config with
    | none => .ok {}
    | some path =>
      match Config.load files path with
      | .ok c => .ok c
      | .error e => .error (.config e)
  let compiler := base.compiler
  let optimizer := { compiler.optimizer with inlines := compiler.optimizer.inlines && !r.noInline }
  return { base with
    compiler := { compiler with optimizer, bootImage := compiler.bootImage || r.bootImage } }

def compiled (files : Files) (r : CompileRequest) :
    Except CompileError (List CompiledMethod × Session) := do
  let config ← settings files r
  let session ← Session.create config
  let bytes ← readFile files r.program
  let source ← text bytes
  match Program.parse source with
  | .error e => .error (.bytecode e)
  | .ok program =>
    match session.compileAll program with
    | (.error e, _) => .error e
    | (.ok methods, session) => .ok (methods, session)

def methodSummary (m : CompiledMethod) : Json :=
  let b := m.bundle
  .record
    [("method", .text m.key.text), ("region", .ofNat b.region), ("start", .ofNat m.start),
     ("code_start", .ofNat m.codeStart), ("code_size", .ofNat b.code.size),
     ("frame_size", .ofNat b.frameSize), ("scalar_literal_bytes", .ofNat b.scalars.size),
     ("reference_literals", .ofNat b.references.length), ("direct_calls", .ofNat m.directCalls),
     ("indirect_calls", .ofNat b.indirectCalls), ("safepoints", .ofNat b.safepoints),
     ("catch_ranges", .ofNat b.catchTable.ranges.length)]

def methodLine (m : CompiledMethod) : String :=
  let b := m.bundle
  let place := s!"region {b.region} at {Hex.marked m.codeStart}"
  s!"{m.key.text}: {place}, {b.code.size} code bytes, frame {b.frameSize}\n"

def mapText (m : CompiledMethod) : String :=
  String.join ((m.mapListing (Convention.allocatable.map Reg.text)).map (· ++ "\n"))

def methodReport (r : CompileRequest) (s : Session) (m : CompiledMethod) : Report :=
  let maps := if r.referenceMaps then mapText m else ""
  if r.disassembly then
    match s.disassemble m with
    | .ok listing => (methodLine m ++ listing ++ maps, none)
    | .error e => (methodLine m, some e)
  else (methodLine m ++ maps, none)

def methodReports (r : CompileRequest) (s : Session) (count : Nat) : List CompiledMethod → Report
  | [] =>
    (s!"{count} methods, {s.cache.totalSize} bytes in {s.cache.registered.length} regions\n", none)
  | m :: rest =>
    match methodReport r s m with
    | (line, some e) => (line, some e)
    | (line, none) =>
      let (lines, failure) := methodReports r s count rest
      (line ++ lines, failure)

def compile (files : Files) (r : CompileRequest) : Report :=
  match compiled files r with
  | .error e => ("", some e)
  | .ok (methods, session) =>
    if r.summary then ((Json.array (methods.map methodSummary)).pretty "" ++ "\n", none)
    else methodReports r session methods.length methods

/-! ## Disassembling -/

/-- The code that a file holds, as bytes or as text. -/
def code (hex : Bool) (bytes : Bytes) : Except CompileError Bytes :=
  if !hex then .ok bytes
  else do
    let digits ← text bytes
    match Hex.parse digits with
    | .ok code => .ok code
    | .error .oddLength => .error (.input "odd number of hex digits")
    | .error (.badPair pair) => .error (.input s!"invalid hex byte {Text.quoted pair}")

def disassemble (files : Files) (r : DisassembleRequest) : Except CompileError String := do
  let bytes ← readFile files r.file
  let code ← code r.hex bytes
  let d : Disassembler :=
    { start := r.start
      preference := if r.raw then .raw else .synthetic
      bytesForInvalid := !r.strict }
  match d.render code with
  | .ok listing => .ok listing
  | .error e => .error (.disassembly e)

/-! ## The program -/

def report (files : Files) : Command → Report
  | .compile r => compile files r
  | .disassemble r => .ofExcept (disassemble files r)
  | .config => (({} : Config).toToml, none)

def run (files : Files) (args : List String) : Outcome :=
  match parse false args with
  | .ok command => (report files command).outcome
  | .error (.help t) => { exit := 0, stdout := String.join (t.page.lines.map (· ++ "\n")) }
  | .error (.usage reason) => { exit := 2, stderr := some s!"error: {reason}" }

end CommandLine
end StackCompiler
