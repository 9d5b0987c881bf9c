/-
A session of the compiler: its configuration and its code cache. A method is
compiled through the value graph, linear code and allocation to an installed
bundle.
-/
import StackCompiler.Bundle.Install
import StackCompiler.Collector.MarkingStack
import StackCompiler.Config
import StackCompiler.Linear.Lower

namespace StackCompiler

/-- Why a method is not compiled. -/
inductive CompileError where
  | bytecode (e : BytecodeError)
  | codegen (e : CodegenError)
  | cache (e : CacheError)
  | disassembly (e : DisassemblyError)
  | config (e : ConfigError)
  | marking (e : MarkingError)
  | io (path reason : String)
  | input (reason : String)
deriving DecidableEq, Repr

namespace CompileError

def message : CompileError → String
  | bytecode e => e.message
  | codegen e => e.message
  | cache e => e.message
  | disassembly e => e.message
  | config e => e.message
  | marking e => e.message
  | io path reason => s!"failed to read {path}: {reason}"
  | input reason => s!"malformed input: {reason}"

/-- Whether the cause lies in the compiler or its resources, not in the input. -/
def isFatal : CompileError → Bool
  | bytecode _ | disassembly _ | config _ | io .. | input _ | codegen (.unsupported ..) => false
  | codegen _ | cache _ | marking _ => true

def ofCodegen : CodegenError → CompileError
  | .cache e => cache e
  | e => codegen e

end CompileError

/-- A cache that methods are compiled into. -/
structure Session where
  config : Config
  cache : CodeCache

namespace Session

/-- A session with an empty code cache. -/
def create (config : Config) (host : Host := .mapping 0) : Except CompileError Session :=
  match config.validate with
  | .error e => .error (.config e)
  | .ok () =>
    match CodeCache.create config.cache host with
    | .error e => .error (.cache e)
    | .ok cache => .ok ⟨config, cache⟩

/-- The linear code of a method, from its optimized graph. -/
def linear (options : OptimizerOptions) (provider : MethodProvider) (m : Method)
    (order : Graph.HandlerOrder m := .table m) : Except BytecodeError Linear.Method :=
  (Graph.build m order).map fun g => Linear.lower (g.optimize options provider).1

/-- Compiles a method and installs it. -/
def compile (s : Session) (provider : MethodProvider) (m : Method) (order : Graph.HandlerOrder m := .table m) :
    Except CompileError CompiledMethod × Session :=
  match linear s.config.compiler.optimizer provider m order with
  | .error e => (.error (.bytecode e), s)
  | .ok code =>
    let places := Allocation.ofMethod Convention.allocatable code
    match s.cache.generate code places (!s.config.compiler.bootImage) with
    | (.ok m, cache) => (.ok m, { s with cache })
    | (.error e, cache) => (.error (.ofCodegen e), { s with cache })

/-- Compiles methods in order, also those behind one that fails. -/
def compileEach (provider : MethodProvider) :
    List Method → Session → List (Except CompileError CompiledMethod) × Session
  | [], s => ([], s)
  | m :: rest, s =>
    let (result, s) := s.compile provider m
    let (results, s) := compileEach provider rest s
    (result :: results, s)

def collect : List (Except CompileError CompiledMethod) → Except CompileError (List CompiledMethod)
  | [] => .ok []
  | .ok m :: rest => (collect rest).map (m :: ·)
  | .error e :: _ => .error e

/-- Compiles all methods of a program, with each other as callees, and links the calls that were
left if none failed. -/
def compileAll (s : Session) (p : Program) :
    Except CompileError (List CompiledMethod) × Session :=
  let (results, s) := compileEach p.find? p.methods s
  match collect results with
  | .error e => (.error e, s)
  | .ok methods =>
    if s.config.compiler.bootImage then
      match s.cache.linkAll with
      | (.ok _, cache) => (.ok methods, { s with cache })
      | (.error e, cache) => (.error (.cache e), { s with cache })
    else (.ok methods, s)

def disassembler (s : Session) (m : CompiledMethod) : Except DisassemblyError Disassembler :=
  (InlineTable.decode m.bundle.inlineData).map fun inlineData =>
    { start := m.codeStart
      preference := s.config.disassembler.preference
      bytesForInvalid := s.config.disassembler.bytesForInvalid
      inlineData }

def disassemble (s : Session) (m : CompiledMethod) : Except CompileError String :=
  match s.disassembler m with
  | .error e => .error (.disassembly e)
  | .ok d =>
    match d.render m.bundle.code with
    | .error e => .error (.disassembly e)
    | .ok text => .ok text

def markingStack (s : Session) : Except CompileError MarkingStack :=
  match MarkingStack.create s.config.marking.capacity s.config.marking.percent with
  | .error e => .error (.marking e)
  | .ok stack => .ok stack

end Session
end StackCompiler
