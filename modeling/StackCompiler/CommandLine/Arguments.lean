/-
The arguments of the command line: a command with its operands, flags and
settings. The first argument that does not fit decides, and a wish for help
counts where it stands.
-/
import StackCompiler.CommandLine.Help

namespace StackCompiler
namespace CommandLine

/-- A program to compile, and what to print of it. -/
structure CompileRequest where
  program : String
  config : Option String
  disassembly : Bool
  referenceMaps : Bool
  bootImage : Bool
  noInline : Bool
  summary : Bool
deriving DecidableEq, Repr

/-- A file of code to list. -/
structure DisassembleRequest where
  file : String
  hex : Bool
  raw : Bool
  strict : Bool
  start : Nat
deriving DecidableEq, Repr

/-- What the program is asked to do. -/
inductive Command where
  | compile (r : CompileRequest)
  | disassemble (r : DisassembleRequest)
  | config
deriving DecidableEq, Repr

def Command.files : Command → List String
  | compile r => r.config.toList ++ [r.program]
  | disassemble r => [r.file]
  | config => []

/-- Why no command is run: help was asked for, or the arguments are wrong. -/
inductive Refusal where
  | help (t : Topic)
  | usage (reason : String)
deriving DecidableEq, Repr

/-- A number in a base; a plus may stand before it. -/
def number? (base : Nat) (cs : List Char) : Option Nat :=
  let digits := match cs with
    | '+' :: rest => rest
    | cs => cs
  if digits.isEmpty then none
  else digits.foldlM (fun n c => ((Hex.digit? c).filter (· < base)).map (base * n + ·)) 0

/-- An address of 64 bits, in hexadecimal digits after `0x` and in decimal ones otherwise. -/
def address? (s : String) : Option Nat :=
  let n := match s.toList with
    | '0' :: 'x' :: rest | '0' :: 'X' :: rest => number? 16 rest
    | cs => number? 10 cs
  n.filter (· < 0x10000000000000000)

/-- The arguments that a command takes. -/
structure Shape where
  topic : Topic
  flags : List String := []
  settings : List (String × (String → Bool)) := []
  operands : Nat := 0

/-- The arguments that were found. -/
structure Given where
  flags : List String := []
  settings : List (String × String) := []
  operands : List String := []
deriving DecidableEq, Repr

namespace Given

def flag (g : Given) (name : String) : Except Refusal Given :=
  if g.flags.contains name then .error (.usage s!"--{name} given twice")
  else .ok { g with flags := name :: g.flags }

def setting (g : Given) (accepts : String → Bool) (name value : String) : Except Refusal Given :=
  if !accepts value then .error (.usage s!"--{name} does not take {value}")
  else if (g.settings.lookup name).isSome then .error (.usage s!"--{name} given twice")
  else .ok { g with settings := (name, value) :: g.settings }

def operand (g : Given) (s : Shape) (a : String) : Except Refusal Given :=
  if a.isEmpty ∨ s.operands ≤ g.operands.length then .error (.usage s!"unexpected argument {a}")
  else .ok { g with operands := g.operands ++ [a] }

end Given

/-- Whether an argument is a flag or a setting and not an operand. -/
def isOption (a : String) : Bool :=
  match a.toList with
  | '-' :: _ :: _ => true
  | _ => false

/-- The name of a flag or a setting, and the value after an equals sign. -/
def nameAndValue (cs : List Char) : String × Option String :=
  match cs.span (· ≠ '=') with
  | (name, []) => (String.ofList name, none)
  | (name, _ :: value) => (String.ofList name, some (String.ofList value))

/-- Reads the arguments of a command. After `--` all are operands. -/
def gather (s : Shape) (g : Given) : List String → Except Refusal Given
  | [] => .ok g
  | a :: rest =>
    match a.toList with
    | ['-', '-'] => rest.foldlM (·.operand s) g
    | '-' :: '-' :: cs =>
      match nameAndValue cs with
      | ("help", none) => .error (.help s.topic)
      | (name, value) =>
        match s.settings.lookup name, value, rest with
        | some accepts, some v, rest => do gather s (← g.setting accepts name v) rest
        | some accepts, none, v :: rest =>
          if isOption v then .error (.usage s!"--{name} needs a value")
          else do gather s (← g.setting accepts name v) rest
        | some _, none, [] => .error (.usage s!"--{name} needs a value")
        | none, none, rest =>
          if s.flags.contains name then do gather s (← g.flag name) rest
          else .error (.usage s!"unexpected argument {a}")
        | none, some _, _ => .error (.usage s!"unexpected argument {a}")
    | '-' :: 'h' :: _ => .error (.help s.topic)
    | '-' :: _ :: _ => .error (.usage s!"unexpected argument {a}")
    | _ => do gather s (← g.operand s a) rest

def Shape.compile : Shape where
  topic := .compile
  flags := ["disasm", "ref-maps", "boot-image", "no-inline", "json", "trace"]
  settings := [("config", fun v => !v.isEmpty)]
  operands := 1

def Shape.disassemble : Shape where
  topic := .disassemble
  flags := ["hex", "raw", "no-inline-bytes", "trace"]
  settings := [("start", fun v => (address? v).isSome)]
  operands := 1

def Shape.config : Shape where
  topic := .config
  flags := ["trace"]

def theOperand (g : Given) : Except Refusal String :=
  match g.operands with
  | [a] => .ok a
  | _ => .error (.usage "an operand is missing")

def compileRequest (args : List String) : Except Refusal CompileRequest := do
  let g ← gather .compile {} args
  let program ← theOperand g
  return {
    program, config := g.settings.lookup "config"
    disassembly := g.flags.contains "disasm", referenceMaps := g.flags.contains "ref-maps"
    bootImage := g.flags.contains "boot-image", noInline := g.flags.contains "no-inline"
    summary := g.flags.contains "json" }

def disassembleRequest (args : List String) : Except Refusal DisassembleRequest := do
  let g ← gather .disassemble {} args
  let file ← theOperand g
  return {
    file, hex := g.flags.contains "hex", raw := g.flags.contains "raw"
    strict := g.flags.contains "no-inline-bytes"
    start := ((g.settings.lookup "start").bind address?).getD 0 }

def helpOn : List String → Refusal
  | [] => .help .program
  | [name] =>
    match Topic.ofCommand? name with
    | some t => .help t
    | none => .usage s!"unknown command {name}"
  | _ => .usage "help takes one command"

/-- Reads a command line. The flag `--trace` may stand before the command. -/
def parse (traced : Bool) : List String → Except Refusal Command
  | [] => .error (.usage "a command is missing")
  | "compile" :: args => (compileRequest args).map .compile
  | "disasm" :: args => (disassembleRequest args).map .disassemble
  | "config" :: args => (gather .config {} args).map fun _ => .config
  | "help" :: args => .error (helpOn args)
  | "--help" :: _ => .error (.help .program)
  | "--trace" :: args =>
    if traced then .error (.usage "--trace given twice") else parse true args
  | a :: _ =>
    match a.toList with
    | '-' :: 'h' :: _ => .error (.help .program)
    | _ => .error (.usage s!"unknown command {a}")

end CommandLine
end StackCompiler
