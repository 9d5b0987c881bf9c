/-
The pages of help: what a command is for, how it is called, and its arguments
in aligned rows under headings.
-/
import StackCompiler.Text.Quoted

namespace StackCompiler
namespace CommandLine

/-- What there is a page of help about. -/
inductive Topic where
  | program
  | compile
  | disassemble
  | config
  | help
deriving DecidableEq, Repr

def Topic.ofCommand? : String → Option Topic
  | "compile" => some compile
  | "disasm" => some disassemble
  | "config" => some config
  | "help" => some help
  | _ => none

/-- A page of help. -/
structure Page where
  about : String
  usage : String
  /-- Rows under a heading: what to write, and what it does. -/
  sections : List (String × List (String × String))
deriving DecidableEq, Repr

namespace Page

def rows (items : List (String × String)) : List String :=
  let width := items.foldl (fun n (left, _) => max n left.length) 0
  items.map fun (left, right) => "  " ++ Text.padRight width left ++ "  " ++ right

def lines (p : Page) : List String :=
  [p.about, "", "Usage: " ++ p.usage]
    ++ p.sections.flatMap fun (heading, items) => ["", heading ++ ":"] ++ rows items

end Page

def long (name text : String) : String × String := ("    --" ++ name, text)

def traceRow : String × String := long "trace" "Log everything the compiler does"

def helpRow : String × String := ("-h, --help", "Print help")

def Topic.page : Topic → Page
  | program =>
    { about := "Compile stack bytecode to AArch64 code bundles"
      usage := "cpsjit [OPTIONS] <COMMAND>"
      sections :=
        [("Commands",
          [("compile", "Compile a JSON program and install it in a fresh code cache"),
           ("disasm", "Disassemble raw AArch64 code"),
           ("config", "Print the default configuration as TOML"),
           ("help", "Print this message or the help of the given subcommand(s)")]),
         ("Options", [traceRow, helpRow])] }
  | compile =>
    { about := "Compile a JSON program and install it in a fresh code cache"
      usage := "cpsjit compile [OPTIONS] <PROGRAM>"
      sections :=
        [("Arguments", [("<PROGRAM>", "JSON list of bytecode methods")]),
         ("Options",
          [long "config <CONFIG>" "TOML configuration file",
           long "disasm" "Print the disassembly of every method",
           long "ref-maps" "Print the reference maps of every stop",
           long "boot-image" "Defer call linking until every method is installed",
           traceRow,
           long "no-inline" "Do not inline callees",
           long "json" "Print a JSON summary instead of text",
           helpRow])] }
  | disassemble =>
    { about := "Disassemble raw AArch64 code"
      usage := "cpsjit disasm [OPTIONS] <FILE>"
      sections :=
        [("Arguments", [("<FILE>", "File holding the code")]),
         ("Options",
          [long "hex" "The file holds hex text rather than raw bytes",
           long "raw" "Report raw instruction forms only, no aliases",
           long "no-inline-bytes"
             "Fail on words no template accepts instead of printing them as bytes",
           long "start <START>" "Address of the first byte [default: 0]",
           traceRow,
           helpRow])] }
  | config =>
    { about := "Print the default configuration as TOML"
      usage := "cpsjit config [OPTIONS]"
      sections := [("Options", [traceRow, helpRow])] }
  | help =>
    { about := "Print this message or the help of the given subcommand(s)"
      usage := "cpsjit help [COMMAND]..."
      sections := [("Arguments", [("[COMMAND]...", "Print help for the subcommand(s)")])] }

end CommandLine
end StackCompiler
