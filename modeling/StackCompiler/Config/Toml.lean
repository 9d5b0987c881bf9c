/-
Configurations as TOML documents: a table per section. Missing sections and
settings have their defaults, others are ignored.
-/
import StackCompiler.Config
import StackCompiler.Text.Utf8
import StackCompiler.Toml.Reader

namespace StackCompiler

def Toml.setting? {α : Type} (read : Toml → Option α) (missing : α) : Option Toml → Option α
  | none => some missing
  | some t => read t

open Toml in
def CacheConfig.ofToml? (t : Toml) : Option CacheConfig :=
  let d : CacheConfig := {}
  match t.fields? ["region_size", "region_count", "boot_region_size"] with
  | some [size, count, boot] => do
    let regionSize ← setting? nat? d.regionSize size
    let regionCount ← setting? nat? d.regionCount count
    let bootRegionSize ← setting? nat? d.bootRegionSize boot
    return { regionSize, regionCount, bootRegionSize }
  | _ => none

def Toml.byte? (t : Toml) : Option Nat := t.nat?.filter (· < 256)

open Toml in
def MarkingConfig.ofToml? (t : Toml) : Option MarkingConfig :=
  let d : MarkingConfig := {}
  match t.fields? ["capacity", "drain_threshold_percent"] with
  | some [cells, part] => do
    let capacity ← setting? nat? d.capacity cells
    let percent ← setting? byte? d.percent part
    return { capacity, percent }
  | _ => none

open Toml in
def CompilerConfig.ofToml? (t : Toml) : Option CompilerConfig :=
  let d : CompilerConfig := {}
  let names := ["inline", "inline_max_nodes", "fold_constants", "building_boot_image", "workers"]
  match t.fields? names with
  | some [inline, limit, fold, boot, threads] => do
    let inlines ← setting? bool? d.optimizer.inlines inline
    let inlineLimit ← setting? nat? d.optimizer.inlineLimit limit
    let folds ← setting? bool? d.optimizer.folds fold
    let bootImage ← setting? bool? d.bootImage boot
    let workers ← setting? nat? d.workers threads
    return { optimizer := { inlines, inlineLimit, folds }, bootImage, workers }
  | _ => none

open Toml in
def DisassemblerConfig.ofToml? (t : Toml) : Option DisassemblerConfig :=
  let d : DisassemblerConfig := {}
  match t.fields? ["inline_invalid_as_bytes", "preference"] with
  | some [bytes, style] => do
    let bytesForInvalid ← setting? bool? d.bytesForInvalid bytes
    let preference ← setting? (·.keyword?.bind Preference.ofKeyword?) d.preference style
    return { bytesForInvalid, preference }
  | _ => none

namespace Config
open Toml

def ofToml? (t : Toml) : Option Config :=
  match t.fields? ["code_cache", "marking_stack", "compiler", "disassembler"] with
  | some [code, stack, compilation, listing] => do
    let cache ← setting? CacheConfig.ofToml? {} code
    let marking ← setting? MarkingConfig.ofToml? {} stack
    let compiler ← setting? CompilerConfig.ofToml? {} compilation
    let disassembler ← setting? DisassemblerConfig.ofToml? {} listing
    return { cache, marking, compiler, disassembler }
  | _ => none

def sections (c : Config) : List (String × List (String × String)) :=
  [("code_cache",
    [("region_size", toString c.cache.regionSize),
     ("region_count", toString c.cache.regionCount),
     ("boot_region_size", toString c.cache.bootRegionSize)]),
   ("marking_stack",
    [("capacity", toString c.marking.capacity),
     ("drain_threshold_percent", toString c.marking.percent)]),
   ("compiler",
    [("inline", toString c.compiler.optimizer.inlines),
     ("inline_max_nodes", toString c.compiler.optimizer.inlineLimit),
     ("fold_constants", toString c.compiler.optimizer.folds),
     ("building_boot_image", toString c.compiler.bootImage),
     ("workers", toString c.compiler.workers)]),
   ("disassembler",
    [("inline_invalid_as_bytes", toString c.disassembler.bytesForInvalid),
     ("preference", "\"" ++ c.disassembler.preference.keyword ++ "\"")])]

def sectionLines : String × List (String × String) → List String
  | (name, settings) => s!"[{name}]" :: settings.map fun (key, text) => s!"{key} = {text}"

/-- The lines of a document, with an empty one between two sections. -/
def tomlLines (c : Config) : List String := [""].intercalate (c.sections.map sectionLines)

def toToml (c : Config) : String := String.join (c.tomlLines.map (· ++ "\n"))

def parse (path text : String) : Except ConfigError Config :=
  match Toml.parse? text with
  | none => .error (.parse path "not a TOML document")
  | some t =>
    match ofToml? t with
    | none => .error (.parse path "a setting has the wrong type")
    | some c => .ok c

/-- Reads a usable configuration; `read` gives the content of a file or why there is none. -/
def load (read : String → Except String Bytes) (path : String) : Except ConfigError Config :=
  match read path with
  | .error reason => .error (.read path reason)
  | .ok bytes =>
    match Utf8.decode bytes with
    | .error _ => .error (.read path "stream did not contain valid UTF-8")
    | .ok text => do
      let c ← parse path text
      c.validate
      return c

end Config
end StackCompiler
