/-
The configuration of the compiler. Every setting has a default.
-/
import StackCompiler.Cache.Basic
import StackCompiler.Graph.Optimize
import StackCompiler.Machine.Disassembler

namespace StackCompiler

/-- The marking stack. -/
structure MarkingConfig where
  capacity : Nat := 1024
  /-- How much of the stack may be used before it drains. -/
  percent : Nat := 75
deriving DecidableEq, Repr, Inhabited

/-- How methods are compiled. -/
structure CompilerConfig where
  optimizer : OptimizerOptions := {}
  /-- Leaves calls unlinked until all methods are compiled. -/
  bootImage : Bool := false
  /-- How many methods may be compiled at a time; zero leaves the choice open. -/
  workers : Nat := 0
deriving DecidableEq, Repr, Inhabited

/-- How code is listed. -/
structure DisassemblerConfig where
  bytesForInvalid : Bool := true
  preference : Preference := .synthetic
deriving DecidableEq, Repr, Inhabited

/-- All that can be configured. -/
structure Config where
  cache : CacheConfig := {}
  marking : MarkingConfig := {}
  compiler : CompilerConfig := {}
  disassembler : DisassemblerConfig := {}
deriving DecidableEq, Repr, Inhabited

/-- Why a configuration is refused. -/
inductive ConfigError where
  | read (path reason : String)
  | parse (path reason : String)
  | invalid (reason : String)
deriving DecidableEq, Repr

def ConfigError.message : ConfigError → String
  | read path reason => s!"failed to read {path}: {reason}"
  | parse path reason => s!"failed to parse {path}: {reason}"
  | invalid reason => s!"invalid configuration: {reason}"

namespace Config

/-- The first rule that the settings break. -/
def fault? (c : Config) : Option String :=
  if c.cache.regionSize = 0 ∨ c.cache.bootRegionSize = 0 then
    some "code cache region sizes must be non-zero"
  else if c.cache.regionCount > maxRuntimeRegions then
    some s!"region_count {c.cache.regionCount} exceeds {maxRuntimeRegions}"
  else if !(c.cache.windowSize?.any (· ≤ callReach)) then
    some s!"code window exceeds the {callReach / 0x100000} MiB call reach"
  else if c.marking.capacity < 2 then
    some "marking stack capacity must be at least 2"
  else if c.marking.percent = 0 ∨ c.marking.percent > 100 then
    some "drain_threshold_percent must be within 1..=100"
  else if c.compiler.optimizer.inlineLimit = 0 ∧ c.compiler.optimizer.inlines = true then
    some "inline_max_nodes must be non-zero when inlining"
  else none

def validate (c : Config) : Except ConfigError Unit :=
  match c.fault? with
  | some reason => .error (.invalid reason)
  | none => .ok ()

end Config
end StackCompiler
