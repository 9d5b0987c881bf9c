/-
Installation and linking. A linked call goes to the newest version of its
callee; a call whose callee is not installed waits. Calls of native functions
are not linked here.
-/
import StackCompiler.Cache.Basic
import StackCompiler.Machine.Opcode

namespace StackCompiler.CodeCache

/-- The direct calls of a method that are not native. -/
def callSitesOf (m : CompiledMethod) : List CallSite :=
  m.bundle.callees.zipIdx.filterMap fun (callee, index) =>
    if m.isNativeCall index then none
    else (m.stopPosition? index).map fun position => ⟨callee, m.codeStart + position⟩

def recordCallSites (s : CodeCache) (m : CompiledMethod) : CodeCache :=
  { s with callSites := s.callSites ++ callSitesOf m }

def patch (s : CodeCache) (address target : Nat) : Except CacheError Unit × CodeCache :=
  match encodeCall address target with
  | .error e => (.error (.link e), s)
  | .ok word =>
    match s.offsetOf address with
    | .error e => (.error e, s)
    | .ok offset =>
      match s.window.writeWord offset word with
      | .error e => (.error (.memory e), s)
      | .ok window => (.ok (), { s with window })

/-- Writes call instructions in order; the first that fails stops. -/
def patchAll (s : CodeCache) : List (Nat × Nat) → Except CacheError Unit × CodeCache
  | [] => (.ok (), s)
  | (address, target) :: rest =>
    match s.patch address target with
    | (.ok (), s) => s.patchAll rest
    | (.error e, s) => (.error e, s)

/-- Points every recorded call of a method at its newest version; the result is their number. -/
def linkCallersOf (s : CodeCache) (key : MethodKey) : Except CacheError Nat × CodeCache :=
  match s.newest? key with
  | none => (.ok 0, s)
  | some m =>
    let sites := s.callSites.filter (·.callee = key)
    match s.patchAll (sites.map fun site => (site.address, m.codeStart)) with
    | (.ok (), s) => (.ok sites.length, s)
    | (.error e, s) => (.error e, s)

def linkCalleesOf (s : CodeCache) (m : CompiledMethod) : Except CacheError Unit × CodeCache :=
  s.patchAll ((callSitesOf m).filterMap fun site =>
    (s.newest? site.callee).map fun callee => (site.address, callee.codeStart))

/-- Links the callers of a method that was just installed, then its own calls. -/
def linkInstalled (s : CodeCache) (m : CompiledMethod) : Except CacheError Unit × CodeCache :=
  match (s.recordCallSites m).linkCallersOf m.key with
  | (.error e, s) => (.error e, s)
  | (.ok _, s) => s.linkCalleesOf m

def enter (s : CodeCache) (m : CompiledMethod) : Option CodeCache :=
  match s.region? m.bundle.region with
  | some r => some ((s.setRegion m.bundle.region (r.insert m)).push m)
  | none => none

/-- Copies a bundle to its place and makes the method findable; links its calls now or later. -/
def install (s : CodeCache) (m : CompiledMethod) (image : Bytes) (link : Bool) :
    Except CacheError Unit × CodeCache :=
  if m.isGenerated = false then (.error (.notGenerated m.key.text), s)
  else
    match s.offsetOf m.start with
    | .error e => (.error e, s)
    | .ok offset =>
      match s.window.write offset image with
      | .error e => (.error (.memory e), s)
      | .ok window =>
        let s := { s with window }
        match s.enter m with
        | none => (.error (.outsideWindow m.start), s)
        | some s =>
          if link then s.linkInstalled m
          else (.ok (), { s with unlinked := s.unlinked ++ [m] })

/-- Links the callers of the given methods in order; the result is the number of calls. -/
def linkIn (s : CodeCache) (count : Nat) : List MethodKey → Except CacheError Nat × CodeCache
  | [] => (.ok count, s)
  | key :: rest =>
    match s.linkCallersOf key with
    | (.error e, s) => (.error e, s)
    | (.ok n, s) => s.linkIn (count + n) rest

/-- The methods that are called, in the order in which their calls were recorded. -/
def calledKeys (s : CodeCache) : List MethodKey := (s.callSites.map (·.callee)).eraseDups

/-- Links all methods that wait, and counts their calls. -/
def linkAll (s : CodeCache) : Except CacheError Nat × CodeCache :=
  let s := { s.unlinked.foldl recordCallSites s with unlinked := [] }
  s.linkIn 0 s.calledKeys

end StackCompiler.CodeCache
