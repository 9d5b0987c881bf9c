/-
From linear code to an installed method: the code is emitted, literals get
their places, the tables of stops, handlers and references are made, and the
bundle is placed in the code cache. Nothing is placed before the bundle is
complete.
-/
import StackCompiler.Bundle.Literals
import StackCompiler.Cache.Link
import StackCompiler.Emission.Code

namespace StackCompiler

open Convention

def StopKind.rank : StopKind → Nat
  | direct .. => 0
  | indirect => 1
  | safepoint => 2

namespace Bundle

/-- Direct calls, then indirect calls, then safepoints, each in the order of the code. -/
def orderStops (stops : List Stop) : List Stop :=
  stops.mergeSort fun a b => a.kind.rank ≤ b.kind.rank

/-- Sets the bit of native calls at the last stop that has the position of a native call. -/
def markNative (positions marked : List Nat) (s : Stop) : List Nat :=
  match s.kind, positions.zipIdx.reverse.lookup s.position with
  | .direct _ true, some i => marked.modify i (· ||| nativeBit)
  | _, _ => marked

def stopPositionsOf (stops : List Stop) : List Nat :=
  let positions := stops.map (·.position)
  stops.foldl (markNative positions) positions

def calleesOf (stops : List Stop) : List MethodKey :=
  stops.filterMap fun s =>
    match s.kind with
    | .direct callee _ => some callee
    | _ => none

/-- The maps of the frame for all stops, then those of registers for safepoints. -/
def referenceMaps (frameMapBytes : Nat) (stops : List Stop) : List UInt8 :=
  stops.flatMap (fun s => bitmap frameMapBytes s.slots)
    ++ (stops.filter (·.kind = .safepoint)).flatMap fun s =>
      bitmap Convention.registerMapBytes s.registers

/-- The positions of handlers. Position zero stands for no handler, so none may be there. -/
def catchBlocks (method : String) (b : Buffer) :
    List (Option Label) → Except CodegenError (List Nat)
  | [] => .ok []
  | none :: rest => (catchBlocks method b rest).map (0 :: ·)
  | some label :: rest =>
    match b.position label with
    | .error e => .error (.assembly e)
    | .ok position =>
      if position = 0 then .error (.catchAtZero method)
      else (catchBlocks method b rest).map (position :: ·)

def catchTableOf (method : String) (e : Emission) : Except CodegenError CatchTable :=
  let ranges := e.ranges.toList
  (catchBlocks method e.buffer (ranges.map (·.2))).map fun blocks => ⟨ranges.map (·.1), blocks⟩

def fixLabels (b : Buffer) : List (Label × Nat) → Except CodegenError Buffer
  | [] => .ok b
  | (label, address) :: rest =>
    match b.fix label address with
    | .ok b => fixLabels b rest
    | .error e => .error (.assembly e)

/-- Makes a bundle: literals get their slots, then code its distances. -/
def ofEmission (m : Linear.Method) (a : Allocation) (e : Emission) :
    Except CodegenError Bundle := do
  let method := m.key.text
  let used := e.pool.map fun (id, label) => (m.literals.getD id default, label)
  let pool ← LiteralPool.pack used
  let alignment := bundleAlignment
  let literals : Layout := ⟨pool.scalarBytes.size, pool.referenceBytes, 0, alignment⟩
  let codeOffset := literals.offset .code
  let addresses := pool.addresses (literals.offset .scalars) (literals.offset .references)
  let buffer ← fixLabels e.buffer addresses
  let (buffer, finished) := { buffer with start := codeOffset }.finish
  let code ← match finished with
    | .ok code => .ok code
    | .error err => .error (.assembly err)
  let stops := orderStops e.stops.toList
  let catchTable ← catchTableOf method { e with buffer }
  let frameMapBytes := (a.slots + 7) / 8
  .ok {
    codeOffset
    frameSize := Emission.frameSize a
    scalars := pool.scalarBytes
    references := pool.references.map (·.2)
    code
    stopPositions := stopPositionsOf stops
    callees := calleesOf stops
    indirectCalls := (stops.filter (·.kind = .indirect)).length
    safepoints := (stops.filter (·.kind = .safepoint)).length
    frameMapBytes
    registerMapBytes := Convention.registerMapBytes
    maps := (referenceMaps frameMapBytes stops).toArray
    descriptors := (stops.flatMap fun s => Leb128.encode s.bci).toArray
    catchTable
    inlineData := InlineRun.encodeAll e.inlineData }

def image (b : Bundle) (l : Layout) : Bytes :=
  let bytes := Array.replicate l.size 0
  let bytes := Bytes.overwrite bytes (l.offset .scalars) b.scalars.toList
  let handles := b.references.flatMap fun r =>
    Bytes.littleEndian referenceSize r.handle.toNat
  let bytes := Bytes.overwrite bytes (l.offset .references) handles
  Bytes.overwrite bytes (l.offset .code) b.code.toList

/-- The layout that the convention of the machine gives. -/
def ownLayout (b : Bundle) : Layout :=
  b.layout referenceSize bundleAlignment

end Bundle

namespace CodeCache

/-- Places a bundle, publishes it as the code of a method and installs it. -/
def installBundle (s : CodeCache) (key : MethodKey) (b : Bundle) (link : Bool) :
    Except CodegenError CompiledMethod × CodeCache :=
  let layout := b.ownLayout
  match s.allocate layout.size bundleAlignment with
  | (.error e, s) => (.error (.cache e), s)
  | (.ok place, s) =>
    match CompiledMethod.publish { key } { b with region := place.region, start := place.start } with
    | .error e => (.error e, s)
    | .ok m =>
      let derived := m.bundle.ownLayout
      if derived ≠ layout ∨ derived.size ≠ place.size then
        (.error (.bundleSizeMismatch key.text place.size derived.size), s)
      else
        match s.install m (m.bundle.image layout) link with
        | (.error e, s) => (.error (.cache e), s)
        | (.ok (), s) => (.ok m, s)

/-- Makes the code of a method and installs it. -/
def generate (s : CodeCache) (m : Linear.Method) (a : Allocation) (link : Bool) :
    Except CodegenError CompiledMethod × CodeCache :=
  match Emission.ofMethod m a with
  | .error e => (.error e, s)
  | .ok e =>
    match Bundle.ofEmission m a e with
    | .error e => (.error e, s)
    | .ok b => s.installBundle m.key b link

end CodeCache
end StackCompiler
