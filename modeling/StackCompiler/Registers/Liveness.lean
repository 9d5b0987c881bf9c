/-
Which variables are live: whose value may still be read. A block under a
handler may leave to the handler at each of its calls, so what is live at the
start of the handler is live at every call of the block.
-/
import StackCompiler.Registers.VarSet

namespace StackCompiler

namespace Linear

/-- What is live while an instruction runs: not its result, and for a call what the handler needs. -/
def Insn.liveAt (handlerIn : VarSet) (i : Insn) (after : VarSet) : VarSet :=
  let live := match i.def? with
    | some v => after.erase v
    | none => after
  if i.isCall then live.union handlerIn else live

def Insn.liveBefore (handlerIn : VarSet) (i : Insn) (after : VarSet) : VarSet :=
  (i.liveAt handlerIn after).insertAll i.uses

def liveBefore (handlerIn : VarSet) (insns : List Insn) (after : VarSet) : VarSet :=
  insns.foldr (Insn.liveBefore handlerIn) after

/-- The variables that live across a stop. -/
structure LivePoint where
  index : Nat
  isCall : Bool
  live : VarSet
deriving DecidableEq, Repr

/-- What is live before some instructions, from the given index on, and at their calls and safepoints. -/
def livePoints (handlerIn : VarSet) (after : VarSet) : Nat → List Insn → VarSet × List LivePoint
  | _, [] => (after, [])
  | index, i :: rest =>
    let (live, points) := livePoints handlerIn after (index + 1) rest
    let here := i.liveAt handlerIn live
    let points := if i.isStop then ⟨index, i.isCall, here⟩ :: points else points
    (here.insertAll i.uses, points)

end Linear

/-- The variables that live at both ends of each block. -/
structure Liveness where
  ins : Array VarSet
  outs : Array VarSet
deriving DecidableEq, Repr

namespace Liveness

def empty (blocks : Nat) : Liveness :=
  ⟨Array.replicate blocks .empty, Array.replicate blocks .empty⟩

/-- What lives at the start of a block. -/
def liveIn (l : Liveness) (block : Nat) : VarSet := l.ins.getD block .empty

/-- What lives at the end of a block. -/
def liveOut (l : Liveness) (block : Nat) : VarSet := l.outs.getD block .empty

def handlerIn (l : Liveness) (b : Linear.Block) : VarSet :=
  match b.handler with
  | some h => l.liveIn h
  | none => .empty

/-- What is live at the end of a block, from the starts of its successors. -/
def blockOut (l : Liveness) (b : Linear.Block) : VarSet :=
  b.successors.foldl (fun s succ => s.union (l.liveIn succ)) .empty

def afterInsns (b : Linear.Block) (out : VarSet) : VarSet := out.insertAll b.term.uses

def blockIn (l : Liveness) (b : Linear.Block) (out : VarSet) : VarSet :=
  Linear.liveBefore (l.handlerIn b) b.insns (afterInsns b out)

def update (m : Linear.Method) (id : Nat) (l : Liveness) : Liveness :=
  let b := m.blocks.getD id default
  let out := l.blockOut b
  ⟨l.ins.setIfInBounds id (l.blockIn b out), l.outs.setIfInBounds id out⟩

/-- Looks at every block once, the last one first. -/
def round (m : Linear.Method) (l : Liveness) : Liveness :=
  (List.range m.blocks.size).foldr (update m) l

def iterate (m : Linear.Method) : Nat → Liveness → Liveness
  | 0, l => l
  | fuel + 1, l =>
    let next := round m l
    if next = l then l else iterate m fuel next

/-- The least solution. Every round but the last adds a variable to a set, and no set loses
one. -/
def compute (m : Linear.Method) : Liveness :=
  iterate m (2 * m.blocks.size * m.varBound + 1) (empty m.blocks.size)

def stops (l : Liveness) (b : Linear.Block) (id : Nat) : List Linear.LivePoint :=
  (Linear.livePoints (l.handlerIn b) (afterInsns b (l.liveOut id)) 0 b.insns).2

def allStops (l : Liveness) (m : Linear.Method) : Array (List Linear.LivePoint) :=
  m.blocks.mapIdx fun id b => l.stops b id

def acrossCalls (stops : Array (List Linear.LivePoint)) : VarSet :=
  let calls := stops.toList.flatten.filter (·.isCall)
  calls.foldl (fun s point => s.union point.live) .empty

end Liveness
end StackCompiler
