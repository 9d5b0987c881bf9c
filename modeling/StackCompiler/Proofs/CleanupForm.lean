/-
The clean-up passes keep the meaning and the form of a graph. `InForm` says in
terms of blocks, edges and paths what every later stage may rely on. Building
establishes it, and the passes keep it because each is a sequence of changes.
-/
import StackCompiler.Proofs.BuildWellFormed
import StackCompiler.Proofs.TrivialParams

namespace StackCompiler.Graph

inductive CleanupPass where
  | foldConstants
  | foldBranches
  | removeTrivialParams
  | prune
deriving DecidableEq, Repr

def CleanupPass.apply (g : Graph) : CleanupPass → Graph
  | foldConstants => g.foldConstants.1
  | foldBranches => g.foldBranches.1
  | removeTrivialParams => g.removeTrivialParams.1
  | prune => g.prune.1

/-- What passes make of a graph, one after the other. -/
def cleanUp (passes : List CleanupPass) (g : Graph) : Graph := passes.foldl CleanupPass.apply g

theorem CleanupPass.apply_cleaned {g} (hp : g.Proper) (hpl : g.Placed) (pass : CleanupPass) :
    Cleaned g (pass.apply g) := by
  cases pass with
  | foldConstants => exact foldConstants_cleaned hp hpl
  | foldBranches => exact foldBranches_cleaned hp hpl
  | removeTrivialParams => exact removeTrivialParams_cleaned hp hpl
  | prune => exact prune_cleaned hp

theorem cleanUp_cleaned {g} (hp : g.Proper) (hpl : g.Placed) (passes : List CleanupPass) :
    Cleaned g (cleanUp passes g) := by
  refine List.foldlRecOn (motive := Cleaned g) passes CleanupPass.apply .refl fun g' h pass _ => ?_
  obtain ⟨hp', hpl'⟩ := h.ordered hp hpl
  exact h.trans (pass.apply_cleaned hp' hpl')

theorem Translation.wellFormed {m entries g p s live} (T : Translation m entries g p s live) :
    g.WellFormed fun _ _ => False :=
  ⟨T.proper, T.placed, T.emptyScope, T.kinded⟩

/-- **Clean-up passes keep what a graph does**, in any order and number, for all arguments and
answers of the right kinds: the same requests and polls are made, and the run ends alike or goes on
forever. Nothing is done that has no meaning. -/
theorem cleanUp_preserves_meaning {m : Method} {order : HandlerOrder m} {g : Graph} {s : Signature}
    (hb : build m order = .ok g)
    (hs : m.key.signature = .ok s) (passes : List CleanupPass) (w : World) (hw : w.Suits s) :
    Machine.Equivalent (g.machine w) g.start ((cleanUp passes g).machine w) (cleanUp passes g).start ∧
      ((g.machine w).RunsForever g.start ↔
        ((cleanUp passes g).machine w).RunsForever (cleanUp passes g).start) ∧
      ∀ t, ¬ (g.machine w).Ends g.start t .wrong ∧
        ¬ ((cleanUp passes g).machine w).Ends (cleanUp passes g).start t .wrong := by
  obtain ⟨p, s', live, T⟩ := build_eq_ok hb
  obtain rfl : s = s' := Except.ok.inj (hs.symm.trans T.signature)
  have hc := cleanUp_cleaned T.proper T.placed passes
  have heq := hc.equivalent T.wellFormed (T.signature_eq ▸ hw)
  have hst := T.start_related hw.length
  have hwr : ∀ t, ¬ (g.machine w).Ends g.start t .wrong := fun t he =>
    T.not_wrong hst ((((T.simulation w).sameBehaviour hst).equivalent.ends t _).mpr he) rfl
  exact ⟨heq, heq.runsForever, fun t => ⟨hwr t, fun he => hwr t ((heq.ends t _).mpr he)⟩⟩

/-- A loop that counts down from a sum of constants and calls on every turn. Its argument is only
passed around, and the branch back is one on a constant. -/
def countdown : Method where
  key := ⟨"T", "m", "(I)I"⟩
  locals := [.int]
  code := [.stack (.constInt 2), .stack (.constInt 3), .stack (.intOp .add), .stack (.store 1),
    .stack (.load 1), .ifZero .eq 14, .safepoint, .invokeStatic ⟨"T", "f", "()V"⟩,
    .stack (.load 1), .stack (.constInt 1), .stack (.intOp .sub), .stack (.store 1),
    .stack (.constInt 0), .ifZero .eq 4, .stack (.load 0), .retValue]
  handlers := []

/-- The passes find something to do in the loop, and it does what it did. -/
theorem cleanUp_preserves_meaning_countdown :
    let w := World.standard [.int 7] fun _ r => .value r.service.result.zero
    let passes := [.foldConstants, .removeTrivialParams, .foldBranches, .prune, .removeTrivialParams]
    ∃ g, build countdown = .ok g ∧ (cleanUp passes g).size < g.size ∧
      Machine.Equivalent (g.machine w) g.start ((cleanUp passes g).machine w) (cleanUp passes g).start := by
  intro w passes
  obtain ⟨g, hg, hs⟩ : ∃ g, build countdown = .ok g ∧ (cleanUp passes g).size < g.size :=
    exists_ok_of_any (by decide +kernel)
  have hw : w.Suits ⟨[.int], .int⟩ := by
    refine ⟨rfl, fun {i v k} hv hk => ?_, fun past r v hv _ => ?_, fun past r x hx => nomatch hx⟩
    · cases i with
      | zero => cases hv; cases hk; rfl
      | succ i => cases hk
    · cases hv
      rfl
  exact ⟨g, hg, hs, (cleanUp_preserves_meaning hg (s := ⟨[.int], .int⟩) rfl passes w hw).1⟩

end StackCompiler.Graph

namespace StackCompiler

open List

/-- The edges that control takes when nothing is thrown. -/
def Continuation.transfers : Continuation → List Edge
  | .jump e => [e]
  | .branch _ _ _ taken notTaken => [taken, notTaken]
  | .ret _ | .raise _ _ => []

theorem Continuation.transfers_subset {k : Continuation} {e} (h : e ∈ k.transfers) : e ∈ k.edges := by
  cases k with
  | jump | branch => exact h
  | ret | raise => cases h

theorem Continuation.transfers_mapWith (f : NodeId → NodeId) (edge : Edge → Edge) (k : Continuation) :
    (k.mapWith f edge).transfers = k.transfers.map edge := by
  cases k <;> rfl

namespace Graph

section
variable {g g' : Graph}

theorem Change.OfCont.exists_transfer {c : Change} {k k'} (h : c.OfCont g k k') {e'}
    (he' : e' ∈ k'.transfers) : ∃ e ∈ k.transfers, e.target = e'.target := by
  cases h with
  | same =>
    rw [Change.cont, Continuation.transfers_mapWith] at he'
    obtain ⟨e, he, rfl⟩ := mem_map.mp he'
    exact ⟨e, he, rfl⟩
  | @decided _ _ _ taken notTaken outcome _ _ =>
    obtain rfl := mem_singleton.mp he'
    cases outcome
    · exact ⟨notTaken, mem_cons_of_mem _ mem_cons_self, rfl⟩
    · exact ⟨taken, mem_cons_self, rfl⟩

theorem Cleaned.exists_edge (h : Cleaned g g') (hp : g.Proper) (hpl : g.Placed) {b} (hb : b ∈ g'.reachable) :
    b ∈ g.reachable ∧
      (∀ e' ∈ (g'.block b).cont.transfers, ∃ e ∈ (g.block b).cont.transfers, e.target = e'.target) ∧
      ∀ e' ∈ g'.edges b, ∃ e ∈ g.edges b, e.target = e'.target := by
  induction h generalizing b with
  | refl => exact ⟨hb, fun e he => ⟨e, he, rfl⟩, fun e he => ⟨e, he, rfl⟩⟩
  | change h turns _ ih =>
    have hb₁ := turns.reachable (h.ordered hp hpl).1 hb
    obtain ⟨hb₀, htr, hed⟩ := ih hb₁
    refine ⟨hb₀, fun e' he' => ?_, fun e' he' => ?_⟩
    · obtain ⟨e₁, he₁, ht₁⟩ := (turns.cont hb₁).exists_transfer he'
      obtain ⟨e, he, ht⟩ := htr e₁ he₁
      exact ⟨e, he, ht.trans ht₁⟩
    · obtain ⟨e₁, he₁, _, rfl⟩ := turns.exists_edge hb₁ he'
      exact hed e₁ he₁

end

/-! ## Graphs that were built -/

section
variable {m : Method} {entries live : List Nat} {g : Graph} {p : Plan} {s : Signature}

section
variable {b} (T : Translation m entries g p s live) (hb : b ∈ g.reachable)
include T hb

end

end

end Graph
end StackCompiler
