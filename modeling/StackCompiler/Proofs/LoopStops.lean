/-
Every loop passes a call or a poll, where the collector may run. In a graph, a
block that is left to a block with no larger number polls before it ends
(`Polling`).
-/
import StackCompiler.Proofs.BuildKinds
import StackCompiler.Proofs.CatchEdges
import StackCompiler.Proofs.CleanupForm
import StackCompiler.Proofs.LowerLayout
import StackCompiler.Proofs.ReferenceMaps

namespace StackCompiler

open List

/-! ## Blocks that poll -/

namespace Graph

/-- Block `b` has a poll. -/
def Polls (g : Graph) (b : BlockId) : Prop := ∃ n ∈ (g.block b).body, (g.node n).op = .safepoint

/-- Of the given blocks, those that are left to a block that comes no later have a poll. -/
def Polling (g : Graph) (blocks : List BlockId) : Prop :=
  ∀ b ∈ blocks, ∀ e ∈ (g.block b).cont.transfers, b < e.target ∨ g.Polls b

/-! ## Building -/

theorem Outline.block?_lt {m pc pc' b b'} (h : (Outline.of m).block? pc = some b)
    (h' : (Outline.of m).block? pc' = some b') (hlt : pc < pc') : b < b' := by
  obtain ⟨hm, rfl⟩ := block?_eq_some.mp h
  obtain ⟨hm', rfl⟩ := block?_eq_some.mp h'
  have hs : (Outline.of m).leaders.Pairwise (· < ·) := List.Pairwise.filter _ pairwise_lt_range
  refine Nat.succ_lt_succ (Nat.lt_of_not_le fun hle => ?_)
  rcases Nat.eq_or_lt_of_le hle with heq | hb
  · exact Nat.ne_of_lt hlt ((idxOf_inj hm').mp heq).symm
  · have hg := pairwise_iff_getElem.mp hs _ _ (idxOf_lt_length_of_mem hm')
      (idxOf_lt_length_of_mem hm) hb
    rw [getElem_idxOf, getElem_idxOf] at hg
    omega

/-- The block so far has a poll. -/
def Cursor.Polls (c : Cursor) : Prop :=
  ∃ n ∈ c.body.toList, n < c.graph.nodes.size ∧ (c.graph.node n).op = .safepoint

namespace Plan

variable {p : Plan} {start pc : Nat} {c c' : Cursor}

theorem poll_polls (c : Cursor) (pc target : Nat) : pc < target ∨ (poll c pc target).Polls := by
  refine poll_cases (P := fun c' => pc < target ∨ c'.Polls) (fun _ => .inr ?_) .inl
  refine ⟨c.graph.nodes.size, ?_, c.append_fst_lt _, congrArg Node.op (c.append_node_self _)⟩
  simp [Cursor.addPoll, Cursor.append_body]

theorem step_targets {insn exit} (hs : StepSpec p c pc insn c' (some exit)) :
    ∀ t ∈ exit.targets, pc < t ∨ c'.Polls := by
  intro t ht
  cases hs with
  | jump target =>
    rw [mem_singleton.mp ht]
    exact poll_polls _ _ _
  | branchConst _ _ _ _ target | branchCompare _ _ _ _ target =>
    rcases mem_pair.mp ht with rfl | rfl
    · exact poll_polls _ _ _
    · exact .inl (Nat.lt_succ_self pc)
  | raise | ret | retValue => cases ht

theorem Runs.targets {exit} (h : p.Runs start pc c c' exit) (hle : start ≤ pc) :
    ∀ t ∈ exit.targets, start < t ∨ c'.Polls := by
  induction h with
  | leader hne =>
    intro t ht
    rw [mem_singleton.mp ht]
    exact .inl (Nat.lt_of_le_of_ne hle (Ne.symm hne))
  | exit _ _ hs => exact fun t ht => (step_targets hs t ht).imp_left (Nat.lt_of_le_of_lt hle)
  | next _ _ _ _ ih => exact ih (Nat.le_succ_of_le hle)

end Plan

theorem Plan.Closes.exists_target {p : Plan} {exit} {k} {g live frame}
    (h : p.Closes g live frame exit k) {e} (he : e ∈ k.transfers) :
    ∃ t ∈ exit.targets, p.outline.block? t = some e.target := by
  cases h with
  | jump _ hen =>
    rw [mem_singleton.mp he]
    exact ⟨_, mem_singleton.mpr rfl, hen.block⟩
  | branch _ ht _ hn =>
    rcases mem_pair.mp he with rfl | rfl
    · exact ⟨_, mem_cons_self, ht.block⟩
    · exact ⟨_, mem_cons_of_mem _ mem_cons_self, hn.block⟩
  | ret | raise => cases he

theorem Translation.polling {m entries live g p s} (T : Translation m entries g p s live) :
    g.Polling g.reachable := by
  intro b hb e he
  have ho := T.outline
  rcases (T.blockValid hb).2 with rfl | ⟨pc, hpc, hbl⟩
  · obtain ⟨base, e', hen⟩ := T.entered
    rw [hen.cont] at he
    rw [mem_singleton.mp he]
    exact .inl (Outline.block?_pos (ho ▸ hen.enters.block)).1
  · obtain ⟨⟨d, base, c, exit, hr⟩, -⟩ := T.built hpc hbl
    obtain ⟨t, ht, hta⟩ := hr.cont.exists_target he
    rw [ho] at hbl hta
    refine (hr.run.targets (Nat.le_refl pc) t ht).imp (Outline.block?_lt hbl hta) ?_
    rintro ⟨n, hn, hlt, hop⟩
    exact ⟨n, hr.body ▸ hn, (congrArg Node.op (hr.graph.node n hlt)).trans hop⟩

/-! ## Passes -/

section
variable {g g' : Graph}

variable {c : Change}

theorem Change.Turns.polls (h : c.Turns g g') {b} (hb : b ∈ g.reachable) (hpo : g.Polls b) : g'.Polls b := by
  obtain ⟨n, hn, hop⟩ := hpo
  have hk : c.kept n = true := by
    refine Bool.eq_true_of_not_eq_false fun hg => ?_
    have hpu := h.pure hb hn hg
    rw [hop] at hpu
    cases hpu
  refine ⟨n, h.body hb ▸ mem_filter.mpr ⟨hn, hk⟩, ?_⟩
  have hno := h.node hb hn hk
  generalize g'.node n = n' at hno ⊢
  cases hno with
  | same => exact congrArg (Operator.mapInputs c.rename) hop
  | folded hv =>
    rw [hop] at hv
    cases hv

theorem Change.Turns.polling (h : c.Turns g g') (hp : g.Proper) (hpolling : g.Polling g.reachable) :
    g'.Polling g'.reachable := by
  intro b hb e' he'
  have hb := h.reachable hp hb
  obtain ⟨e, he, ht⟩ := (h.cont hb).exists_transfer he'
  rw [← ht]
  exact (hpolling b hb e he).imp_right (h.polls hb)

theorem Refills.polls {b c f blocks} (h : Refills g g' b f) (hg : g.InOrder blocks) (hc : c ∈ blocks)
    (hpo : g.Polls c) : g'.Polls c := by
  obtain ⟨n, hn, hop⟩ := hpo
  refine ⟨n, ?_, ?_⟩
  · by_cases hcb : c = b
    · subst hcb
      exact h.body.keeps hn fun callee args => by simp [hop]
    · rwa [h.other hcb]
  · rw [h.node (hg.body hc hn), Node.mapNodes, hop]
    rfl

theorem Refills.polling {b f blocks} (h : Refills g g' b f) (hg : g.InOrder blocks) (hpolling : g.Polling blocks) :
    g'.Polling blocks := by
  intro c hc e' he'
  rw [h.cont, Continuation.mapNodes_eq, Continuation.transfers_mapWith] at he'
  obtain ⟨e, he, rfl⟩ := mem_map.mp he'
  exact (hpolling c hc e he).imp_right (h.polls hg hc)

theorem optimize_polling (hp : g.Proper) (hpl : g.Placed) (hpolling : g.Polling g.reachable)
    (options : OptimizerOptions) (provider : MethodProvider) :
    (g.optimize options provider).1.Proper ∧
      (g.optimize options provider).1.Polling (g.optimize options provider).1.reachable := by
  refine ⟨(optimize_ordered hp hpl options provider).1, ?_⟩
  exact optimize_keeps hp hpl options provider (fun hs hpolling b hb => hpolling b (hs b hb)) Refills.polling
    Change.Turns.polling hpolling

end

end Graph

namespace Linear

/-! ## The flow of control -/

/-- A place in linear code: before an instruction of a block, or behind all of them. -/
structure Point where
  block : Nat
  index : Nat
deriving DecidableEq, Repr

namespace Method

/-- Control goes on to the next instruction, from the end of a block where its terminator leads, or
from a call to the handler of its block. -/
inductive Goes (M : Method) : Point → Point → Prop
  | next {i k : Nat} {blk : Block} {insn : Insn} (hblk : M.blocks[i]? = some blk)
      (hinsn : blk.insns[k]? = some insn) : Goes M ⟨i, k⟩ ⟨i, k + 1⟩
  | leave {i j : Nat} {blk : Block} (hblk : M.blocks[i]? = some blk) (hj : j ∈ blk.term.successors) :
      Goes M ⟨i, blk.insns.length⟩ ⟨j, 0⟩
  | throw {i k h : Nat} {blk : Block} {insn : Insn} (hblk : M.blocks[i]? = some blk)
      (hinsn : blk.insns[k]? = some insn) (hcall : insn.isCall = true) (hh : blk.handler = some h) :
      Goes M ⟨i, k⟩ ⟨h, 0⟩

/-- At a place there is a call or a safepoint. -/
def StopsAt (M : Method) (p : Point) : Prop :=
  ∃ blk insn, M.blocks[p.block]? = some blk ∧ blk.insns[p.index]? = some insn ∧ insn.isStop = true

/-- Places from each of which control goes to the next one, and from the last one to the first. -/
structure Cycle (M : Method) (path : List Point) : Prop where
  nonempty : path ≠ []
  goes : ∀ k p q, path[k]? = some p → path[(k + 1) % path.length]? = some q → M.Goes p q

/-- Control goes from `p` to `q`, and `p` is no stop. -/
def Quiet (M : Method) (q p : Point) : Prop := M.Goes p q ∧ ¬ M.StopsAt p

theorem StopsAt.exists_stopIndex {M : Method} {p} (h : M.StopsAt p) :
    ∃ i, M.stopIndex? p.block p.index = some i := by
  obtain ⟨blk, insn, hblk, hin, hst⟩ := h
  obtain ⟨kind, bci, hk, -⟩ := Insn.stop?_of_isStop hst
  obtain ⟨hlt, hg⟩ := List.getElem?_eq_some_iff.mp hin
  have hs : blk.insns = blk.insns.take p.index ++ insn :: blk.insns.drop (p.index + 1) := by
    rw [← hg, getElem_cons_drop, take_append_drop]
  obtain ⟨i, hi, -⟩ := Linear.Method.exists_stopIndex hblk hs hk
  rw [length_take, Nat.min_eq_left (Nat.le_of_lt hlt)] at hi
  exact ⟨i, hi⟩

section
variable {M : Method}

theorem acc_of_stop {p} (h : M.StopsAt p) : Acc M.Quiet p := .intro _ fun _ hq => absurd h hq.2

variable {i : Nat} {blk : Block}

section
variable (hblk : M.blocks[i]? = some blk)
include hblk

theorem acc_of_next {k} (hk : k < blk.insns.length) (h : Acc M.Quiet ⟨i, k + 1⟩) :
    Acc M.Quiet ⟨i, k⟩ := by
  refine .intro _ fun q hq => ?_
  obtain ⟨hg, hqu⟩ := hq
  cases hg with
  | next => exact h
  | leave hb' =>
    cases hblk.symm.trans hb'
    exact absurd hk (Nat.lt_irrefl _)
  | throw hb' hi hc =>
    exact absurd ⟨_, _, hb', hi, Insn.isStop_of_isCall hc⟩ hqu

theorem acc_of_le {j k} (hle : k ≤ j) (hj : j ≤ blk.insns.length) (h : Acc M.Quiet ⟨i, j⟩) :
    Acc M.Quiet ⟨i, k⟩ := by
  induction j with
  | zero =>
    rw [Nat.le_zero.mp hle]
    exact h
  | succ j ih =>
    rcases Nat.eq_or_lt_of_le hle with rfl | hlt
    · exact h
    · exact ih (Nat.le_of_lt_succ hlt) (Nat.le_of_succ_le hj) (acc_of_next hblk hj h)

theorem acc_of_before {pre rest insn} (hi : blk.insns = pre ++ insn :: rest) (hs : insn.isStop = true) {k}
    (hk : k ≤ pre.length) : Acc M.Quiet ⟨i, k⟩ := by
  refine acc_of_le hblk hk (by simp [hi]) (acc_of_stop ⟨blk, insn, hblk, ?_, hs⟩)
  simp [hi]

/-- A block all of whose successors come to an end does so too, from every place on. -/
theorem acc_of_successors (h : ∀ j ∈ blk.term.successors, Acc M.Quiet ⟨j, 0⟩) (k : Nat) :
    Acc M.Quiet ⟨i, k⟩ := by
  have he : ∀ k, blk.insns.length ≤ k → Acc M.Quiet ⟨i, k⟩ := by
    intro k hk
    refine .intro _ fun q hq => ?_
    obtain ⟨hg, -⟩ := hq
    generalize hp : (⟨i, k⟩ : Point) = p at hg
    cases hg with
    | next hb' hi | throw hb' hi =>
      cases hp
      cases hblk.symm.trans hb'
      rw [getElem?_eq_none hk] at hi
      cases hi
    | leave hb' hj =>
      cases hp
      cases hblk.symm.trans hb'
      exact h _ hj
  rcases Nat.le_total k blk.insns.length with hle | hle
  · exact acc_of_le hblk hle (Nat.le_refl _) (he _ (Nat.le_refl _))
  · exact he k hle

end

end
end Method

/-! ## Code of a graph -/

section
variable {g : Graph} {M : Method} {S : Lowering} {start : BlockId → Nat} {reserved : Nat}
  {handler : Option Nat} {rest : List Insn} {term : Terminator} {nodes : List NodeId} {k : Continuation}

theorem EdgeTarget.acc {e t} (h : EdgeTarget M.blocks reserved S g start e t) (ha : Acc M.Quiet ⟨start e.target, 0⟩) :
    Acc M.Quiet ⟨t, 0⟩ := by
  obtain ⟨insns, -, ⟨-, rfl⟩ | ⟨-, -, hblk⟩⟩ := h
  · exact ha
  · refine Method.acc_of_successors hblk (fun j hj => ?_) 0
    rw [mem_singleton.mp hj]
    exact ha

section
variable (h : Follows M.blocks reserved S g start handler rest term nodes k)
include h

/-- Where a block ends, control comes to an end if it does so along all edges. -/
theorem Follows.acc_successors (ha : ∀ e ∈ k.transfers, Acc M.Quiet ⟨start e.target, 0⟩) :
    ∀ j ∈ term.successors, Acc M.Quiet ⟨j, 0⟩ := by
  induction h with
  | node _ _ _ ih | call _ _ _ _ ih => exact ih ha
  | split _ hb _ _ _ ih =>
    intro j hj
    rw [mem_singleton.mp hj]
    exact Method.acc_of_successors hb (ih ha) 0
  | jump =>
    intro j hj
    rw [mem_singleton.mp hj]
    exact ha _ mem_cons_self
  | branch _ _ ht ht' =>
    intro j hj
    rcases mem_pair.mp hj with rfl | rfl
    · exact ht.acc (ha _ mem_cons_self)
    · exact ht'.acc (ha _ (mem_cons_of_mem _ mem_cons_self))
  | ret | retValue | raise =>
    intro j hj
    cases hj

theorem Follows.acc_of_poll
    (hpo : ∃ n ∈ nodes, (g.node n).op = .safepoint) {i blk pre} (hblk : M.blocks[i]? = some blk)
    (hi : blk.insns = pre ++ rest) (ht : blk.term = term) :
    Acc M.Quiet ⟨i, pre.length⟩ := by
  induction h generalizing i blk pre with
  | @node _ n nodes _ code rest _ quiet hc _ ih =>
    by_cases hop : (g.node n).op = .safepoint
    · cases hc with
      | safepoint => exact Method.acc_of_before hblk hi rfl (Nat.le_refl _)
      | _ => simp_all [routine?]
    · have hta : ∃ n ∈ nodes, (g.node n).op = .safepoint := by
        obtain ⟨n', hn', ho'⟩ := hpo
        rcases mem_cons.mp hn' with rfl | hn'
        · exact absurd ho' hop
        · exact ⟨n', hn', ho'⟩
      have hr := ih hta hblk (hi.trans (append_assoc _ _ _).symm) ht
      exact Method.acc_of_le hblk (by simp) (by simp [hi]) hr
  | @call _ n nodes _ insns code rest _ throws _ hc _ _ =>
    -- what may throw is a call, so the poll need not be reached
    obtain ⟨insn, hm, hca⟩ := any_eq_true.mp (hc.isCall throws)
    obtain ⟨before, after, rfl⟩ := append_of_mem hm
    have hs : blk.insns = (pre ++ insns ++ before) ++ insn :: (after ++ rest) := by simp [hi]
    exact Method.acc_of_before hblk hs (Insn.isStop_of_isCall hca) (by simp)
  | split _ hb _ _ _ ih =>
    have hne := ih hpo hb (nil_append _).symm rfl
    refine Method.acc_of_successors hblk (fun j hj => ?_) _
    rw [ht] at hj
    rw [mem_singleton.mp hj]
    exact hne
  | jump | branch | ret | retValue | raise =>
    obtain ⟨n, hn, -⟩ := hpo
    cases hn

end

end

namespace Method

variable {g : Graph} {M : Method} {S : Lowering} {start : BlockId → Nat}

section
variable (hp : g.Proper) (hl : Layout g M S start) (hpolling : g.Polling g.reachable)
include hp hl hpolling

/-- From the start of a block control ends: with a poll, or because only later blocks follow. -/
theorem acc_start :
    ∀ (n : Nat) {b : BlockId}, b ∈ g.reachable → g.blocks.size - b = n → Acc M.Quiet ⟨start b, 0⟩ := by
  intro n
  induction n using Nat.strongRecOn with
  | ind n ih =>
    intro b hb hn
    obtain ⟨blk, hblk, -, hf⟩ := hl.block hb
    by_cases hpo : g.Polls b
    · exact hf.acc_of_poll hpo hblk (nil_append _).symm rfl
    · refine acc_of_successors hblk (hf.acc_successors fun e he => ?_) 0
      have ht := hp.target_reachable hb (mem_append_right _ (Continuation.transfers_subset he))
      have hla := (hpolling b hb e he).resolve_right hpo
      have hlt : e.target < g.blocks.size := Graph.lt_of_mem_reachable ht
      exact ih _ (hn ▸ Nat.sub_lt_sub_left (Nat.lt_trans hla hlt) hla) ht rfl

/-- Going on from places other than stops comes to an end. -/
theorem acc_of_polling (p : Point) : Acc M.Quiet p := by
  obtain ⟨i, k⟩ := p
  cases hblk : M.blocks[i]? with
  | none =>
    refine .intro _ fun q hq => ?_
    obtain ⟨hg, -⟩ := hq
    cases hg with
    | next hb' | leave hb' | throw hb' => cases hblk.symm.trans hb'
  | some blk =>
    refine acc_of_successors hblk ?_ k
    rcases hl.rest hblk with ⟨-, c, hc, ht⟩ | ⟨b, hb, nodes, -, hf⟩
    · intro j hj
      rw [ht] at hj
      rw [mem_singleton.mp hj]
      exact acc_start hp hl hpolling _ hc rfl
    · refine hf.acc_successors fun e he => acc_start hp hl hpolling _ ?_ rfl
      exact hp.target_reachable hb (mem_append_right _ (Continuation.transfers_subset he))

end

theorem exists_stop_of_acc {run : Nat → Point} (hr : ∀ n, M.Goes (run n) (run (n + 1))) {p}
    (h : Acc M.Quiet p) : ∀ {n : Nat}, run n = p → ∃ k, n ≤ k ∧ M.StopsAt (run k) := by
  induction h with
  | intro p _ ih =>
    intro n hn
    by_cases hs : M.StopsAt (run n)
    · exact ⟨n, Nat.le_refl n, hs⟩
    · obtain ⟨k, hk, hst⟩ := ih (run (n + 1)) (hn ▸ ⟨hr n, hs⟩) rfl
      exact ⟨k, Nat.le_of_succ_le hk, hst⟩

theorem Cycle.exists_run {path} (h : M.Cycle path) :
    ∃ run : Nat → Point, (∀ n, run n ∈ path) ∧ ∀ n, M.Goes (run n) (run (n + 1)) := by
  have hlt : ∀ n, n % path.length < path.length := fun n => Nat.mod_lt n (length_pos_iff.mpr h.nonempty)
  refine ⟨fun n => path.get ⟨n % path.length, hlt n⟩, fun n => getElem_mem _, fun n => ?_⟩
  refine h.goes (n % path.length) _ _ (getElem?_eq_getElem _) ?_
  rw [Nat.mod_add_mod]
  exact getElem?_eq_getElem _

end Method
end Linear

open Linear

/-- **Every cycle stops.** In the code of every method that can be built, with any options and
callees, each cycle in the flow of control passes a call or a safepoint. A run that goes on for ever
comes again and again to a stop that has an index. -/
theorem every_cycle_stops {m : Method} {order : Graph.HandlerOrder m} {g : Graph} (hg : Graph.build m order = .ok g)
    (options : OptimizerOptions)
    (provider : MethodProvider) {M : Linear.Method} (hM : M = lower (g.optimize options provider).1) :
    (∀ path, M.Cycle path → ∃ p ∈ path, M.StopsAt p) ∧
    ∀ run : Nat → Point, (∀ n, M.Goes (run n) (run (n + 1))) → ∀ n, ∃ k, n ≤ k ∧
      ∃ i, M.stopIndex? (run k).block (run k).index = some i := by
  obtain ⟨p, s, live, T⟩ := Graph.build_eq_ok hg
  obtain ⟨hpr, hpolling⟩ := Graph.optimize_polling T.proper T.placed T.polling options provider
  obtain ⟨S, start, hl⟩ := layout_lower hpr
  rw [← hM] at hl
  have ha := Method.acc_of_polling hpr hl hpolling
  constructor
  · intro path hc
    obtain ⟨run, hm, hgo⟩ := hc.exists_run
    obtain ⟨k, -, hs⟩ := Method.exists_stop_of_acc hgo (ha (run 0)) rfl
    exact ⟨run k, hm k, hs⟩
  · intro run hgo n
    obtain ⟨k, hk, hs⟩ := Method.exists_stop_of_acc hgo (ha (run n)) rfl
    exact ⟨k, hk, hs.exists_stopIndex⟩

def pausing : Method where
  key := ⟨"T", "pause", "()V"⟩
  locals := []
  code := [.ret]
  handlers := []

/-- Calls `pausing` for ever. -/
def waiting : Method where
  key := ⟨"T", "wait", "()V"⟩
  locals := []
  code := [.invokeStatic ⟨"T", "pause", "()V"⟩, .goto 0]
  handlers := []

/-- The code of `waiting`, with the call inlined. -/
def waitingCode : Linear.Method where
  key := waiting.key
  blocks := #[{ term := .jump 1 }, { insns := [.safepoint 1], term := .jump 1 }]

/-- The call in the loop of `waiting` is gone, and the loop stops nevertheless. -/
theorem every_cycle_stops_waiting : ∃ g, Graph.build waiting = .ok g ∧
    lower (g.optimize {} fun _ => some pausing).1 = waitingCode ∧ waitingCode.Cycle [⟨1, 0⟩, ⟨1, 1⟩] ∧
    ∃ p ∈ [(⟨1, 0⟩ : Point), ⟨1, 1⟩], waitingCode.StopsAt p := by
  have h : (Graph.build waiting).toOption.map (fun g => lower (g.optimize {} fun _ => some pausing).1) =
      some waitingCode := by decide +kernel
  obtain ⟨g, hg, hco⟩ := exists_ok_of_map h
  have hc : waitingCode.Cycle [⟨1, 0⟩, ⟨1, 1⟩] := by
    have hblk : waitingCode.blocks[1]? = some { insns := [.safepoint 1], term := .jump 1 } := rfl
    refine ⟨by simp, fun k p q hp hq => ?_⟩
    have hk : k < 2 := (List.getElem?_eq_some_iff.mp hp).1
    obtain rfl | rfl : k = 0 ∨ k = 1 := by omega
    · cases hp
      cases hq
      exact .next hblk rfl
    · cases hp
      cases hq
      exact .leave hblk mem_cons_self
  exact ⟨g, hg, hco, hc, (every_cycle_stops hg {} (fun _ => some pausing) hco.symm).1 _ hc⟩

end StackCompiler
