/-
The exception table of a method, followed into its compiled code. Every call was
made for one instruction (`MadeFor`), and its block has the handler that the
table has for that instruction (`handler_of_madeFor`).
-/
import StackCompiler.Proofs.CatchEdges
import StackCompiler.Proofs.CatchRanges
import StackCompiler.Proofs.LowerLayout
import StackCompiler.Proofs.ReferenceMaps
import StackCompiler.Proofs.Regions

namespace StackCompiler

open StackCompiler.Graph Allocation List Emission CodeCache Support
namespace Linear

/-! ## Stops in the code of a block -/

section
variable {s : Lowering} {g : Graph} {i : Insn} {kind : StopKind} {bci : Nat}

theorem stop?_of_routine? {op target ids} (h : routine? op = some (target, ids)) : op.stop? = some (kindOf target) := by
  unfold routine? at h
  split at h <;> cases h <;> rfl

/-- The stops of nodes as their code has them. -/
def stopsOf (g : Graph) (nodes : List NodeId) : List (StopKind × Nat) := (g.stops nodes).map fun s => (s.1, s.2.1)

theorem stopsOf_append (nodes nodes' : List NodeId) :
    stopsOf g (nodes ++ nodes') = stopsOf g nodes ++ stopsOf g nodes' := by
  rw [stopsOf, Graph.stops, filterMap_append, map_append]
  rfl

/-- The code of a node has the stop of the node, and it returns. -/
theorem NodeCode.stops {n code} (h : NodeCode s g n code) :
    code.filterMap Insn.stop? = stopsOf g [n] ∧ ∀ i ∈ code, i.noreturn = false := by
  rw [stopsOf, Graph.stops, filterMap_cons, Node.stop?]
  cases h with
  | constant op _ hc => cases hc <;> exact ⟨by rw [op]; rfl, by simp [Insn.noreturn]⟩
  | newInstance op _ hc => cases hc <;> exact ⟨by rw [op]; rfl, by simp [Insn.noreturn]⟩
  | routine op => exact ⟨by rw [stop?_of_routine? op]; rfl, by simp [Insn.noreturn]⟩
  | _ op => exact ⟨by rw [op]; rfl, by simp [Insn.noreturn]⟩

theorem NodeCode.of_stop {n code} (h : NodeCode s g n code) (hi : i ∈ code) (hs : i.stop? = some (kind, bci)) :
    (g.node n).stop? = some (kind, bci, (g.node n).handler.map (·.target)) ∧ i.noreturn = false := by
  have hm := mem_filterMap.mpr ⟨i, hi, hs⟩
  rw [h.stops.1] at hm
  obtain ⟨stop, hst, heq⟩ := mem_map.mp hm
  obtain ⟨x, hx, hst⟩ := mem_filterMap.mp hst
  rw [mem_singleton.mp hx] at hst
  obtain ⟨k, hk, rfl⟩ := Option.map_eq_some_iff.mp hst
  cases heq
  exact ⟨hst, h.stops.2 i hi⟩

variable {start : BlockId → Nat} {handler : Option Nat}

theorem Protects.stop?_eq_none {edge insns} (h : Protects s g start edge handler insns) (hi : i ∈ insns) :
    i.stop? = none := by
  obtain ⟨dst, src, rfl⟩ := h.eq_move _ hi
  rfl

theorem Protects.handler_eq {edge insns} (h : Protects s g start edge handler insns) :
    handler = edge.map fun e => start e.target := by
  cases edge with
  | none => exact h.1
  | some e => exact h.1

/-- A stop stands for a node, or for the throw at the end of the block; its handler is the target of
the edge there. -/
def OfStop (g : Graph) (start : BlockId → Nat) (handler : Option Nat) (i : Insn) (kind : StopKind) (bci : Nat)
    (nodes : List NodeId) (k : Continuation) : Prop :=
  (i.noreturn = false ∧ ∃ target, (kind, bci, target) ∈ g.stops nodes ∧
    (kind ≠ .safepoint → handler = target.map start)) ∨
  i.noreturn = true ∧ kind = .direct throwException false ∧ ∃ x edge, k = .raise x edge ∧
    bci = (g.node x).bci ∧ handler = edge.map fun e => start e.target

theorem OfStop.mono {nodes nodes' k} (h : OfStop g start handler i kind bci nodes k) (hs : nodes ⊆ nodes') :
    OfStop g start handler i kind bci nodes' k :=
  h.imp_left fun ⟨hr, target, hm, hh⟩ => ⟨hr, target, filterMap_subset _ hs hm, hh⟩

theorem Follows.of_stop {blocks reserved rest term nodes k}
    (h : Follows blocks reserved s g start handler rest term nodes k) (hi : i ∈ rest)
    (hs : i.stop? = some (kind, bci)) : OfStop g start handler i kind bci nodes k := by
  induction h with
  | node quiet hc _ ih =>
    rcases mem_append.mp hi with hi | hi
    · obtain ⟨hst, hr⟩ := hc.of_stop hi hs
      refine .inl ⟨hr, _, mem_filterMap.mpr ⟨_, mem_cons_self, hst⟩, fun hk => ?_⟩
      obtain ⟨_, ho, heq⟩ := Option.map_eq_some_iff.mp hst
      cases heq
      rw [Operator.canThrow_of_stop? ho hk] at quiet
      cases quiet
    · exact (ih hi).mono (subset_cons_self _ _)
  | call _ hp hc _ ih =>
    rw [mem_append, mem_append] at hi
    rcases hi with (hi | hi) | hi
    · cases (hp.stop?_eq_none hi).symm.trans hs
    · obtain ⟨hst, hr⟩ := hc.of_stop hi hs
      refine .inl ⟨hr, _, mem_filterMap.mpr ⟨_, mem_cons_self, hst⟩, fun _ => ?_⟩
      rw [hp.handler_eq, Option.map_map]
      rfl
    · exact (ih hi).mono (subset_cons_self _ _)
  | jump he =>
    obtain ⟨dst, src, rfl⟩ := he.eq_move _ hi
    cases hs
  | raise hp _ =>
    rw [mem_append, mem_singleton] at hi
    rcases hi with hi | rfl
    · cases (hp.stop?_eq_none hi).symm.trans hs
    · cases hs
      exact .inr ⟨rfl, rfl, _, _, rfl, rfl, hp.handler_eq⟩
  | split | branch | ret | retValue => cases hi

/-- Bytecode positions rise from stop to stop, but for that of a throw. -/
def InTurn (stop stop' : StopKind × Nat) : Prop :=
  stop.2 < stop'.2 ∨ stop'.1 = .direct throwException false

/-- The stops of code are those of the first nodes, and that of the throw at the end. The later nodes have their code
in the block that is jumped to. -/
theorem Follows.stops {blocks reserved rest term nodes k} (hk : ∀ e, k = .jump e → start e.target < reserved)
    (h : Follows blocks reserved s g start handler rest term nodes k) : ∃ first later last, nodes = first ++ later ∧
      rest.filterMap Insn.stop? = stopsOf g first ++ last ∧
      (last = [] ∨ term = .unreachable ∧ ∃ bci, last = [(.direct throwException false, bci)]) ∧
      ∀ j, term = .jump j → reserved ≤ j → ∃ b, blocks[j]? = some b ∧
        Follows blocks reserved s g start b.handler b.insns b.term later k := by
  have hno : ∀ {edge insns}, Protects s g start edge handler insns → insns.filterMap Insn.stop? = [] := fun hp =>
    filterMap_eq_nil_iff.mpr fun _ => hp.stop?_eq_none
  induction h with
  | @node _ n _ _ _ _ _ _ hco _ ih =>
    obtain ⟨first, later, last, rfl, hs, hr⟩ := ih hk hno
    refine ⟨n :: first, later, last, rfl, ?_, hr⟩
    rw [filterMap_append, hco.stops.1, hs, ← append_assoc, ← stopsOf_append, singleton_append]
  | @call _ n _ _ _ _ _ _ _ hp hco _ ih =>
    obtain ⟨first, later, last, rfl, hs, hr⟩ := ih hk hno
    refine ⟨n :: first, later, last, rfl, ?_, hr⟩
    rw [filterMap_append, filterMap_append, hno hp, nil_append, hco.stops.1, hs, ← append_assoc, ← stopsOf_append,
      singleton_append]
  | split _ hb _ _ hr =>
    refine ⟨[], _, [], rfl, rfl, .inl rfl, fun j hj _ => ?_⟩
    cases hj
    exact ⟨_, hb, hr⟩
  | @jump _ e _ he =>
    refine ⟨[], [], [], rfl, filterMap_eq_nil_iff.mpr fun i hi => ?_, .inl rfl, fun j hj hle => ?_⟩
    · obtain ⟨dst, src, rfl⟩ := he.eq_move i hi
      rfl
    · cases hj
      exact absurd (hk e rfl) (Nat.not_lt_of_le hle)
  | @raise _ x _ _ _ hp _ =>
    refine ⟨[], [], [(_, (g.node x).bci)], rfl, ?_, .inr ⟨rfl, _, rfl⟩, fun j hj => by cases hj⟩
    rw [filterMap_append, hno hp]
    rfl
  | branch | ret | retValue => exact ⟨[], [], [], rfl, rfl, .inl rfl, fun j hj => by cases hj⟩

end

/-! ## The instruction that a call was made for -/

/-- A call in block `id` was made for the instruction at `pc`: the code of that block goes on there.
A call that does not return is made for a throw. -/
def MadeFor (m : StackCompiler.Method) (g : Graph) (id : Nat) (call : Insn) (pc : Nat) : Prop :=
  ∃ b ∈ g.reachable, Continues (lower g).blocks g.reachable.length (g.reachable.idxOf b) id ∧
    ∃ insn, Reads m b pc insn ∧
      match call with
      | .call _ _ _ true _ => insn = .raise
      | .call _ _ _ false bci => insn.isCall = true ∧ bci = pc
      | _ => False

section
variable {m : StackCompiler.Method} {g : Graph}

variable {b : BlockId}

section
variable {M : Method} {S : Lowering} {start : BlockId → Nat} (hl : Layout g M S start) (hp : g.Proper)
  (hb : b ∈ g.reachable)
include hl hp hb

theorem Layout.jump_lt : ∀ e, (g.block b).cont = .jump e → start e.target < g.reachable.length := by
  intro e he
  have hed : e ∈ g.edges b := mem_append_right _ (by rw [he]; exact mem_cons_self)
  rw [hl.start_eq (hp.target_reachable hb hed)]
  exact idxOf_lt_length_of_mem (hp.target_reachable hb hed)

variable {id : Nat} (hc : Continues M.blocks g.reachable.length (g.reachable.idxOf b) id) {blk : Block}
  (hbl : M.blocks[id]? = some blk)
include hc hbl

theorem Layout.continues : ∃ nodes, nodes <:+ (g.block b).body ∧
    Follows M.blocks g.reachable.length S g start blk.handler blk.insns blk.term nodes (g.block b).cont := by
  obtain ⟨blk', hb', -, hf⟩ := hl.block hb
  rw [← hl.start_eq hb] at hc
  exact hf.continues (hl.jump_lt hp hb) hb' hc hbl

/-- Wherever the code of a block goes on, its stops are those of the block. -/
theorem Layout.of_stop {i kind bci} (hi : i ∈ blk.insns) (hst : i.stop? = some (kind, bci)) :
    OfStop g start blk.handler i kind bci (g.block b).body (g.block b).cont := by
  obtain ⟨nodes, hs, hr⟩ := hl.continues hp hb hc hbl
  exact (hr.of_stop hi hst).mono hs.subset

end

/-- Every stop stands in the code of a block. -/
theorem Layout.exists_block {M S start} (hl : Layout g M S start) {id blk} (hbl : M.blocks[id]? = some blk) {i stop}
    (hi : i ∈ blk.insns) (hs : i.stop? = some stop) :
    ∃ b ∈ g.reachable, Continues M.blocks g.reachable.length (g.reachable.idxOf b) id := by
  rcases hl.linked hbl with ⟨hm, -⟩ | ⟨b, hb, hc⟩
  · obtain ⟨dst, src, rfl⟩ := hm i hi
    cases hs
  · exact ⟨b, hb, hl.start_eq hb ▸ hc⟩

/-- Exceptions go to reachable blocks, and these start in their order. -/
theorem handler_of_target {start : BlockId → Nat} (hs : ∀ {b}, b ∈ g.reachable → start b = g.reachable.idxOf b)
    {target} {pc} (hta : target = catchBlock? m pc)
    (hr : ∀ t, target = some t → ∃ e ∈ g.edges b, e.target = t) (hp : g.Proper) (hb : b ∈ g.reachable) :
    target.map start = (catchBlock? m pc).map (g.reachable.idxOf ·) ∧
      ∀ t, catchBlock? m pc = some t → t ∈ g.reachable := by
  rw [← hta]
  have hre : ∀ t, target = some t → t ∈ g.reachable := fun t ht => by
    obtain ⟨e, he, rfl⟩ := hr t ht
    exact hp.target_reachable hb he
  exact ⟨Option.map_congr fun t ht => hs (hre t ht), hre⟩

theorem idxOf_lt_blocks (hp : g.Proper) (hb : b ∈ g.reachable) :
    g.reachable.idxOf b < (lower g).blocks.size := by
  obtain ⟨S, start, hl⟩ := layout_lower hp
  obtain ⟨blk, hbl, -⟩ := hl.block hb
  rw [hl.start_eq hb] at hbl
  exact (Array.getElem?_eq_some_iff.mp hbl).1

/-- Every call was made for an instruction, and its block has the handler for that instruction. -/
theorem handler_of_madeFor (hp : g.Proper) (hc : Catching m g g.reachable) {id blk}
    (hbl : (lower g).blocks[id]? = some blk) {call} (hm : call ∈ blk.insns) (hca : call.isCall = true) :
    (∃ pc, MadeFor m g id call pc) ∧ ∀ pc, MadeFor m g id call pc →
      blk.handler = (catchBlock? m pc).map (g.reachable.idxOf ·) ∧
        ∀ t, catchBlock? m pc = some t → t ∈ g.reachable := by
  obtain ⟨S, start, hl⟩ := layout_lower hp
  cases call with
  | call target args result noreturn bci =>
    have hk : kindOf target ≠ .safepoint := by cases target <;> exact nofun
    constructor
    · obtain ⟨b, hb, hch⟩ := hl.exists_block hbl hm rfl
      rcases hl.of_stop hp hb hch hbl hm rfl with ⟨hre, target, hs, -⟩ | ⟨hre, -, x, edge, hco, -⟩
      · obtain ⟨⟨insn, hi, hr⟩, -⟩ := hc.of_stop hb hs
        obtain rfl : noreturn = false := hre
        exact ⟨_, b, hb, hch, insn, hr, Instruction.isCall_of_stop? hi hk, rfl⟩
      · obtain ⟨pc, hr, -⟩ := hc.raise hb hco
        obtain rfl : noreturn = true := hre
        exact ⟨pc, b, hb, hch, .raise, hr, rfl⟩
    · intro pc hma
      obtain ⟨b, hb, hch, insn, hr, hi⟩ := hma
      rcases hl.of_stop hp hb hch hbl hm rfl with
        ⟨hre, target, hs, hh⟩ | ⟨hre, -, x, edge, hco, -, hh⟩
      · obtain rfl : noreturn = false := hre
        obtain ⟨-, rfl⟩ := hi
        rw [hh hk]
        refine handler_of_target hl.start_eq ((hc.of_stop hb hs).2 hk) (fun t ht => ?_) hp hb
        obtain ⟨n, hn, hst⟩ := mem_filterMap.mp hs
        obtain ⟨_, -, heq⟩ := Option.map_eq_some_iff.mp hst
        cases heq
        obtain ⟨e, he, rfl⟩ := Option.map_eq_some_iff.mp ht
        exact ⟨e, mem_append_left _ (mem_filterMap.mpr ⟨n, hn, he⟩), rfl⟩
      · obtain rfl : noreturn = true := hre
        have hi : insn = .raise := hi
        rw [hi] at hr
        obtain ⟨pc', hr', ht⟩ := hc.raise hb hco
        rw [hr'.raise_unique hr] at ht
        rw [hh, ← Function.comp_def start, ← Option.map_map]
        refine handler_of_target hl.start_eq ht (fun t ht => ?_) hp hb
        obtain ⟨e, rfl, rfl⟩ := Option.map_eq_some_iff.mp ht
        refine ⟨e, mem_append_right _ ?_, rfl⟩
        rw [hco]
        exact mem_cons_self
  | _ => cases hca

end
end Linear

/-! ## Compiled code -/

section
open Linear

theorem catchBlock?_eq_some {m name} (hc : Outline.check name m = .ok ()) {pc handler}
    (hh : m.handlerFor? pc = some handler) :
    ∃ t, (Outline.of m).block? handler.entry = some t ∧ catchBlock? m pc = some t := by
  have hl := Outline.entry_mem_leaders hc (mem_of_find?_eq_some hh)
  have hb := Graph.Outline.block?_eq_some.mpr ⟨hl, rfl⟩
  refine ⟨_, hb, ?_⟩
  rw [catchBlock?, hh]
  exact hb

/-- **The exception table survives.** Every call was made for an instruction. Where the exception
table has a handler for it, the finished method leads from the position of the call to where the
code of that handler starts, which is never zero and fits in 32 bits; where it has none, it leads
nowhere. -/
theorem exception_table_survives {m : Method} {order : HandlerOrder m} {g g' : Graph} (hg : build m order = .ok g)
    (options : OptimizerOptions) (provider : MethodProvider) (hg' : (g.optimize options provider).1 = g')
    {cache : CodeCache} (hcache : cache.window.size ≤ callReach) {link : Bool} {cm : CompiledMethod}
    (h : (cache.generate (lower g') (ofCode (lower g')) link).1 = .ok cm)
    {id : Nat} {blk : Linear.Block} {pre post : List Insn} {call : Insn}
    (hblk : (lower g').blocks[id]? = some blk) (hinsns : blk.insns = pre ++ call :: post)
    (hcall : call.isCall = true) :
    ∃ i position, (lower g').stopIndex? id pre.length = some i ∧ cm.stopPosition? i = some position ∧
      (∃ pc, MadeFor m g' id call pc) ∧ ∀ pc, MadeFor m g' id call pc →
        (m.handlerFor? pc = none → cm.handlerAt? position = none) ∧
        ∀ handler, m.handlerFor? pc = some handler → ∃ t ∈ g'.reachable,
          (Outline.of m).block? handler.entry = some t ∧
          cm.handlerAt? position =
            some (blockPosition (ofCode (lower g')) (lower g') (g'.reachable.idxOf t)) ∧
          blockPosition (ofCode (lower g')) (lower g') (g'.reachable.idxOf t) ≠ 0 ∧
          blockPosition (ofCode (lower g')) (lower g') (g'.reachable.idxOf t) < 2 ^ 32 := by
  obtain ⟨p, s, live, T⟩ := build_eq_ok hg
  obtain ⟨hp, hc⟩ := optimize_catching T.proper T.placed T.catching options provider
  rw [hg'] at hp hc
  have hme : call ∈ blk.insns := by
    rw [hinsns]
    exact mem_append_right _ mem_cons_self
  obtain ⟨hm, hha⟩ := handler_of_madeFor hp hc hblk hme hcall
  have hs := Insn.isStop_of_isCall hcall
  obtain ⟨e, he, ht⟩ := generate_tables h
  obtain ⟨kind, bci, hk, -⟩ := Insn.stop?_of_isStop hs
  obtain ⟨i, hi, hsi⟩ := Method.exists_stopIndex hblk hinsns hk
  -- the code fits the window, so the mark of native calls lies above every position
  have hf : e.buffer.offset < nativeBit :=
    ht.code ▸ Nat.lt_of_le_of_lt (Nat.le_trans (generate_fits h) hcache) (by decide)
  have hsm : stopPosition (ofCode (lower g')) (lower g') id pre.length < nativeBit :=
    Nat.lt_trans (inEffect_stop he hblk hinsns hs).2 hf
  have hpo := (ht.stopPosition_at he hsi).trans (congrArg some (Nat.mod_eq_of_lt hsm))
  refine ⟨i, _, hi, hpo, hm, fun pc hpc => ?_⟩
  obtain ⟨heq, hr⟩ := hha pc hpc
  have hl := ht.handlerAt_stop he hblk hinsns hs fun j hj => by
    rw [heq] at hj
    obtain ⟨t, ht, rfl⟩ := Option.map_eq_some_iff.mp hj
    exact idxOf_lt_blocks hp (hr t ht)
  rw [hl, heq]
  constructor
  · intro hn
    rw [catchBlock?, hn]
    rfl
  · intro handler hh
    obtain ⟨t, hb, hca⟩ := catchBlock?_eq_some T.check hh
    have hle := blockPosition_le he (Array.getElem?_eq_getElem (idxOf_lt_blocks hp (hr t hca)))
    refine ⟨t, hr t hca, hb, ?_, (blockPosition_pos _ _ _).ne',
      Nat.lt_of_le_of_lt hle (Nat.lt_trans hf (by decide))⟩
    rw [hca]
    rfl

/-- A call and a throw with a handler each, and a handler that throws again. -/
def guarded : Method where
  key := ⟨"T", "m", "(Ljava/lang/Object;)Ljava/lang/Object;"⟩
  locals := []
  code := [.invokeStatic ⟨"T", "f", "()V"⟩, .stack (.load 0), .raise, .raise, .retValue]
  handlers := [⟨0, 1, 3⟩, ⟨1, 3, 4⟩]

/-- The code of `guarded`. -/
def guardedCode : Linear.Method where
  key := guarded.key
  vars := #[.reference, .reference, .reference]
  blocks := #[{ insns := [.parameter 0 0], term := .jump 1 },
    { insns := [.call (.direct ⟨"T", "f", "()V"⟩) [] none false 0], term := .jump 2, handler := some 4 },
    { insns := [.call (.direct throwException) [0] none true 0], term := .unreachable, handler := some 3 },
    { insns := [.caught 1], term := .ret (some 1), isCatch := true },
    { insns := [.caught 2, .call (.direct throwException) [2] none true 3], term := .unreachable,
      isCatch := true }]

theorem lower_guarded : ∃ g, build guarded = .ok g ∧
    (g.optimize {} fun _ => none).1.reachable = [0, 1, 2, 4, 3] ∧
    lower (g.optimize {} fun _ => none).1 = guardedCode := by
  have h : (build guarded).toOption.map (fun g => ((g.optimize {} fun _ => none).1.reachable,
      lower (g.optimize {} fun _ => none).1)) = some ([0, 1, 2, 4, 3], guardedCode) := by decide +kernel
  obtain ⟨g, hg, heq⟩ := exists_ok_of_map h
  exact ⟨g, hg, Prod.mk.inj heq⟩

theorem generate_guarded : ∃ cache cm, create ⟨2048, 1, 2048⟩ = .ok cache ∧
    (cache.generate guardedCode (ofCode guardedCode) false).1 = .ok cm :=
  exists_generate (by cbv)

/-- The call and the throw of `guarded` lead to their own handlers, the throw of a handler nowhere. -/
theorem exception_table_survives_guarded : ∃ g cache cm, build guarded = .ok g ∧
    lower (g.optimize {} fun _ => none).1 = guardedCode ∧
    create ⟨2048, 1, 2048⟩ = .ok cache ∧
    (cache.generate guardedCode (ofCode guardedCode) false).1 = .ok cm ∧
    (∃ i position, guardedCode.stopIndex? 1 0 = some i ∧ cm.stopPosition? i = some position ∧
      cm.handlerAt? position = some (blockPosition (ofCode guardedCode) guardedCode 4)) ∧
    (∃ i position, guardedCode.stopIndex? 2 0 = some i ∧ cm.stopPosition? i = some position ∧
      cm.handlerAt? position = some (blockPosition (ofCode guardedCode) guardedCode 3)) ∧
    ∃ i position, guardedCode.stopIndex? 4 1 = some i ∧ cm.stopPosition? i = some position ∧
      cm.handlerAt? position = none := by
  obtain ⟨g, hg, hr, hco⟩ := lower_guarded
  obtain ⟨cache, cm, hca, h⟩ := generate_guarded
  have hc := @exception_table_survives _ _ _ _ hg {} _ rfl _ (create_reach hca) false cm
    (by rw [hco]; exact h)
  rw [hco, hr] at hc
  refine ⟨g, cache, cm, hg, hco, hca, h, ?_, ?_, ?_⟩
  · obtain ⟨i, position, hi, hp, -, hm⟩ := @hc 1 _ [] [] _ rfl rfl rfl
    have hre : Reads guarded 1 0 (.invokeStatic ⟨"T", "f", "()V"⟩) :=
      ⟨0, by decide, ⟨Nat.le_refl 0, fun q hq hq' => by omega⟩, rfl⟩
    obtain ⟨-, hs⟩ := hm 0 ⟨1, by rw [hr]; decide, by rw [hr]; exact .refl _, _, hre, rfl, rfl⟩
    obtain ⟨t, -, ht, hl, -⟩ := hs ⟨0, 1, 3⟩ (by decide)
    obtain rfl : 3 = t := Option.some.inj ((by decide : (Outline.of guarded).block? 3 = some 3).symm.trans ht)
    exact ⟨i, position, hi, hp, hl⟩
  · obtain ⟨i, position, hi, hp, -, hm⟩ := @hc 2 _ [] [] _ rfl rfl rfl
    have hre : Reads guarded 2 2 .raise := by
      refine ⟨1, by decide, ⟨by decide, fun q hq hq' => ?_⟩, rfl⟩
      obtain rfl : q = 2 := by omega
      decide
    obtain ⟨-, hs⟩ := hm 2 ⟨2, by rw [hr]; decide, by rw [hr]; exact .refl _, _, hre, rfl⟩
    obtain ⟨t, -, ht, hl, -⟩ := hs ⟨1, 3, 4⟩ (by decide)
    obtain rfl : 4 = t := Option.some.inj ((by decide : (Outline.of guarded).block? 4 = some 4).symm.trans ht)
    exact ⟨i, position, hi, hp, hl⟩
  · obtain ⟨i, position, hi, hp, -, hm⟩ := @hc 4 _ [.caught 2] [] _ rfl rfl rfl
    have hre : Reads guarded 3 3 .raise :=
      ⟨3, by decide, ⟨Nat.le_refl 3, fun q hq hq' => by omega⟩, rfl⟩
    obtain ⟨hn, -⟩ := hm 3 ⟨3, by rw [hr]; decide, by rw [hr]; exact .refl _, _, hre, rfl⟩
    exact ⟨i, position, hi, hp, hn (by decide)⟩

end
end StackCompiler
