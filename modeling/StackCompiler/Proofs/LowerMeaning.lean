/-
Linear code does what its graph does, where no exception is caught. The variable
of a node holds the value that the node has computed, if any (`Holds`). One step
over a node runs its instructions, one along an edge its moves and the jumps that
lead to the target.
-/
import StackCompiler.Proofs.BuildWellFormed
import StackCompiler.Proofs.Inlining
import StackCompiler.Proofs.LinearMachine
import StackCompiler.Proofs.LowerLayout

namespace StackCompiler

open StackCompiler.Graph List Support

namespace Linear

/-! ## Requests as calls -/

/-- The call that stands for a request. -/
def callOf : Request → Call
  | ⟨.newArray element, args⟩ => ⟨.direct newArray, .int element.tag :: args⟩
  | ⟨.newInstance cls, args⟩ => ⟨.direct newInstance, .reference cls :: args⟩
  | ⟨.arrayLength, args⟩ => ⟨.direct arrayLength, args⟩
  | ⟨.arrayLoad element, args⟩ => ⟨.direct (arrayLoad element), args⟩
  | ⟨.arrayStore element, args⟩ => ⟨.direct (arrayStore element), args⟩
  | ⟨.callStatic callee, args⟩ => ⟨.direct callee, args⟩
  | ⟨.callNative callee, args⟩ => ⟨.native callee, args⟩
  | ⟨.callIndirect _, address :: args⟩ => ⟨.indirect address, args⟩
  | ⟨.callIndirect _, []⟩ => ⟨.indirect .null, []⟩

/-- What an observer sees of linear code where the graph does something. -/
def eventOf : StackCompiler.Event → Event
  | .asked request reply => .called (callOf request) reply
  | .polled bci => .polled bci
  | .raised x => .called ⟨.direct throwException, [x]⟩ (.throws x)

/-- The same surroundings for a graph: its requests are answered as the calls that stand for them. -/
def World.forGraph (w : World) : StackCompiler.World :=
  { w.values with oracle := fun past request => w.oracle (past.map eventOf) (callOf request) }

variable {g : Graph} {M : Method} {S : Lowering} {start : BlockId → Nat} {w : World}
  {past : List StackCompiler.Event}

/-- How the states of the two runs correspond. -/
structure Corresponds (g : Graph) (M : Method) (S : Lowering) (start : BlockId → Nat) (s : Graph.State)
    (t : State) : Prop where
  reachable : s.block ∈ g.reachable
  suffix : s.rest <:+ (g.block s.block).body
  follows : Follows M.blocks g.reachable.length S g start (M.block t.block).handler t.rest
    (M.block t.block).term s.rest (g.block s.block).cont
  holds : Holds S s.env t.env
  caught : s.caught = none ∧ t.caught = none

/-- The code does what a step of the graph does. -/
abbrev Performs (g : Graph) (M : Method) (S : Lowering) (start : BlockId → Nat) (w : World)
    (past : List StackCompiler.Event) :=
  Machine.Simulation.Performs eventOf (M.machine w) (Corresponds g M S start) past

/-- What it takes to run linear code as its graph. -/
structure Lowered (g : Graph) (M : Method) (S : Lowering) (start : BlockId → Nat) : Prop where
  layout : Layout g M S start
  plain : g.Plain

namespace Lowered

variable (L : Lowered g M S start)
include L

theorem enter {b} (hb : b ∈ g.reachable) {env cells} (ho : Holds S env cells) :
    Corresponds g M S start ⟨b, (g.block b).body, env, none⟩ (M.enter (start b) cells none) := by
  obtain ⟨blk, hbl, _, hf⟩ := L.layout.block hb
  refine ⟨hb, suffix_rfl, ?_, ho, rfl, rfl⟩
  simp only [Method.enter, Method.block_eq hbl]
  exact hf

/-! ## Nodes -/

section
variable {b : BlockId} {n : NodeId} {nodes : List NodeId} {i : Nat} {rest : List Insn} {env cells : Store}

/-- What is left of the block when a node has been passed. -/
structure Rest (g : Graph) (M : Method) (S : Lowering) (start : BlockId → Nat) (b : BlockId)
    (nodes : List NodeId) (i : Nat) (rest : List Insn) : Prop where
  reachable : b ∈ g.reachable
  suffix : nodes <:+ (g.block b).body
  follows : Follows M.blocks g.reachable.length S g start (M.block i).handler rest (M.block i).term
    nodes (g.block b).cont

omit L in
theorem Rest.corresponds (h : Rest g M S start b nodes i rest) (ho : Holds S env cells) :
    Corresponds g M S start ⟨b, nodes, env, none⟩ ⟨i, rest, cells, none⟩ :=
  ⟨h.reachable, h.suffix, h.follows, ho, rfl, rfl⟩

/-- An instruction gives the variable of a node the value of the node, if there is one. -/
theorem performs_assign (h : Rest g M S start b nodes i rest) (ho : Holds S env cells) {dst}
    (hd : S.var? n = some dst) {insn v}
    (hi : M.stepInsn w (past.map eventOf) ⟨i, rest, cells, none⟩ insn = Method.assign ⟨i, rest, cells, none⟩ dst v) :
    Performs g M S start w past
      ⟨i, insn :: rest, cells, none⟩ (Graph.State.compute ⟨b, nodes, env, none⟩ n v) := by
  have hs : (M.machine w).step (past.map eventOf) ⟨i, insn :: rest, cells, none⟩ =
      Method.assign ⟨i, rest, cells, none⟩ dst v := hi
  cases v with
  | none => exact .one hs
  | some v => exact ⟨_, .one hs, h.corresponds (ho.set L.layout.named hd (some v))⟩

variable {code : List Insn}

/-- A node that does not ask has its instruction. -/
theorem performs_quiet (h : Rest g M S start b nodes i rest) (ho : Holds S env cells)
    (hco : NodeCode S g n code) (hq : (g.node n).op.canThrow = false)
    (hp : ∀ c j, (g.node n).op ≠ .blockParam c j) :
    Performs g M S start w past
      ⟨i, code ++ rest, cells, none⟩ (g.stepNode w.forGraph past ⟨b, nodes, env, none⟩ n) := by
  have hs : (g.node n).op.service? = none := by
    rw [← Option.not_isSome_iff_eq_none, Operator.isSome_service?, hq]
    exact Bool.false_ne_true
  have has : ∀ {insn dst}, S.var? n = some dst →
      (g.node n).op ≠ .safepoint ∧ (g.node n).op ≠ .caught →
      M.stepInsn w (past.map eventOf) ⟨i, rest, cells, none⟩ insn = Method.assign ⟨i, rest, cells, none⟩ dst
        ((g.node n).op.value? w.forGraph (g.node n).kind env) →
      Performs g M S start w past
        ⟨i, insn :: rest, cells, none⟩ (g.stepNode w.forGraph past ⟨b, nodes, env, none⟩ n) := by
    intro insn dst hd hpl hi
    rw [stepNode_computes hs hpl.1 hpl.2 hp]
    exact L.performs_assign h ho hd hi
  cases hco with
  | constant hop hd hc =>
    refine has hd (by simp [hop]) ?_
    rw [hop]
    exact Method.step_constant L.layout.literals hc _ _ _
  | binary hop hd ha hb =>
    refine has hd (by simp [hop]) ?_
    simp only [Method.stepInsn, ho ha, ho hb, hop]
    rfl
  | negate hop hd ha | convert hop hd ha =>
    refine has hd (by simp [hop]) ?_
    simp only [Method.stepInsn, ho ha, hop]
    rfl
  | parameter hop hd =>
    refine has hd (by simp [hop]) ?_
    rw [hop]
    rfl
  | blockParam hop => exact absurd hop (hp _ _)
  | safepoint hop =>
    rw [stepNode_safepoint hop]
    exact ⟨_, .one rfl, h.corresponds ho⟩
  | caught hop hd =>
    simp only [stepNode, hop]
    exact .one rfl
  | newArray hop | newInstance hop | indirect hop => simp [hop, Operator.canThrow] at hq
  | routine hop =>
    rw [(routine?_eq_some hop).1] at hq
    cases hq

/-! ## Calls -/

omit L in
theorem exists_service {op target ids} (h : routine? op = some (target, ids)) :
    ∃ service, op.service? = some service ∧
      ∀ (t : State) (args : List Var),
        t.call? target args = (t.env.read args).map fun vs => callOf ⟨service, vs⟩ := by
  unfold routine? at h
  split at h <;> cases h <;> refine ⟨_, rfl, fun t args => ?_⟩ <;>
    simp only [State.call?, State.callee?] <;> cases t.env.read args <;> rfl

/-- A node that asks comes to a call of what stands for its request. -/
theorem exists_call (ho : Holds S env cells) (hco : NodeCode S g n code)
    (ht : (g.node n).op.canThrow = true) (w : World) (i : Nat) (rest : List Insn) :
    ∃ service target args result cells', (g.node n).op.service? = some service ∧
      CallResult S g n result ∧ Holds S env cells' ∧
      (M.machine w).Silent ⟨i, code ++ rest, cells, none⟩
        ⟨i, .call target args result false (g.node n).bci :: rest, cells', none⟩ ∧
      State.call? ⟨i, rest, cells', none⟩ target args =
        (env.read (g.node n).op.inputs).map fun vs => callOf ⟨service, vs⟩ := by
  have hl : ∀ {tag : Var} {v : Value} {load call : Insn}, ConstantCode S tag v load →
      (M.machine w).Silent ⟨i, [load, call] ++ rest, cells, none⟩
        ⟨i, call :: rest, cells.set tag (some v), none⟩ := fun hc =>
    .step fun past => Method.step_constant L.layout.literals hc w past _
  cases hco with
  | @newArray element length tag a result hop hta ha hr =>
    have ho' : Holds S env (cells.set tag (some (.int element.tag))) := ho.set_temp hta _
    refine ⟨.newArray element, _, _, _, _, by rw [hop]; rfl, hr, ho', hl .const, ?_⟩
    simp only [State.call?, State.callee?, Store.read, Store.set_self, ho' ha, hop, Operator.inputs]
    cases env length <;> rfl
  | @newInstance cls hub load result hop hh hc hr =>
    have ho' : Holds S env (cells.set hub (some (.reference cls))) := ho.set_temp hh _
    refine ⟨.newInstance cls, _, _, _, _, by rw [hop]; rfl, hr, ho', hl hc, ?_⟩
    simp only [State.call?, State.callee?, Store.read, Store.set_self, hop, Operator.inputs]
    rfl
  | @routine target ids args result hop har hr =>
    obtain ⟨service, hs, hca⟩ := exists_service hop
    refine ⟨service, _, _, _, _, hs, hr, ho, .refl _ _, ?_⟩
    rw [hca, Store.read_congr (ho.map har), (routine?_eq_some hop).2.1]
  | @indirect address signature ids a args result hop har ha hr =>
    have hre : cells.read args = env.read ids := Store.read_congr (ho.map har)
    refine ⟨.callIndirect signature, _, _, _, _, by rw [hop]; rfl, hr, ho, .refl _ _, ?_⟩
    simp only [State.call?, State.callee?, hre, ho ha, hop, Operator.inputs, Store.read]
    cases env address <;> cases env.read ids <;> rfl
  | _ => simp_all [Operator.canThrow]

/-- The call is answered as the request, and what it throws leaves the method. -/
theorem performs_call (h : Rest g M S start b nodes i rest) (ho : Holds S env cells)
    (hco : NodeCode S g n code) (ht : (g.node n).op.canThrow = true)
    (hn : (g.node n).handler = none) (hbl : (M.block i).handler = none) :
    Performs g M S start w past
      ⟨i, code ++ rest, cells, none⟩ (g.stepNode w.forGraph past ⟨b, nodes, env, none⟩ n) := by
  obtain ⟨service, target, args, result, cells', hs, hr, ho', hsi, hc⟩ :=
    L.exists_call ho hco ht w i rest
  refine .silent hsi ?_
  cases hre : env.read (g.node n).op.inputs with
  | none =>
    rw [stepNode_service_none hs hre]
    refine .one ?_
    simp only [Method.machine, Method.stepInsn, hc, hre, Option.map_none, map_nil]
  | some vs =>
    rw [hre, Option.map_some] at hc
    have hst := Method.stepInsn_call_of_none hc hbl w (past.map eventOf) result (g.node n).bci
    -- The graph asks the same oracle.
    rw [show w.oracle (past.map eventOf) (callOf ⟨service, vs⟩) =
      w.forGraph.oracle past ⟨service, vs⟩ from rfl] at hst
    rw [stepNode_service hs hre, hn]
    generalize w.forGraph.oracle past ⟨service, vs⟩ = reply at hst ⊢
    cases reply with
    | throws x => exact .one hst
    | value v =>
      refine ⟨_, .one hst, ?_⟩
      cases hr with
      | void hvo =>
        rw [if_pos hvo]
        exact h.corresponds ho'
      | value hv hd =>
        rw [if_neg hv]
        exact h.corresponds (ho'.set L.layout.named hd (some v))

end

/-! ## Edges -/

section
variable {b : BlockId} {e : Edge} {i : Nat} {env cells : Store} (hb : b ∈ g.reachable)
  (he : e ∈ g.edges b) (ho : Holds S env cells)
include hb he ho

theorem arrive {insns} (hc : EdgeCode S g e insns) :
    Corresponds g M S start (g.follow e env none)
      (M.enter (start e.target) (afterMoves cells insns) none) := by
  obtain ⟨dsts, srcs, fresh, hp⟩ := hc
  have ht := L.plain.proper.target_reachable hb he
  exact L.enter ht (hp.holds L.layout.named (L.plain.proper.params_nodup ht) ho)

theorem performs_jump {insns} (hc : EdgeCode S g e insns) (ht : (M.block i).term = .jump (start e.target)) :
    Performs g M S start w past
      ⟨i, insns, cells, none⟩ ([], .going (g.follow e env none)) := by
  have hm : (M.machine w).Silent ⟨i, insns ++ [], cells, none⟩ ⟨i, [], afterMoves cells insns, none⟩ :=
    M.silent_moves w cells hc.eq_move
  rw [append_nil] at hm
  refine .silent hm ⟨_, .one ?_, L.arrive hb he ho hc⟩
  simp only [Method.machine, ht, Method.stepTerm, map_nil]

theorem performs_branch {t} (ht : EdgeTarget M.blocks g.reachable.length S g start e t) {s}
    (hs : ∀ past, (M.machine w).step past s = ([], .going (M.enter t cells none))) :
    Performs g M S start w past s
      ([], .going (g.follow e env none)) := by
  obtain ⟨insns, hc, ⟨rfl, rfl⟩ | ⟨_, _, hbl⟩⟩ := ht
  · exact ⟨_, .one (hs _), L.arrive hb he ho hc⟩
  · refine .silent (.step hs) ?_
    simp only [Method.enter, Method.block_eq hbl]
    exact L.performs_jump hb he ho hc (by rw [Method.block_eq hbl])

end

/-! ## Ends of blocks -/

section
variable {b : BlockId} {i : Nat} {env cells : Store} (ho : Holds S env cells)
include ho

/-- A branch compares the same values. -/
theorem performs_choice (hb : b ∈ g.reachable) {cond lhs rhs taken notTaken}
    (hk : .branch cond lhs rhs taken notTaken = (g.block b).cont) {x y t t'} (hx : S.var? lhs = some x)
    (hy : S.var? rhs = some y) (ht : EdgeTarget M.blocks g.reachable.length S g start taken t)
    (ht' : EdgeTarget M.blocks g.reachable.length S g start notTaken t')
    (hte : .branch cond (g.kindOf lhs) x y t t' = (M.block i).term) :
    Performs g M S start w past ⟨i, [], cells, none⟩
      (g.stepCont w.forGraph ⟨b, [], env, none⟩ (g.block b).cont) := by
  have hed : ∀ e ∈ [taken, notTaken], e ∈ g.edges b := fun e he =>
    Graph.mem_edges.mpr ⟨_, .cont (hk ▸ he)⟩
  have hs : ∀ past, (M.machine w).step past ⟨i, [], cells, none⟩ =
      M.stepTerm w ⟨i, [], cells, none⟩ (.branch cond (g.kindOf lhs) x y t t') := fun past => by
    simp only [Method.machine, ← hte]
  simp only [Method.stepTerm, ho hx, ho hy] at hs
  simp only [← hk, stepCont]
  cases hl : env lhs with
  | none =>
    rw [hl] at hs
    exact .one (hs _)
  | some u =>
    cases hr : env rhs with
    | none =>
      rw [hl, hr] at hs
      exact .one (hs _)
    | some v =>
      rw [hl, hr] at hs
      simp only [show w.forGraph.compare cond u v = w.values.compare cond u v from rfl]
      cases hc : w.values.compare cond u v with
      | true =>
        simp only [hc, if_true] at hs ⊢
        exact L.performs_branch hb (hed _ mem_cons_self) ho ht hs
      | false =>
        simp only [hc, Bool.false_eq_true, if_false] at hs ⊢
        exact L.performs_branch hb (hed _ (mem_cons_of_mem _ mem_cons_self)) ho ht' hs

omit L in
theorem performs_ret {x v} (hx : S.var? x = some v) (ht : .ret (some v) = (M.block i).term) :
    Performs g M S start w past ⟨i, [], cells, none⟩
      (g.stepCont w.forGraph ⟨b, [], env, none⟩ (.ret (some x))) := by
  have hs : (M.machine w).step (past.map eventOf) ⟨i, [], cells, none⟩ =
      M.stepTerm w ⟨i, [], cells, none⟩ (.ret (some v)) := by
    simp only [Method.machine, ← ht]
  simp only [Method.stepTerm, ho hx] at hs
  simp only [stepCont]
  cases hv : env x with
  | none | some =>
    rw [hv] at hs
    exact .one hs

omit L in
theorem performs_raise {x v} (hx : S.var? x = some v) (hh : (M.block i).handler = none) (bci : Nat) :
    Performs g M S start w past
      ⟨i, [.call (.direct throwException) [v] none true bci], cells, none⟩
      (g.stepCont w.forGraph ⟨b, [], env, none⟩ (.raise x none)) := by
  have hs : (M.machine w).step (past.map eventOf)
      ⟨i, [.call (.direct throwException) [v] none true bci], cells, none⟩ =
      M.stepInsn w (past.map eventOf) ⟨i, [], cells, none⟩
        (.call (.direct throwException) [v] none true bci) := rfl
  simp only [Method.stepInsn, State.call?, State.callee?, Store.read, ho hx, hh] at hs
  simp only [stepCont]
  cases hv : env x with
  | none | some =>
    rw [hv] at hs
    exact .one hs

end

/-! ## Steps -/

/-- **One step of a graph is performed by its code.** -/
theorem performs_step {handler rest term nodes k}
    (h : Follows M.blocks g.reachable.length S g start handler rest term nodes k) {b} (hb : b ∈ g.reachable)
    (hs : nodes <:+ (g.block b).body) (hk : k = (g.block b).cont) {env cells} (ho : Holds S env cells) :
    ∀ {i : Nat}, handler = (M.block i).handler → term = (M.block i).term →
      Performs g M S start w past
        ⟨i, rest, cells, none⟩ ((g.machine w.forGraph).step past ⟨b, nodes, env, none⟩) := by
  induction h with
  | @node _ n nodes _ _ rest _ hq hc hr =>
    rintro i rfl rfl
    have hin := hs.subset mem_cons_self
    exact L.performs_quiet ⟨hb, (suffix_cons _ _).trans hs, hk ▸ hr⟩ ho hc hq
      (L.plain.placed.op hb hin)
  | @call _ n nodes _ _ _ rest _ hth hp hc hr =>
    rintro i hh rfl
    have hn := L.plain.free.body hb (hs.subset mem_cons_self)
    rw [hn] at hp
    obtain ⟨rfl, rfl⟩ := hp
    exact L.performs_call ⟨hb, (suffix_cons _ _).trans hs, hk ▸ hh ▸ hr⟩ ho hc hth hn
      hh.symm
  | @split _ j blk _ _ _ hblk _ _ _ ih =>
    rintro i rfl hte
    have hbl := Method.block_eq hblk
    refine .silent (.step fun past => ?_)
      (ih hs hk (i := j) (by rw [hbl]) (by rw [hbl]))
    simp only [Method.machine, ← hte, Method.stepTerm, Method.enter, hbl]
  | @jump _ e insns hed =>
    rintro i rfl hte
    have he : e ∈ g.edges b := Graph.mem_edges.mpr ⟨_, .cont (hk ▸ mem_cons_self)⟩
    simp only [machine, ← hk, stepCont]
    exact L.performs_jump hb he ho hed hte.symm
  | @branch _ cond lhs rhs taken notTaken x y t t' hx hy ht ht' =>
    rintro i rfl hte
    exact L.performs_choice ho hb hk hx hy ht ht' hte
  | ret =>
    rintro i rfl hte
    simp only [machine, ← hk, stepCont]
    refine .one ?_
    simp only [Method.machine, ← hte, Method.stepTerm, map_nil]
  | @retValue _ x v hx =>
    rintro i rfl hte
    simp only [machine, ← hk]
    exact performs_ret ho hx hte
  | @raise _ x edge v insns hp hx =>
    rintro i hh hte
    obtain rfl := L.plain.free.raise hb hk.symm
    obtain ⟨rfl, rfl⟩ := hp
    simp only [machine, ← hk]
    exact performs_raise ho hx hh.symm _

theorem simulation (w : World) : Machine.Simulation eventOf (g.machine w.forGraph) (M.machine w)
    (Corresponds g M S start) (fun _ => 0) := by
  refine .of_performs fun {s t} past h => .inl ?_
  obtain ⟨b, nodes, env, _⟩ := s
  obtain ⟨i, rest, cells, _⟩ := t
  obtain ⟨hb, hs, hf, ho, rfl, rfl⟩ := h
  exact L.performs_step hf hb hs rfl ho rfl rfl

theorem start_corresponds : Corresponds g M S start g.start M.start := by
  have hen := L.plain.proper.entry_reachable
  obtain ⟨rest, hr⟩ := reachable_head L.plain.proper.entry_lt
  have hs : start entry = 0 := by
    rw [L.layout.start_eq hen, hr, idxOf_cons_self]
  rw [Method.start, ← hs]
  exact L.enter hen fun _ => rfl

end Lowered

/-- **Linear code does what its graph does**, if no exception is caught. -/
theorem lower_sameBehaviour (hg : g.Plain) (w : World) : Machine.SameBehaviour eventOf
    (g.machine w.forGraph) g.start ((lower g).machine w) (lower g).start := by
  obtain ⟨S, start, hl⟩ := layout_lower hg.proper
  have L : Lowered g (lower g) S start := ⟨hl, hg⟩
  exact (L.simulation w).sameBehaviour L.start_corresponds

/-- **Lowering keeps what a graph does** where a method has no handlers, for every way to optimise
it: the same calls with the same arguments (routines stand for allocation, array access and
throwing) and the same polls in the same order, and the run ends alike or goes on forever. -/
theorem lower_preserves_meaning {m : StackCompiler.Method} {order : HandlerOrder m} (hb : build m order = .ok g)
    (hm : m.handlers = [])
    (options : OptimizerOptions) (provider : MethodProvider) (w : World) :
    ∀ g' ∈ [g, (g.optimize options provider).1],
      Machine.SameBehaviour eventOf (g'.machine w.forGraph) g'.start ((lower g').machine w) (lower g').start ∧
        ((g'.machine w.forGraph).RunsForever g'.start ↔ ((lower g').machine w).RunsForever (lower g').start) := by
  intro g' hg'
  obtain ⟨p, s, live, T⟩ := build_eq_ok hb
  have hp : g'.Plain := by
    rcases mem_cons.mp hg' with rfl | hg'
    · exact T.plain hm
    · rw [mem_singleton.mp hg']
      exact optimize_plain (T.plain hm) options provider
  have hs := lower_sameBehaviour hp w
  exact ⟨hs, hs.runsForever⟩

/-- A loop that exchanges its two locals on every turn, while the first one is not zero: the edge
back passes the parameters of the loop to each other. -/
def exchange : StackCompiler.Method where
  key := ⟨"T", "m", "(II)I"⟩
  locals := []
  code := [.stack (.load 0), .stack (.load 1), .stack (.store 0), .stack (.store 1),
    .invokeStatic ⟨"T", "f", "()V"⟩, .stack (.load 0), .ifZero .ne 0, .stack (.load 1), .retValue]
  handlers := []

/-- Its code: the edge back has a block of its own, and the exchange goes through two temporaries. -/
def exchangeCode : Method where
  key := ⟨"T", "m", "(II)I"⟩
  vars := #[.int, .int, .int, .int, .int, .int, .int]
  blocks := #[{ insns := [.parameter 0 0, .parameter 1 1, .move 2 0, .move 3 1], term := .jump 1 },
    { insns := [.call (.direct ⟨"T", "f", "()V"⟩) [] none false 4, .const 4 (.int 0), .safepoint 6],
      term := .branch .ne .int 3 4 3 2 },
    { insns := [], term := .ret (some 2) },
    { insns := [.move 5 3, .move 6 2, .move 2 5, .move 3 6], term := .jump 1 }]

/-- The code makes two turns and gives the second argument back, hence so does the graph. -/
theorem lower_preserves_meaning_exchange :
    let w : World := ⟨.standard [.int 0, .int 5] fun _ _ => .value .null, fun _ _ => .value (.int 1)⟩
    let call : Event := .called ⟨.direct ⟨"T", "f", "()V"⟩, []⟩ (.value (.int 1))
    ∃ g, build exchange = .ok g ∧ exchange.handlers = [] ∧
      ∃ g', g' = (g.optimize {} fun _ => none).1 ∧ lower g' = exchangeCode ∧
        (exchangeCode.machine w).Ends exchangeCode.start [call, .polled 6, call, .polled 6]
          (.returned (some (.int 5))) ∧
        ∃ t, [call, .polled 6, call, .polled 6] = t.map eventOf ∧
          (g'.machine w.forGraph).Ends g'.start t (.returned (some (.int 5))) := by
  intro w call
  obtain ⟨g, hg, hc⟩ : ∃ g, build exchange = .ok g ∧
      lower (g.optimize {} fun _ => none).1 = exchangeCode := exists_ok_of_map (by decide +kernel)
  have hen : (exchangeCode.machine w).Ends exchangeCode.start [call, .polled 6, call, .polled 6]
      (.returned (some (.int 5))) := ⟨19, rfl⟩
  have hs := (lower_preserves_meaning hg rfl {} (fun _ => none) w _
    (mem_cons_of_mem _ mem_cons_self)).1
  refine ⟨g, hg, rfl, _, rfl, hc, hen, (hs.ends _ _).mp ?_⟩
  rw [hc]
  exact hen

end Linear
end StackCompiler
