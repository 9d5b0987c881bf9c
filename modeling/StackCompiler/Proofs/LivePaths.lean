/-
Which variables of linear code are live: those that some path leads to a use
of, without an assignment on the way. To bound what is live, sets of assigned
variables are carried forward (`Covers`). For the code of a graph the set is
given by the values that are known at the point.
-/
import StackCompiler.Proofs.Layout

namespace StackCompiler.Linear

open List

/-- From a point in a block with the given handler, before the given instructions and terminator, a
path leads to a use of `v`, and `v` is not assigned on the way. -/
inductive LiveAt (M : Method) (v : Var) : Option Nat → List Insn → Terminator → Prop
  | use {handler : Option Nat} {insn : Insn} {rest : List Insn} {term : Terminator}
      (h : v ∈ insn.uses) : LiveAt M v handler (insn :: rest) term
  | step {handler : Option Nat} {insn : Insn} {rest : List Insn} {term : Terminator}
      (hdef : insn.def? ≠ some v) (h : LiveAt M v handler rest term) :
      LiveAt M v handler (insn :: rest) term
  | throw {i : Nat} {blk : Block} {insn : Insn} {rest : List Insn} {term : Terminator}
      (hcall : insn.isCall = true) (hblk : M.blocks[i]? = some blk)
      (h : LiveAt M v blk.handler blk.insns blk.term) : LiveAt M v (some i) (insn :: rest) term
  | termUse {handler : Option Nat} {term : Terminator} (h : v ∈ term.uses) :
      LiveAt M v handler [] term
  | goes {handler : Option Nat} {term : Terminator} {i : Nat} {blk : Block}
      (hi : i ∈ term.successors) (hblk : M.blocks[i]? = some blk)
      (h : LiveAt M v blk.handler blk.insns blk.term) : LiveAt M v handler [] term

/-- Every use finds its variable assigned, when those in `assigned` are; `In` says what may be
entered, and with `ends` also the handler at the end of its block. -/
def Covers (In : Nat → (Var → Prop) → Prop) (ends : Prop) (handler : Option Nat) (term : Terminator) :
    List Insn → (Var → Prop) → Prop
  | [], assigned => (∀ v ∈ term.uses, assigned v) ∧ (∀ i ∈ term.successors, In i assigned) ∧
      (ends → ∀ i, handler = some i → In i assigned)
  | insn :: rest, assigned =>
    (∀ v ∈ insn.uses, assigned v) ∧ (insn.isCall = true → ∀ i, handler = some i → In i assigned) ∧
      Covers In ends handler term rest fun v => assigned v ∨ insn.def? = some v

/-- Only assigned variables are live. -/
theorem LiveAt.assigned {ends : Prop} {M In}
    (hIn : ∀ {i assigned blk}, In i assigned → M.blocks[i]? = some blk →
      Covers In ends blk.handler blk.term blk.insns assigned) {v handler rest term} (h : LiveAt M v handler rest term)
    {assigned} (hc : Covers In ends handler term rest assigned) : assigned v := by
  induction h generalizing assigned with
  | use h => exact hc.1 v h
  | step hd _ ih => exact (ih hc.2.2).resolve_right hd
  | throw hca hb _ ih => exact ih (hIn (hc.2.1 hca _ rfl) hb)
  | termUse h => exact hc.1 v h
  | goes hi hb _ ih => exact ih (hIn (hc.2.1 _ hi) hb)

section
variable {In : Nat → (Var → Prop) → Prop} {ends : Prop} {handler : Option Nat} {term : Terminator}
  {rest : List Insn}

/-- Instructions that call nothing and read what has been assigned. -/
theorem Covers.quiet : ∀ {code : List Insn} {assigned : Var → Prop},
    (∀ insn ∈ code, insn.isCall = false ∧ ∀ v ∈ insn.uses, assigned v) →
    (∀ assigned' : Var → Prop, (∀ v, assigned v → assigned' v) →
      (∀ insn ∈ code, ∀ v, insn.def? = some v → assigned' v) → Covers In ends handler term rest assigned') →
    Covers In ends handler term (code ++ rest) assigned
  | [], _, _, hr => hr _ (fun _ h => h) (by simp)
  | insn :: code, assigned, hco, hr => by
    obtain ⟨⟨hc, hu⟩, hco⟩ := forall_mem_cons.mp hco
    refine ⟨hu, by simp [hc], Covers.quiet (fun x hx => ?_) fun assigned' hm hd => ?_⟩
    · exact (hco x hx).imp_right fun h v hv => .inl (h v hv)
    · exact hr assigned' (fun v hv => hm v (.inl hv)) (forall_mem_cons.mpr ⟨fun v hv => hm v (.inr hv), hd⟩)

theorem Covers.directMoves {pairs assigned} (hsr : ∀ pair ∈ pairs, assigned pair.2)
    (hr : ∀ assigned' : Var → Prop, (∀ v, assigned v → assigned' v) →
      (∀ pair ∈ pairs, assigned' pair.1) → Covers In ends handler term rest assigned') :
    Covers In ends handler term (Linear.directMoves pairs ++ rest) assigned := by
  refine Covers.quiet (fun insn hi => ?_) fun assigned' hm hd =>
    hr assigned' hm fun pair hp => hd _ (mem_map_of_mem hp) _ rfl
  obtain ⟨pair, hp, rfl⟩ := mem_map.mp hi
  exact ⟨rfl, forall_mem_singleton.mpr (hsr pair hp)⟩

theorem Covers.moves {fresh pairs assigned} (hsr : ∀ pair ∈ pairs, assigned pair.2)
    (hr : ∀ assigned' : Var → Prop, (∀ v, assigned v → assigned' v) →
      (∀ pair ∈ pairs, assigned' pair.1) → Covers In ends handler term rest assigned') :
    Covers In ends handler term (Linear.moves fresh pairs ++ rest) assigned := by
  unfold Linear.moves
  split
  · rw [stagedMoves_eq, append_assoc]
    have hm : ∀ {v : Var} {l₁ l₂ : List Var}, l₁ = l₂ → v ∈ l₁ → v ∈ l₂ := fun h hv => h ▸ hv
    refine Covers.directMoves (fun pair hp => ?_) fun assigned₁ hm₁ ht => ?_
    · obtain ⟨q, hq, heq⟩ := mem_map.mp
        (hm (map_loads (fun x => x) fresh pairs) (mem_map_of_mem hp))
      exact heq ▸ hsr q hq
    · refine Covers.directMoves (fun pair hp => ?_) fun assigned₂ hm₂ hd => ?_
      · obtain ⟨q, hq, heq⟩ := mem_map.mp
          (hm ((stores_snd fresh pairs).trans (loads_fst fresh pairs).symm) (mem_map_of_mem hp))
        exact heq ▸ ht q hq
      · refine hr assigned₂ (fun v hv => hm₂ v (hm₁ v hv)) fun pair hp => ?_
        obtain ⟨q, hq, heq⟩ := mem_map.mp
          (hm (stores_fst fresh pairs).symm (mem_map_of_mem hp))
        exact heq ▸ hd q hq
  · exact Covers.directMoves hsr hr

end

/-! ## Code of a graph -/

section
variable {g : Graph} {M : Method} {S : Lowering} {start : BlockId → Nat}
  {scope : BlockId → NodeId → Prop}

/-- The variables of the values that are known at a point of a graph are assigned. -/
def HasKnown (S : Lowering) (g : Graph) (scope : BlockId → NodeId → Prop) (b : BlockId)
    (before : List NodeId) (assigned : Var → Prop) : Prop :=
  ∀ x v, S.var? x = some v → g.Known scope b before x → assigned v

variable {b : BlockId} {assigned : Var → Prop} {before : List NodeId} {n : NodeId} {ends : Prop}
  {handler : Option Nat} {term : Terminator} {rest : List Insn}

theorem HasKnown.mono {assigned'} (h : HasKnown S g scope b before assigned) (hm : ∀ v, assigned v → assigned' v) :
    HasKnown S g scope b before assigned' :=
  fun x v hv hx => hm v (h x v hv hx)

theorem HasKnown.vars (h : HasKnown S g scope b before assigned) {ids : List NodeId}
    {vs : List Var} (hvs : ids.map S.var? = vs.map some)
    (hi : ∀ x ∈ ids, g.Known scope b before x) : ∀ v ∈ vs, assigned v := by
  intro v hv
  have hm : some v ∈ ids.map S.var? := hvs ▸ mem_map_of_mem hv
  obtain ⟨x, hx, hxv⟩ := mem_map.mp hm
  exact h x v hxv (hi x hx)

/-- A block may be entered: its code does the rest of a block of the graph or passes the arguments
of an edge, and what is known there is assigned. -/
def Enterable (g : Graph) (M : Method) (S : Lowering) (start : BlockId → Nat)
    (scope : BlockId → NodeId → Prop) (i : Nat) (assigned : Var → Prop) : Prop :=
  ∃ b ∈ g.reachable, ∃ before blk, HasKnown S g scope b before assigned ∧ M.blocks[i]? = some blk ∧ blk.Calls ∧
    ((∃ nodes, (g.block b).body = before ++ nodes ∧
        Follows M.blocks g.reachable.length S g start blk.handler blk.insns blk.term nodes
          (g.block b).cont) ∨
      ∃ e, g.Leaves b before e ∧ EdgeCode S g e blk.insns ∧ blk.term = .jump (start e.target))

theorem Enterable.mono {i assigned'} (h : Enterable g M S start scope i assigned)
    (hm : ∀ v, assigned v → assigned' v) :
    Enterable g M S start scope i assigned' := by
  obtain ⟨b, hb, before, blk, hk, h⟩ := h
  exact ⟨b, hb, before, blk, hk.mono hm, h⟩

theorem Enterable.of_start (hl : Layout g M S start) (hb : b ∈ g.reachable)
    (h : HasKnown S g scope b [] assigned) : Enterable g M S start scope (start b) assigned := by
  obtain ⟨blk, hbl, _, hf⟩ := hl.block hb
  exact ⟨b, hb, [], blk, h, hbl, hl.calls hb hbl, .inl ⟨_, rfl, hf⟩⟩

section
variable {b : BlockId} {before : List NodeId} {e : Edge} {assigned : Var → Prop}

variable {insns : List Insn}

theorem Passes.sources {dsts srcs fresh} (h : Passes S g e dsts srcs fresh insns) (hs : g.Scoped scope)
    (hb : b ∈ g.reachable) (he : g.Leaves b before e) (hk : HasKnown S g scope b before assigned) :
    ∀ v ∈ srcs, assigned v :=
  hk.vars h.args fun x hx => hs.edge hb he x (.inl hx)

/-- With the targets of the moves, all is assigned that is known in the target of the edge. -/
theorem Passes.hasKnown {dsts srcs fresh} (h : Passes S g e dsts srcs fresh insns) (hp : g.Proper)
    (hs : g.Scoped scope) (hb : b ∈ g.reachable) (he : g.Leaves b before e)
    (hk : HasKnown S g scope b before assigned) {assigned'} (hmo : ∀ v, assigned v → assigned' v)
    (hd : ∀ pair ∈ assignments dsts srcs, assigned' pair.1) :
    HasKnown S g scope e.target [] assigned' := by
  have hle : dsts.length = srcs.length := by
    have h₁ := congrArg List.length h.params
    have h₂ := congrArg List.length h.args
    rw [length_map, length_map] at h₁ h₂
    rw [← h₁, ← h₂, hp.arity hb (Graph.mem_edges.mpr ⟨before, he⟩)]
  rintro x v hv (hx | hx | ⟨hx, _⟩)
  · exact hmo v (hk x v hv (hs.edge hb he x (.inr hx)))
  · have hm : some v ∈ dsts.map some := h.params ▸ hv ▸ mem_map_of_mem hx
    obtain ⟨_, hme, heq⟩ := mem_map.mp hm
    cases heq
    obtain ⟨i, hi, hg⟩ := getElem_of_mem hme
    have hz : (v, srcs[i]) ∈ dsts.zip srcs := by
      rw [← hg]
      exact mem_iff_getElem.mpr ⟨i, by simp [hi, ← hle], by simp⟩
    -- a parameter that is passed to itself is assigned already
    by_cases hse : v = srcs[i]
    · exact hmo v (h.sources hs hb he hk v (hse ▸ getElem_mem _))
    · exact hd _ (mem_assignments.mpr ⟨hz, hse⟩)
  · cases hx

/-- The moves of an edge assign what is known in its target. -/
theorem EdgeCode.covers {ends : Prop} {In handler term rest} (hp : g.Proper) (hs : g.Scoped scope)
    (hb : b ∈ g.reachable) (he : g.Leaves b before e) (hc : EdgeCode S g e insns)
    (hk : HasKnown S g scope b before assigned)
    (hr : ∀ assigned' : Var → Prop, (∀ v, assigned v → assigned' v) →
      HasKnown S g scope e.target [] assigned' → Covers In ends handler term rest assigned') :
    Covers In ends handler term (insns ++ rest) assigned := by
  obtain ⟨dsts, srcs, fresh, hpa⟩ := hc
  rw [hpa.eq]
  refine Covers.moves (fun pair hpai => ?_) fun assigned' hm hd =>
    hr assigned' hm (hpa.hasKnown hp hs hb he hk hm hd)
  exact hpa.sources hs hb he hk _ (of_mem_zip (mem_assignments.mp hpai).1).2

/-- A branch enters a block with the moves of the edge, or its target if there are none. -/
theorem EdgeTarget.enterable (hp : g.Proper) (hs : g.Scoped scope) (hl : Layout g M S start) (hb : b ∈ g.reachable)
    (he : g.Leaves b before e) {t} (ht : EdgeTarget M.blocks g.reachable.length S g start e t)
    (hk : HasKnown S g scope b before assigned) :
    Enterable g M S start scope t assigned := by
  obtain ⟨insns, hc, ⟨rfl, rfl⟩ | ⟨_, _, hbl⟩⟩ := ht
  · obtain ⟨dsts, srcs, fresh, hpa⟩ := hc
    have hn : assignments dsts srcs = [] := moves_eq_nil.mp hpa.eq.symm
    refine .of_start hl (hp.target_reachable hb (Graph.mem_edges.mpr ⟨before, he⟩)) ?_
    exact hpa.hasKnown hp hs hb he hk (fun _ h => h) (by simp [hn])
  · exact ⟨b, hb, before, _, hk, hbl, .inl rfl, .inr ⟨e, he, hc, rfl⟩⟩

end

theorem CallResult.var_eq {v} (h : CallResult S g n (some v)) : S.var? n = some v := by
  cases h with
  | value _ hd => exact hd

theorem CallResult.eq_of_hasValue {result} (h : CallResult S g n result) (ht : (g.node n).op.canThrow = true)
    (hva : (g.node n).hasValue = true) {v} (hv : S.var? n = some v) : result = some v := by
  cases h with
  | value _ hd => exact hd.symm.trans hv
  | void hvo =>
    unfold Node.hasValue at hva
    split at hva
    · cases hva
    · simp [ht, hvo] at hva

/-- What the code of a node reads and assigns: temporaries are loaded with constants, and the last
instruction, a call if the node may throw, computes the value. -/
structure NodeShape (S : Lowering) (g : Graph) (n : NodeId) (setup : List Insn) (last : Insn) :
    Prop where
  load : ∀ insn ∈ setup, ∃ t v, ConstantCode S t v insn ∧ S.Temp t
  uses : ∀ v ∈ last.uses, (∃ x ∈ (g.node n).op.inputs, S.var? x = some v) ∨
    ∃ insn ∈ setup, insn.def? = some v
  isCall : last.isCall = (g.node n).op.canThrow
  var_eq : ∀ {v}, last.def? = some v → S.var? n = some v
  def_eq : (g.node n).hasValue = true → ∀ {v}, S.var? n = some v → last.def? = some v

theorem ConstantCode.load {dst v insn} (h : ConstantCode S dst v insn) :
    insn.uses = [] ∧ insn.isCall = false ∧ insn.def? = some dst := by
  cases h <;> exact ⟨rfl, rfl, rfl⟩

/-- A call assigns its result if it has one. -/
theorem CallResult.shape {result setup target args noreturn bci} (h : CallResult S g n result)
    (ht : (g.node n).op.canThrow = true) (hl : ∀ insn ∈ setup, ∃ t v, ConstantCode S t v insn ∧ S.Temp t)
    (hu : ∀ v ∈ (Insn.call target args result noreturn bci).uses, (∃ x ∈ (g.node n).op.inputs, S.var? x = some v) ∨
      ∃ insn ∈ setup, insn.def? = some v) : NodeShape S g n setup (.call target args result noreturn bci) := by
  refine ⟨hl, hu, ht.symm, ?_, fun hva _ => h.eq_of_hasValue ht hva⟩
  rintro v rfl
  exact h.var_eq

theorem NodeCode.shape {code} (h : NodeCode S g n code) (hop : ∀ c i, (g.node n).op ≠ .blockParam c i) :
    ∃ setup last, code = setup ++ [last] ∧ NodeShape S g n setup last := by
  have hn : ∀ insn ∈ ([] : List Insn), ∃ t v, ConstantCode S t v insn ∧ S.Temp t := by simp
  have ho : ∀ {insn : Insn} {t : Var} {v : Value}, ConstantCode S t v insn → S.Temp t →
      ∀ insn' ∈ [insn], ∃ t v, ConstantCode S t v insn' ∧ S.Temp t := by
    intro insn t v hc ht insn' hm
    rw [mem_singleton.mp hm]
    exact ⟨t, v, hc, ht⟩
  have hvar : ∀ {ids : List NodeId} {vs : List Var}, ids.map S.var? = vs.map some →
      ∀ v ∈ vs, ∃ x ∈ ids, S.var? x = some v := fun hvs v hv =>
    mem_map.mp (hvs ▸ mem_map_of_mem hv : some v ∈ _)
  cases h with
  | constant op hd code =>
    obtain ⟨hu, hca, hde⟩ := code.load
    refine ⟨[], _, rfl, hn, by simp [hu], by rw [hca, op]; rfl, fun hv => ?_, fun _ _ hv => ?_⟩
    · rw [hde] at hv
      exact hd.trans hv
    · exact hde.trans (hd.symm.trans hv)
  | binary op hd ha hb =>
    refine ⟨[], _, rfl, hn, fun v hv => .inl ?_, by rw [op]; rfl, hd.trans, fun _ _ => hd.symm.trans⟩
    rw [op]
    simp only [Insn.uses, mem_cons, not_mem_nil, or_false] at hv
    rcases hv with rfl | rfl
    · exact ⟨_, by simp [Operator.inputs], ha⟩
    · exact ⟨_, by simp [Operator.inputs], hb⟩
  | negate op hd ha | convert op hd ha =>
    refine ⟨[], _, rfl, hn, fun v hv => .inl ?_, by rw [op]; rfl, hd.trans, fun _ _ => hd.symm.trans⟩
    rw [op, mem_singleton.mp hv]
    exact ⟨_, by simp [Operator.inputs], ha⟩
  | parameter op hd | caught op hd =>
    exact ⟨[], _, rfl, hn, by simp [Insn.uses], by rw [op]; rfl, hd.trans, fun _ _ => hd.symm.trans⟩
  | blockParam op => exact absurd op (hop _ _)
  | safepoint op =>
    refine ⟨[], _, rfl, hn, by simp [Insn.uses], by rw [op]; rfl, fun hv => ?_, fun hva => ?_⟩
    · cases hv
    · simp [Node.hasValue, op] at hva
  | newArray op htag ha hr =>
    refine ⟨[_], _, rfl, hr.shape (by rw [op]; rfl) (ho .const htag) fun v hv => ?_⟩
    simp only [Insn.uses, mem_cons, not_mem_nil, or_false] at hv
    rcases hv with rfl | rfl
    · exact .inr ⟨_, mem_cons_self, rfl⟩
    · exact .inl ⟨_, by simp [op, Operator.inputs], ha⟩
  | newInstance op hh code hr =>
    refine ⟨[_], _, rfl, hr.shape (by rw [op]; rfl) (ho code hh) fun v hv => ?_⟩
    rw [mem_singleton.mp hv]
    exact .inr ⟨_, mem_cons_self, code.load.2.2⟩
  | @routine target ids args result op har hr =>
    obtain ⟨hth, hi, hta⟩ := routine?_eq_some op
    refine ⟨[], _, rfl, hr.shape hth hn fun v hv => .inl ?_⟩
    rw [← hi]
    refine hvar har v ?_
    cases target with
    | indirect a => exact absurd rfl (hta a)
    | direct => exact hv
    | native => exact hv
  | indirect op har ha hr =>
    refine ⟨[], _, rfl, hr.shape (by rw [op]; rfl) hn fun v hv => .inl ?_⟩
    rw [op]
    rcases mem_append.mp hv with hv | hv
    · obtain ⟨x, hx, hxv⟩ := hvar har v hv
      exact ⟨x, mem_cons_of_mem _ hx, hxv⟩
    · rw [mem_singleton.mp hv]
      exact ⟨_, mem_cons_self, ha⟩

/-- The code of a node reads the node's inputs and assigns its value. -/
theorem NodeShape.covers {setup last} (h : NodeShape S g n setup last) (hk : HasKnown S g scope b before assigned)
    (hinp : ∀ x ∈ (g.node n).op.inputs, g.Known scope b before x)
    (hh : (g.node n).op.canThrow = true → ∀ i, handler = some i → Enterable g M S start scope i assigned)
    (hr : ∀ assigned' : Var → Prop, (∀ v, assigned v → assigned' v) →
      HasKnown S g scope b (before ++ [n]) assigned' →
        Covers (Enterable g M S start scope) ends handler term rest assigned') :
    Covers (Enterable g M S start scope) ends handler term (setup ++ [last] ++ rest) assigned := by
  rw [append_assoc]
  have hlo : ∀ insn ∈ setup, insn.isCall = false ∧ ∀ v ∈ insn.uses, assigned v := by
    intro insn hin
    obtain ⟨t, v, hc, _⟩ := h.load insn hin
    exact ⟨hc.load.2.1, by simp [hc.load.1]⟩
  refine Covers.quiet hlo fun assigned' hm hd =>
    ⟨fun v hv => ?_, fun hca i hi => ?_, hr _ (fun v hv => .inl (hm v hv)) ?_⟩
  · rcases h.uses v hv with ⟨x, hx, hxv⟩ | ⟨insn, hin, hde⟩
    · exact hm v (hk x v hxv (hinp x hx))
    · exact hd insn hin v hde
  · exact (hh (h.isCall.symm.trans hca) i hi).mono hm
  · rintro x v hv (hx | hx | ⟨hx, hva⟩)
    · exact .inl (hm v (hk x v hv (.inl hx)))
    · exact .inl (hm v (hk x v hv (.inr (.inl hx))))
    · rcases mem_append.mp hx with hx | hx
      · exact .inl (hm v (hk x v hv (.inr (.inr ⟨hx, hva⟩))))
      · cases mem_singleton.mp hx
        exact .inr (h.def_eq hva hv)

theorem EdgeCode.any_isCall {e insns} (h : EdgeCode S g e insns) :
    insns.any (·.isCall) = false := by
  rw [any_eq_false]
  intro insn hi
  obtain ⟨dst, src, rfl⟩ := h.eq_move insn hi
  simp [Insn.isCall]

theorem NodeShape.any_isCall {setup last} (h : NodeShape S g n setup last) (quiet : (g.node n).op.canThrow = false) :
    (setup ++ [last]).any (·.isCall) = false := by
  rw [any_append, any_eq_false.mpr fun insn hi => ?_]
  · simp [h.isCall, quiet]
  · obtain ⟨t, v, hc, _⟩ := h.load insn hi
    simp [hc.load.2.1]

section
variable (hp : g.Proper) (hpl : g.Placed) (hs : g.Scoped scope) (hl : Layout g M S start)
include hp hpl hs hl

/-- Code that does the rest of a block reads only what has been assigned. At its end, its handler
has been called under already, or a call is to come. -/
theorem Follows.covers
    (hb : b ∈ g.reachable) {nodes k} (h : Follows M.blocks g.reachable.length S g start handler rest term nodes k)
    (hk : k = (g.block b).cont) (hbo : (g.block b).body = before ++ nodes)
    (hkn : HasKnown S g scope b before assigned)
    (hend : ends → ∀ i, handler = some i → Enterable g M S start scope i assigned ∨ rest.any (·.isCall) = true) :
    Covers (Enterable g M S start scope) ends handler term rest assigned := by
  have hst : ∀ {before' e}, g.Leaves b before' e → ∀ {assigned' : Var → Prop},
      HasKnown S g scope e.target [] assigned' →
      Enterable g M S start scope (start e.target) assigned' := fun he _ hk' =>
    .of_start hl (hp.target_reachable hb (Graph.mem_edges.mpr ⟨_, he⟩)) hk'
  induction h generalizing before assigned with
  | @node _ n nodes _ code rest _ quiet hco _ ih =>
    obtain ⟨setup, last, rfl, hsh⟩ := hco.shape (hpl.op hb (by rw [hbo]; simp))
    refine hsh.covers hkn (hs.inputs hb hbo) (fun ht => ?_) fun assigned' hm hk' =>
      ih hk (by rw [hbo]; simp) hk' fun he i hi => ?_
    · rw [quiet] at ht
      cases ht
    · have hca := hend he i hi
      rw [any_append, hsh.any_isCall quiet, Bool.false_or] at hca
      exact hca.imp (·.mono hm) id
  | @call _ n nodes _ insns code rest _ throws hpr hco _ ih =>
    obtain ⟨setup, last, rfl, hsh⟩ := hco.shape (hpl.op hb (by rw [hbo]; simp))
    rw [append_assoc]
    cases hed : (g.node n).handler with
    | none =>
      rw [hed] at hpr
      obtain ⟨rfl, rfl⟩ := hpr
      exact hsh.covers hkn (hs.inputs hb hbo) (fun _ _ hi => nomatch hi)
        fun assigned' _ hk' => ih hk (by rw [hbo]; simp) hk' fun _ _ hi => nomatch hi
    | some e =>
      rw [hed] at hpr
      obtain ⟨rfl, hmo⟩ := hpr
      have he : g.Leaves b before e := .catches hbo hed
      refine hmo.covers hp hs hb he hkn fun assigned' hm hta => ?_
      have hen := fun i (hi : some (start e.target) = some i) => Option.some.inj hi ▸ hst he hta
      refine hsh.covers (hkn.mono hm) (hs.inputs hb hbo) (fun _ => hen)
        fun assigned'' hm' hk' => ih hk (by rw [hbo]; simp) hk' fun _ i hi => ?_
      exact .inl ((hen i hi).mono hm')
  | split hi hbl _ hcal hr _ =>
    subst hk
    refine ⟨fun _ hv => (nomatch hv), fun i hi => ?_, fun he i hi => (hend he i hi).resolve_right Bool.false_ne_true⟩
    rw [mem_singleton.mp hi]
    exact ⟨b, hb, before, _, hkn, hbl, hcal, .inl ⟨_, hbo, hr⟩⟩
  | @jump _ e insns hed =>
    have he : g.Leaves b before e := by
      rw [append_nil] at hbo
      exact hbo ▸ .cont (by rw [← hk]; exact mem_singleton.mpr rfl)
    rw [hed.any_isCall] at hend
    rw [← append_nil insns]
    refine hed.covers hp hs hb he hkn fun assigned' hm hta =>
      ⟨fun _ hv => (nomatch hv), fun i hi => ?_, fun he i hi => ?_⟩
    · rw [mem_singleton.mp hi]
      exact hst he hta
    · exact ((hend he i hi).resolve_right Bool.false_ne_true).mono hm
  | @branch _ cond lhs rhs taken notTaken _ _ _ _ ha hb' ht ht' =>
    rw [append_nil] at hbo
    have hc : ∀ x ∈ [lhs, rhs], g.Known scope b before x := fun x hx =>
      hbo ▸ hs.cont hb x (by rw [← hk]; exact hx)
    have hedg : ∀ e ∈ [taken, notTaken], g.Leaves b before e := fun e he =>
      hbo ▸ .cont (by rw [← hk]; exact he)
    refine ⟨fun v hv => ?_, fun i hi => ?_, fun he i hi => (hend he i hi).resolve_right Bool.false_ne_true⟩
    · simp only [Terminator.uses, mem_cons, not_mem_nil, or_false] at hv
      rcases hv with rfl | rfl
      · exact hkn _ _ ha (hc _ (by simp))
      · exact hkn _ _ hb' (hc _ (by simp))
    · simp only [Terminator.successors, mem_cons, not_mem_nil, or_false] at hi
      rcases hi with rfl | rfl
      · exact ht.enterable hp hs hl hb (hedg _ (by simp)) hkn
      · exact ht'.enterable hp hs hl hb (hedg _ (by simp)) hkn
  | ret =>
    exact ⟨fun _ hv => (nomatch hv), fun _ hi => (nomatch hi), fun he i hi =>
      (hend he i hi).resolve_right Bool.false_ne_true⟩
  | @retValue _ x v hx =>
    rw [append_nil] at hbo
    refine ⟨fun u hu => ?_, fun _ hi => (nomatch hi), fun he i hi =>
      (hend he i hi).resolve_right Bool.false_ne_true⟩
    rw [mem_singleton.mp hu]
    exact hkn x v hx (hbo ▸ hs.cont hb x (by rw [← hk]; exact mem_singleton.mpr rfl))
  | @raise _ x edge v insns hpr hx =>
    rw [append_nil] at hbo
    have hc : g.Known scope b before x :=
      hbo ▸ hs.cont hb x (by rw [← hk]; exact mem_singleton.mpr rfl)
    cases edge with
    | none =>
      obtain ⟨rfl, rfl⟩ := hpr
      refine ⟨fun u hu => ?_, fun _ _ hi => (nomatch hi), fun _ hu => (nomatch hu), fun _ hi => (nomatch hi),
        fun _ _ hi => (nomatch hi)⟩
      rw [mem_singleton.mp hu]
      exact hkn x v hx hc
    | some e =>
      obtain ⟨rfl, hmo⟩ := hpr
      have he : g.Leaves b before e := hbo ▸ .cont (by rw [← hk]; exact mem_singleton.mpr rfl)
      refine hmo.covers hp hs hb he hkn fun assigned' hm hta => ?_
      have hen := fun i (hi : some (start e.target) = some i) => Option.some.inj hi ▸ hst he hta
      refine ⟨fun u hu => ?_, fun _ => hen, fun _ hu => (nomatch hu), fun _ hi => (nomatch hi),
        fun _ i hi => (hen i hi).mono fun _ => .inl⟩
      rw [mem_singleton.mp hu]
      exact hm v (hkn x v hx hc)

theorem Enterable.covers {i blk} (h : Enterable g M S start scope i assigned) (hb : M.blocks[i]? = some blk) :
    Covers (Enterable g M S start scope) ends blk.handler blk.term blk.insns assigned := by
  obtain ⟨c, hc, before', blk', hk, hbl', hca, hco⟩ := h
  cases hbl'.symm.trans hb
  rcases hco with ⟨nodes', hb', hf⟩ | ⟨e, he, hco, hte⟩
  · refine hf.covers hp hpl hs hl hc rfl hb' hk fun _ i hi => .inr (hca.resolve_left ?_)
    simp [hi]
  · have hn := hca.resolve_right (by simp [hco.any_isCall])
    rw [hte, hn, ← append_nil blk.insns]
    refine hco.covers hp hs hc he hk fun assigned' _ ht =>
      ⟨fun _ hv => (nomatch hv), fun i hi => ?_, fun _ _ hi => (nomatch hi)⟩
    rw [mem_singleton.mp hi]
    exact .of_start hl (hp.target_reachable hc (Graph.mem_edges.mpr ⟨before', he⟩)) ht

/-- **What is live is the variable of a value that is known.** -/
theorem Follows.known_of_live (hb : b ∈ g.reachable) {nodes}
    (h : Follows M.blocks g.reachable.length S g start handler rest term nodes (g.block b).cont)
    (hbo : (g.block b).body = before ++ nodes) {v} (hv : LiveAt M v handler rest term) :
    ∃ x, S.var? x = some v ∧ g.Known scope b before x := by
  have hc : Covers (Enterable g M S start scope) False handler term rest
      fun v => ∃ x, S.var? x = some v ∧ g.Known scope b before x :=
    h.covers hp hpl hs hl hb rfl hbo (fun x v hv hx => ⟨x, hv, hx⟩) fun he => he.elim
  exact hv.assigned (Enterable.covers hp hpl hs hl) hc

end

end

end StackCompiler.Linear
