/-
A faithful change keeps the meaning of a graph.

The two runs go through the same blocks. What is known and kept has in one
run, under its new name, the value that it has in the other
(`Change.Agrees`). A node that is dropped is passed by one run alone; every
other step is made by both.
-/
import StackCompiler.Proofs.Change

namespace StackCompiler

open List Comparison Store

/-! ## Comparisons -/

theorem World.compare_self (w : World) (cond : Comparison) {a} (h : a.kind ≠ .double) :
    w.compare cond a a = cond.onSame := by
  have hs := w.before_irrefl a
  cases a with
  | int x => cases cond <;> simp [World.compare, eval?, holds, onSame]
  | long x => cases cond <;> simp [World.compare, eval?, holds, onSame]
  | word x => cases cond <;> simp [World.compare, eval?, holds, onSame]
  | double x => exact absurd rfl h
  | reference x | null =>
    cases cond <;>
      simp [World.compare, eval?, holds, onSame, Value.kind, hs]

namespace Graph

section
variable {g : Graph} {w : World} {env : Store}

theorem Settled.eq_constant {x} (h : g.Settled env x) {a} (ha : g.constant? x = some a) :
    env x = some a := by
  obtain ⟨v, hv, _, hc⟩ := h
  rw [hv]
  refine congrArg some (hc a ?_)
  rw [constant?] at ha
  cases hop : (g.node x).op <;> rw [hop] at ha <;> cases ha
  rfl

theorem evaluate?_value {op v} (hv : g.evaluate? op = some v) (hi : ∀ x ∈ op.inputs, g.Settled env x) (k : Kind) :
    op.value? w k env = some v := by
  cases op with
  | binary op lhs rhs =>
    simp only [evaluate?] at hv
    split at hv
    · next a b ha hb =>
      have hl := (hi lhs (by simp [Operator.inputs])).eq_constant ha
      have hr := (hi rhs (by simp [Operator.inputs])).eq_constant hb
      simp only [Operator.value?, hl, hr, World.binary, hv, Option.getD_some]
    · cases hv
  | negate x =>
    simp only [evaluate?] at hv
    split at hv
    · next a ha =>
      have hx := (hi x (by simp [Operator.inputs])).eq_constant ha
      simp only [Operator.value?, hx, Option.map_some, Value.negateAs, hv, Option.getD_some]
    · cases hv
  | convert c x =>
    simp only [evaluate?] at hv
    split at hv
    · next a ha =>
      have hx := (hi x (by simp [Operator.inputs])).eq_constant ha
      simp only [Operator.value?, hx, Option.map_some, Conversion.apply, hv, Option.getD_some]
    · cases hv
  | _ => cases hv

theorem outcome?_compare {cond lhs rhs outcome} (ho : g.outcome? cond lhs rhs = some outcome) (hl : g.Settled env lhs)
    (hr : g.Settled env rhs) {a b} (ha : env lhs = some a) (hb : env rhs = some b) :
    w.compare cond a b = outcome := by
  rw [outcome?] at ho
  split at ho
  · next hs =>
    obtain ⟨rfl, hki⟩ := hs
    obtain rfl : a = b := Option.some.inj (ha.symm.trans hb)
    obtain ⟨v, hv, hfi, _⟩ := hl
    obtain rfl : a = v := Option.some.inj (ha.symm.trans hv)
    rw [← Option.some.inj ho]
    refine w.compare_self cond fun hd => hki ?_
    rw [Value.Fits, hd] at hfi
    cases hk : g.kindOf lhs <;> rw [hk] at hfi <;> cases hfi
  · split at ho
    · next a' b' ha' hb' =>
      obtain rfl : a = a' := Option.some.inj (ha.symm.trans (hl.eq_constant ha'))
      obtain rfl : b = b' := Option.some.inj (hb.symm.trans (hr.eq_constant hb'))
      rw [World.compare, ho, Option.getD_some]
    · cases ho

end

/-! ## Steps of graphs that differ in names -/

section
variable {R : State → State → Prop} {f : NodeId → NodeId} {edge : Edge → Edge} {g g' : Graph} {w : World}
  {past : List Event} {s s' : State} {n : NodeId}

theorem throwTo_alike {handler} {x}
    (h : ∀ e, handler = some e → R (g.follow e s.env (some x)) (g'.follow (edge e) s'.env (some x)))
    (new : List Event) :
    Machine.StepsAlike R (new, g.throwTo handler s.env x) (new, g'.throwTo (handler.map edge) s'.env x) := by
  cases handler with
  | none => exact ⟨rfl, rfl⟩
  | some e => exact ⟨rfl, h e rfl⟩

theorem stepNode_alike
    (hn : g'.node n =
      ⟨(g.node n).op.mapInputs f, (g.node n).kind, (g.node n).bci, (g.node n).handler.map edge⟩)
    (hc : s'.caught = s.caught) (hi : ∀ x ∈ (g.node n).op.inputs, s'.env (f x) = s.env x)
    (hp : ∀ b i, (g.node n).op = .blockParam b i → R s s') (hs : (g.node n).hasValue = false → R s s')
    (hg : ∀ v, g.Gives w past s n v → R (s.give n v) (s'.give n v))
    (ht : ∀ e, (g.node n).handler = some e → ∀ q x, w.oracle past q = .throws x →
      R (g.follow e s.env (some x)) (g'.follow (edge e) s'.env (some x))) :
    Machine.StepsAlike R (g.stepNode w past s n) (g'.stepNode w past s' n) := by
  cases hse : (g.node n).op.service? with
  | some service =>
    have hse' : (g'.node n).op.service? = some service := by rw [hn, Operator.service?_mapInputs, hse]
    have hre : s'.env.read (g'.node n).op.inputs = s.env.read (g.node n).op.inputs := by
      rw [hn, Operator.inputs_mapInputs]
      refine read_congr ?_
      rw [map_map]
      exact map_congr_left hi
    cases har : s.env.read (g.node n).op.inputs with
    | none =>
      rw [stepNode_service_none hse har, stepNode_service_none hse' (hre.trans har)]
      exact ⟨rfl, rfl⟩
    | some args =>
      rw [stepNode_service hse har, stepNode_service hse' (hre.trans har), hn]
      cases hv : w.oracle past ⟨service, args⟩ with
      | value v =>
        refine ⟨rfl, ?_⟩
        split
        · next hvo => exact hs (Node.hasValue_of_void hse hvo)
        · next hvo => exact hg v (.answered hse hv hvo)
      | throws x => exact throwTo_alike (fun e he => ht e he _ x hv) _
  | none =>
    have hva := Operator.value?_mapInputs w (g.node n).kind hi
    simp only [stepNode, hn]
    cases hop : (g.node n).op with
    | blockParam b i => exact ⟨rfl, hp b i hop⟩
    | safepoint => exact ⟨rfl, hs (by rw [Node.hasValue, hop])⟩
    | caught =>
      simp only [Operator.mapInputs, hc]
      cases hx : s.caught with
      | none => exact ⟨rfl, rfl⟩
      | some x => exact ⟨rfl, hg x (.caught hop hx)⟩
    | constant | binary | negate | convert | parameter =>
      rw [hop] at hva
      simp only [Operator.mapInputs, Operator.service?] at hva ⊢
      rw [hva]
      generalize hv : Operator.value? _ w _ s.env = r
      cases r with
      | none => exact ⟨rfl, rfl⟩
      | some v => exact ⟨rfl, hg v (.computed (by rw [hop, hv]))⟩
    | _ =>
      rw [hop] at hse
      cases hse

theorem stepCont_alike {k} (hi : ∀ x ∈ k.inputs, s'.env (f x) = s.env x)
    (he : ∀ e ∈ k.edges, ∀ caught, (∀ v, caught = some v → ∃ x handler, k = .raise x handler ∧ s.env x = some v) →
      R (g.follow e s.env caught) (g'.follow (edge e) s'.env caught)) :
    Machine.StepsAlike R (g.stepCont w s k) (g'.stepCont w s' (k.mapWith f edge)) := by
  cases k with
  | jump e => exact ⟨rfl, he e mem_cons_self none nofun⟩
  | branch cond lhs rhs taken notTaken =>
    have hrh : rhs ∈ [lhs, rhs] := mem_cons_of_mem _ mem_cons_self
    simp only [Continuation.mapWith, stepCont, hi lhs mem_cons_self, hi rhs hrh]
    cases s.env lhs with
    | none => exact ⟨rfl, rfl⟩
    | some a =>
      cases s.env rhs with
      | none => exact ⟨rfl, rfl⟩
      | some b =>
        refine ⟨rfl, ?_⟩
        cases w.compare cond a b with
        | true => exact he taken mem_cons_self none nofun
        | false => exact he notTaken (mem_cons_of_mem _ mem_cons_self) none nofun
  | ret value =>
    cases value with
    | none => exact ⟨rfl, rfl⟩
    | some x =>
      simp only [Continuation.mapWith, Option.map_some, stepCont, hi x mem_cons_self]
      cases s.env x <;> exact ⟨rfl, rfl⟩
  | raise x handler =>
    simp only [Continuation.mapWith, stepCont, hi x mem_cons_self]
    cases hv : s.env x with
    | none => exact ⟨rfl, rfl⟩
    | some v =>
      refine throwTo_alike (fun e hh => he e (Option.mem_toList.mpr hh) _ fun u hu => ?_) _
      exact ⟨x, handler, rfl, hv.trans hu⟩

end

namespace Change

variable {c : Change} {g g' : Graph} {scope : BlockId → NodeId → Prop} {w : World}

/-- Known values have the same value under their new names. -/
def Agrees (c : Change) (g : Graph) (scope : BlockId → NodeId → Prop) (b : BlockId) (before : List NodeId)
    (env env' : Store) : Prop :=
  ∀ x, g.Known scope b before x → c.kept x = true → env' (c.rename x) = env x

/-- How the states of two runs correspond. -/
structure Related (c : Change) (g : Graph) (scope : BlockId → NodeId → Prop) (before : List NodeId)
    (s s' : State) : Prop where
  reached : g.Reached scope s before
  block : s'.block = s.block
  rest : s'.rest = s.rest.filter c.kept
  caught : s'.caught = s.caught
  agrees : c.Agrees g scope s.block before s.env s'.env

section
variable {b : BlockId} {before rest : List NodeId} {n : NodeId} {env env' : Store} {caught : Option Value}

section
variable (h : c.Agrees g scope b before env env')
include h

theorem Agrees.inputs {xs : List NodeId} (hk : ∀ x ∈ xs, g.Known scope b before x)
    (hke : ∀ x ∈ xs, c.kept x = true) : ∀ x ∈ xs, env' (c.rename x) = env x :=
  fun x hx => h x (hk x hx) (hke x hx)

theorem Agrees.give (hf : c.Faithful g scope) (hb : b ∈ g.reachable) {after}
    (hbo : (g.block b).body = before ++ n :: after) (v : Value) :
    c.Agrees g scope b (before ++ [n]) (env.set n (some v)) (env'.set n (some v)) := by
  intro x hx hk
  by_cases hxn : x = n
  · subst hxn
    rw [hf.body hb (hbo ▸ mem_append_right _ mem_cons_self), set_self, set_self]
  · rcases hx.of_concat with hx | ⟨hx, _⟩
    · rw [set_ne _ _ hxn, set_ne _ _ fun hn => hxn (hf.apart hb hbo hx hn), h x hx hk]
    · exact absurd hx hxn

theorem Agrees.drop (hn : c.kept n = false) (v : Value) :
    c.Agrees g scope b (before ++ [n]) (env.set n (some v)) env' := by
  intro x hx hk
  have hxn : x ≠ n := by
    rintro rfl
    rw [hn] at hk
    cases hk
  rcases hx.of_concat with hx | ⟨hx, _⟩
  · rw [set_ne _ _ hxn, h x hx hk]
  · exact absurd hx hxn

theorem Agrees.skip (hn : (g.node n).hasValue = false) :
    c.Agrees g scope b (before ++ [n]) env env' := by
  intro x hx hk
  rcases hx.of_concat with hx | ⟨_, hv⟩
  · exact h x hx hk
  · rw [hn] at hv
    cases hv

theorem Agrees.follow (ht : c.Turns g g') (hw : g.WellFormed scope) (hf : c.Faithful g scope) (hb : b ∈ g.reachable)
    {e} (he : g.Leaves b before e) (hpa : c.Passes e) :
    c.Agrees g scope e.target [] (env.setAll (g.block e.target).params (e.args.map env))
      (env'.setAll (g'.block e.target).params ((c.edge g e).args.map env')) := by
  have hm := mem_edges.mpr ⟨before, he⟩
  have hta := hw.proper.target_reachable hb hm
  have har : ∀ a ∈ e.args, env' (c.rename a) = env a := fun a ha =>
    h a (hw.scopes.edge hb he a (.inl ha)) (hpa a ha)
  have hsu : ∀ q ∈ (g'.block e.target).params, q ∈ (g.block e.target).params := by
    rw [ht.params hta]
    exact fun q hq => (mem_filter.mp hq).1
  intro x hx hk
  by_cases hp : x ∈ (g.block e.target).params
  · obtain ⟨a, hqa⟩ := hw.proper.exists_arg hb hm hp
    have ha := (of_mem_zip hqa).2
    rw [hw.proper.setAll_param hb hm hqa]
    cases hs : c.stays x with
    | true =>
      have hn : (g'.block e.target).params.Nodup := by
        rw [ht.params hta]
        exact (hw.proper.params_nodup hta).filter _
      have hz : (x, c.rename a) ∈ (g'.block e.target).params.zip (c.edge g e).args := by
        rw [ht.zip_edge hw.proper hb hm]
        exact mem_map.mpr ⟨(x, a), mem_filter.mpr ⟨hqa, hs⟩, rfl⟩
      rw [hf.param hta hp hs, ← har a ha]
      refine setAll_of_mem_zip _ _ _ hn ?_
      rw [zip_map_right]
      exact mem_map.mpr ⟨_, hz, rfl⟩
    | false =>
      have ho := hf.outside hta hx fun hin => by rw [hs] at hin; cases hin.2
      rw [setAll_of_not_mem _ _ _ fun hin => ho (hsu _ hin), hf.gone hb hm hqa hs]
      exact har a ha
  · have ho := hf.outside hta hx fun hin => hp hin.1
    have hsc : scope e.target x := by
      rcases hx with hx | hx | ⟨hx, _⟩
      · exact hx
      · exact absurd hx hp
      · cases hx
    rw [setAll_of_not_mem _ _ _ fun hin => ho (hsu _ hin), setAll_of_not_mem _ _ _ hp]
    exact h x (hw.scopes.edge hb he x (.inr hsc)) hk

end

end

/-! ## Steps -/

/-- The relation at some place of the body. -/
def Corresponds (c : Change) (g : Graph) (scope : BlockId → NodeId → Prop) (s s' : State) : Prop :=
  ∃ before, c.Related g scope before s s'

section
variable {b : BlockId} {before rest : List NodeId} {n : NodeId} {env env' : Store}
  {caught : Option Value}

section
variable {s s'} (h : c.Related g scope before s s') (ht : c.Turns g g') (hw : g.WellFormed scope)
  (hf : c.Faithful g scope)
include h ht hw hf

theorem Related.follow {e} (he : g.Leaves s.block before e) (hp : c.Passes e)
    (hc : ∀ x, caught = some x → x.Fits .reference) :
    c.Corresponds g scope (g.follow e s.env caught) (g'.follow (c.edge g e) s'.env caught) := by
  have hr := h.reached.follow hw he hc
  refine ⟨[], hr, rfl, ht.body hr.reachable, rfl, ?_⟩
  exact h.agrees.follow ht hw hf h.reached.reachable he hp

end

theorem Related.stepNode
    (h : c.Related g scope before ⟨b, n :: rest, env, caught⟩ ⟨b, (n :: rest).filter c.kept, env', caught⟩)
    (ht : c.Turns g g') (hw : g.WellFormed scope) (hf : c.Faithful g scope)
    (hsu : w.Suits g.signature) (hke : c.kept n = true) (past : List Event) :
    Machine.StepsAlike (c.Corresponds g scope) (g.stepNode w past ⟨b, rest, env, caught⟩ n)
      (g'.stepNode w past ⟨b, rest.filter c.kept, env', caught⟩ n) := by
  have hre := h.reached
  have hb := hre.reachable
  have hn := ht.node hb hre.mem_body hke
  have hg : ∀ v : Value, g.Gives w past ⟨b, rest, env, caught⟩ n v →
      c.Corresponds g scope (State.give ⟨b, rest, env, caught⟩ n v)
        (State.give ⟨b, rest.filter c.kept, env', caught⟩ n v) := fun v hv =>
    ⟨before ++ [n], hre.given hw hsu hv, rfl, rfl, rfl, h.agrees.give hf hb hre.body v⟩
  generalize hn' : g'.node n = n' at hn
  cases hn with
  | @folded v hv =>
    have hva := evaluate?_value hv (hre.inputs hw) (w := w) (g.node n).kind
    have hva' : (g'.node n).op.value? w (g'.node n).kind env' = some v := by rw [hn']; rfl
    rw [stepNode_value hva, stepNode_value hva']
    exact ⟨rfl, hg v (.computed hva)⟩
  | same hi hh =>
    refine stepNode_alike hn' rfl (h.agrees.inputs (hw.scopes.inputs hb hre.body) hi)
      (fun k i hop => absurd hop (hw.placed.op hb hre.mem_body k i))
      (fun hv => ⟨before ++ [n], hre.skip hv, rfl, rfl, rfl, h.agrees.skip hv⟩) hg fun e he q x hx => ?_
    refine h.follow ht hw hf (.catches hre.body he) (hh e he) fun y hy => ?_
    exact Option.some.inj hy ▸ hsu.kinded.throws _ _ x hx

theorem Related.stepCont {s s'} (h : c.Related g scope (g.block s.block).body s s') (ht : c.Turns g g')
    (hw : g.WellFormed scope) (hf : c.Faithful g scope) :
    Machine.StepsAlike (c.Corresponds g scope) (g.stepCont w s (g.block s.block).cont)
      (g'.stepCont w s' (g'.block s.block).cont) := by
  have hb := h.reached.reachable
  have hco := ht.cont hb
  have hkn := hw.scopes.cont hb
  have hs : ∀ x ∈ (g.block s.block).cont.inputs, g.Settled s.env x := fun x hx =>
    h.reached.values x (hkn x hx)
  have hgo : ∀ {e}, e ∈ (g.block s.block).cont.edges → c.Passes e → ∀ {caught : Option Value},
      (∀ v, caught = some v → ∃ x handler, (g.block s.block).cont = .raise x handler ∧ s.env x = some v) →
      c.Corresponds g scope (g.follow e s.env caught) (g'.follow (c.edge g e) s'.env caught) := by
    refine fun he hp caught hc => h.follow ht hw hf (.cont he) hp fun v hv => ?_
    obtain ⟨x, handler, hk, hx⟩ := hc v hv
    obtain ⟨u, hu, hfi, _⟩ := hs x (hk ▸ mem_cons_self)
    cases hx.symm.trans hu
    rwa [hw.kinded.raise hb hk] at hfi
  generalize (g.block s.block).cont = k, (g'.block s.block).cont = k' at hco hkn hs hgo
  cases hco with
  | same hk hp => exact stepCont_alike (h.agrees.inputs hkn hk) fun e he _ hc => hgo he (hp e he) hc
  | @decided cond lhs rhs taken notTaken outcome ho hp =>
    have hl := hs lhs mem_cons_self
    have hr := hs rhs (mem_cons_of_mem _ mem_cons_self)
    obtain ⟨a, ha, _⟩ := id hl
    obtain ⟨d, hd, _⟩ := id hr
    have hc := outcome?_compare (w := w) ho hl hr ha hd
    simp only [Graph.stepCont, ha, hd, hc]
    refine ⟨rfl, hgo ?_ hp nofun⟩
    cases outcome <;> simp [Continuation.edges]

end

/-! ## Runs -/

/-- A node that is dropped is passed by one run alone. -/
theorem Related.stepDropped {b before rest n env caught s'}
    (h : c.Related g scope before ⟨b, n :: rest, env, caught⟩ s') (ht : c.Turns g g') (hw : g.WellFormed scope)
    (hsu : w.Suits g.signature) (hk : c.kept n = false) (past : List Event) :
    ∃ env₁, g.stepNode w past ⟨b, rest, env, caught⟩ n = ([], .going ⟨b, rest, env₁, caught⟩) ∧
      c.Corresponds g scope ⟨b, rest, env₁, caught⟩ s' := by
  have hp := ht.pure h.reached.reachable h.reached.mem_body hk
  obtain ⟨hs, hpo, hc⟩ := Operator.of_isPure hp
  obtain ⟨v, hv, _⟩ := h.reached.exists_value hw hsu hs hpo hc
  have hg : g.Gives w past ⟨b, rest, env, caught⟩ n v := .computed hv
  refine ⟨env.set n (some v), stepNode_value hv, before ++ [n], h.reached.given hw hsu hg, h.block, ?_, h.caught,
    h.agrees.drop hk v⟩
  rw [h.rest, filter_cons_of_neg (by simp [hk])]

section
variable (ht : c.Turns g g') (hw : g.WellFormed scope)
include ht hw

theorem Turns.simulation (hf : c.Faithful g scope) (hsu : w.Suits g.signature) :
    Machine.Simulation id (g.machine w) (g'.machine w) (c.Corresponds g scope)
      (fun s => s.rest.length) := by
  refine .of_performs fun {s s'} past hs => ?_
  obtain ⟨b, rest, env, caught⟩ := s
  obtain ⟨b', rest', env', caught'⟩ := s'
  obtain ⟨before, h⟩ := hs
  obtain rfl : b' = b := h.block
  obtain rfl : rest' = rest.filter c.kept := h.rest
  obtain rfl : caught' = caught := h.caught
  cases rest with
  | nil =>
    have hb : (g.block b').body = before := by simpa using h.reached.body
    exact .inl (Machine.Simulation.performs_of_alike (Related.stepCont (hb ▸ h) ht hw hf))
  | cons n rest =>
    cases hk : c.kept n with
    | true =>
      have hst := h.stepNode ht hw hf hsu hk past
      refine .inl (Machine.Simulation.performs_of_alike ?_)
      simp only [machine, filter_cons_of_pos hk]
      exact hst
    | false =>
      obtain ⟨env₁, hst, hr⟩ := h.stepDropped ht hw hsu hk past
      exact .inr ⟨_, hst, Nat.lt_succ_self _, hr⟩

theorem Turns.start : c.Corresponds g scope g.start g'.start := by
  refine ⟨[], start_reached hw, rfl, ht.body hw.proper.entry_reachable, rfl, fun x hx _ => ?_⟩
  rcases hx with hx | hx | ⟨hx, _⟩
  · exact absurd hx (hw.scopes.entry x)
  · rw [Graph.start, hw.scopes.entry_params] at hx
    cases hx
  · cases hx

/-- **A faithful change keeps the meaning.** -/
theorem Turns.equivalent (hf : c.Faithful g scope) (hs : w.Suits g.signature) :
    Machine.Equivalent (g.machine w) g.start (g'.machine w) g'.start :=
  ((ht.simulation hw hf hs).sameBehaviour (ht.start hw)).equivalent

end

end Change
end Graph
end StackCompiler
