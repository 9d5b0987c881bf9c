/-
Inlining keeps the meaning of a graph that carries out the replaced calls. The
graph after a step is ahead of the one before it while that is inside the method
(`Aligned`), and the steps that are left to the end of the method are the rank.
-/
import StackCompiler.Proofs.SpliceMeaning

namespace StackCompiler

open List Store

theorem Store.length_of_read {env : Store} {xs} {vals} (h : env.read xs = some vals) :
    vals.length = xs.length := by
  have := congrArg length (read_eq_some.mp h)
  simpa using this.symm

theorem Store.exists_read {env : Store} : ∀ {xs : List Nat}, (∀ x ∈ xs, env x ≠ none) → ∃ vals, env.read xs = some vals
  | [], _ => ⟨[], rfl⟩
  | x :: xs, h => by
    obtain ⟨v, hv⟩ := Option.ne_none_iff_exists'.mp (h x mem_cons_self)
    obtain ⟨vals, hva⟩ := exists_read fun y hy => h y (mem_cons_of_mem _ hy)
    exact ⟨v :: vals, by simp only [read, hv, hva]⟩

namespace Graph

open Machine (StepsAlike Advances Equivalent Refines)

/-- A planned call whose method ends without a value. -/
def Mute (plan : NodeId → Option Method) (x : NodeId) : Prop :=
  ∃ m, plan x = some m ∧ m.code.getLast? = some .ret

/-- Planned calls are static, and their methods end without an event. Bytecode and runner return the same. -/
structure Carried {σ : Type} (g : Graph) (blocks : List BlockId) (r : Runner σ)
    (plan : NodeId → Option Method) (w : World) : Prop where
  static : ∀ {x m}, plan x = some m → (g.node x).op.staticCallee?.isSome = true
  runs : ∀ {c x m}, c ∈ blocks → x ∈ (g.block c).body → plan x = some m →
    ∀ vals : List Value, vals.length = (g.node x).op.inputs.length →
      ∃ v k k', (m.machine (w.withArgs vals)).Completes (m.entered (w.withArgs vals)) (.returned v) k ∧
        (r.machine m (w.withArgs vals)).Completes (r.start m (w.withArgs vals)) (.returned v) k' ∧
        (v = none ↔ m.code.getLast? = some .ret)

theorem Carried.callsOnly {σ : Type} {g : Graph} {blocks} {r : Runner σ}
    {plan : NodeId → Option Method} {w} (h : g.Carried blocks r plan w) : g.CallsOnly (Mute plan) := by
  rintro x ⟨m, hm, _⟩
  exact h.static hm

theorem service?_of_staticCallee? {op : Operator} (h : op.staticCallee?.isSome = true) :
    ∃ service, op.service? = some service := by
  cases op with
  | callStatic callee args => exact ⟨.callStatic callee, rfl⟩
  | _ => cases h

theorem stepsAlike_caller {σ : Type} {R : State → State → Prop} {R' : Nested σ → Nested σ → Prop}
    (hR : ∀ {s s'}, R s s' → R' (.caller s) (.caller s')) {p p' : List Event × Progress State Outcome}
    (h : StepsAlike R p p') :
    StepsAlike R' (Prod.map id (Progress.map .caller) p) (Prod.map id (Progress.map .caller) p') := by
  obtain ⟨new, s | o⟩ := p <;> obtain ⟨new', s' | o'⟩ := p'
  · exact ⟨h.1, hR h.2⟩
  · exact h.elim
  · exact h.elim
  · exact h

section
variable {σ : Type} {provider : MethodProvider} {limit : Nat} {g g' : Graph} {blocks : List BlockId} {b : BlockId}
  {n : NodeId} {before after args : List NodeId} {m : Method} {e : Expansion} {strict : Prop}
  {r : Runner σ} {plan : NodeId → Option Method} {w : World} {past : List Event} {pre : List NodeId} {y : NodeId}
  {s s' : State}

/-- How states of the two runs correspond. -/
inductive Aligned (g g' : Graph) (blocks : List BlockId) (b : BlockId) (n : NodeId)
    (before after : List NodeId) (m : Method) (e : Expansion) (strict : Prop) (r : Runner σ)
    (plan : NodeId → Option Method) (w : World) : Nested σ → Nested σ → Prop
  | caller {s s' : State} (h : Spliced g g' blocks b n before after e (Mute plan) strict s s') :
      Aligned g g' blocks b n before after m e strict r plan w (.caller s) (.caller s')
  /-- Inside the method of another call. -/
  | callee {pre : List NodeId} {s s' : State} {x : NodeId} {m' : Method} {vals : List Value} {t : σ}
      {v : Option Value} {k : Nat} (alike : Alike g g' blocks n e (Mute plan) strict pre s s')
      (body : (g.block s.block).body = pre ++ x :: s.rest) (other : x ≠ n)
      (rests : Rests g b n before e.body after s.block (pre ++ [x]) s.rest s'.rest) (planned : plan x = some m')
      (completes : (r.machine m' (w.withArgs vals)).Completes t (.returned v) k)
      (value : v = none ↔ m'.code.getLast? = some .ret) :
      Aligned g g' blocks b n before after m e strict r plan w (.callee s x m' vals t) (.callee s' x m' vals t)
  /-- Inside the method of the replaced call, whose nodes have been passed. -/
  | inlined {s s' : State} {vals : List Value} {t : σ} {v : Option Value} {k : Nat}
      (alike : Alike g g' blocks n e (Mute plan) strict before s s') (block : s.block = b) (rest : s.rest = after)
      (rest' : s'.rest = after) (completes : (r.machine m (w.withArgs vals)).Completes t (.returned v) k)
      (value : ∀ u, e.value = some u → s'.env u = v) (none : v = none ↔ e.value = none) :
      Aligned g g' blocks b n before after m e strict r plan w (.callee s n m vals t) (.caller s')

/-- The steps of the first run that the second has made already. -/
noncomputable def lead (g : Graph) (n : NodeId) (m : Method) (r : Runner σ) (w : World) : Nested σ → Nat
  | .caller s =>
    match s.env.read (g.node n).op.inputs with
    | some vals =>
      if s.rest.head? = some n then
        (r.machine m (w.withArgs vals)).stepsLeft (r.start m (w.withArgs vals)) + 2
      else 0
    | none => 0
  | .callee _ x m' vals t => if x = n then (r.machine m' (w.withArgs vals)).stepsLeft t + 1 else 0

theorem InOrder.visible_lt (hg : g.InOrder blocks) {c} (hc : c ∈ blocks) (hp : ∀ x ∈ pre, x ∈ (g.block c).body) {x}
    (hx : Visible g (g.block c).params pre x) :
    x < g.nodes.size := by
  rcases hx with hx | ⟨hx, _⟩
  · exact (hg.params hc).lt hx
  · exact hg.body hc (hp x hx)

/-- A call has returned without a value. -/
theorem Alike.pass (ha : Alike g g' blocks n e (Mute plan) strict pre s s') (hm : Mute plan y)
    (hn : e.rename n y = y) : Alike g g' blocks n e (Mute plan) strict (pre ++ [y]) s s' := by
  refine { ha with values := fun x hx => ?_, present := fun hs x hx hno => ?_ }
  · rcases hx.of_concat with ⟨rfl, _⟩ | hx
    · rw [hn, (ha.silent x hm).1, (ha.silent x hm).2]
    · exact ha.values x hx
  · rcases hx.of_concat with ⟨rfl, _⟩ | hx
    · exact absurd hm hno
    · exact ha.present hs x hx hno

section
variable (h : Splice provider limit g g' b n before after args m e) (hg : g.InOrder blocks) (hb : b ∈ blocks)
include h hg hb

/-- The second run passes the nodes of the method. -/
theorem Alike.computeAll (hcal : g.CallsOnly (Mute plan)) {env env' env₁ caught rest rest' rest₁}
    (ha : Alike g g' blocks n e (Mute plan) strict before ⟨b, rest, env, caught⟩ ⟨b, rest', env', caught⟩)
    (hc : g'.computeAll w e.body env' = some env₁) :
    Alike g g' blocks n e (Mute plan) strict before ⟨b, rest, env, caught⟩ ⟨b, rest₁, env₁, caught⟩ := by
  have ho : ∀ x, x < g.nodes.size → env₁ x = env' x := fun x hx =>
    computeAll_of_not_mem hc fun hne => Nat.not_lt_of_le (h.fresh x hne).1 hx
  have hbe : ∀ x ∈ before, x ∈ (g.block b).body := fun x hx => h.old ▸ mem_append_left _ hx
  refine { ha with values := fun x hx => ?_, kept' := fun x hx => ?_, silent := fun x hx => ?_ }
  · have hxn : x ≠ n := by
      rintro rfl
      rcases hx with hx | ⟨hx, _⟩
      · exact hg.not_mem_params hb h.mem_body hb hx
      · exact h.not_mem_before hg hb hx
    have hv := ha.values x hx
    rw [e.rename_of_ne hxn] at hv ⊢
    exact (ho x (hg.visible_lt hb hbe hx)).trans hv
  · by_cases hne : x ∈ e.body
    · exact ⟨b, hb, .inr (h.new ▸ mem_append_left _ (mem_append_right _ hne))⟩
    · refine ha.kept' x fun hn => hx ?_
      exact (computeAll_of_not_mem hc hne).trans hn
  · have hlt : x < g.nodes.size := by
      refine Nat.lt_of_not_le fun hge => ?_
      have hca := hcal x hx
      rw [node_of_ge hge] at hca
      cases hca
    exact ⟨(ha.silent x hx).1, (ho x hlt).trans (ha.silent x hx).2⟩

/-- The replaced call has returned what the second run has computed. -/
theorem Alike.resume_self (hcar : g.Carried blocks r plan w) (hpl : plan n = some m)
    (ha : Alike g g' blocks n e (Mute plan) strict before s s') (hbl : s.block = b) (hre : s.rest = after)
    (hr' : s'.rest = after) {v} (hva : ∀ u, e.value = some u → s'.env u = v) (hn : v = none ↔ e.value = none) :
    ∃ s₁, g.resume s n (.returned v) = .going s₁ ∧ s₁.rest = after ∧
      Spliced g g' blocks b n before after e (Mute plan) strict s₁ s' := by
  have hm : Mute plan n ↔ e.value = none := by
    rw [h.value_eq_none]
    constructor
    · rintro ⟨m₁, hm₁, hret⟩
      cases hpl.symm.trans hm₁
      exact hret
    · exact fun hret => ⟨m, hpl, hret⟩
  have hr : Rests g b n before e.body after s.block (before ++ [n]) s.rest s'.rest := by
    rw [hre, hr']
    exact .past (by rw [hbl, h.old]; simp) (h.not_mem_after hg hb)
  cases v with
  | none =>
    have hv := hn.mp rfl
    exact ⟨s, rfl, hre, before ++ [n], ha.pass (hm.mpr hv) (Expansion.rename_of_none hv), hr⟩
  | some u =>
    obtain ⟨z, hz⟩ := Option.ne_none_iff_exists'.mp fun hv => Option.some_ne_none u (hn.mpr hv)
    refine ⟨_, rfl, by split <;> exact hre, before ++ [n], ?_⟩
    split
    · next hvo =>
      obtain ⟨service, hse⟩ := service?_of_staticCallee? (hcar.static hpl)
      exact ⟨ha.skip (Node.hasValue_of_void hse hvo), hr⟩
    · refine ⟨⟨ha.mem, ha.block, ha.caught, fun x hx => ?_, fun hs x hx hno => ?_, fun x hx => ?_, ha.kept',
        fun x hx => ?_⟩, hr⟩
      · by_cases hxn : x = n
        · rw [hxn, Expansion.rename_self hz, hva z hz]
          simp [State.give]
        · simp only [State.give, set_ne _ _ hxn]
          exact ha.values x (hx.of_concat.resolve_left fun hx' => hxn hx'.1)
      · by_cases hxn : x = n
        · simp [State.give, hxn]
        · simp only [State.give, set_ne _ _ hxn]
          exact ha.present hs x (hx.of_concat.resolve_left fun hx' => hxn hx'.1) hno
      · by_cases hxn : x = n
        · exact ⟨b, hb, .inr (hxn ▸ h.mem_body)⟩
        · simp only [State.give, set_ne _ _ hxn] at hx
          exact ha.kept x hx
      · have hxn : x ≠ n := fun hxn => by
          rw [hm.mp (hxn ▸ hx)] at hz
          cases hz
        simp only [State.give, set_ne _ _ hxn]
        exact ha.silent x hx

theorem Aligned.start (he : (g.block entry).params = []) :
    Aligned g g' blocks b n before after m e strict r plan w (.caller g.start) (.caller g'.start) := by
  have hv : ∀ x, ¬ Visible g (g.block entry).params [] x := fun x hx => by
    rw [he] at hx
    rcases hx with hx | ⟨hx, _⟩ <;> cases hx
  refine .caller ⟨[], ⟨hg.entry, rfl, rfl, fun x hx => absurd hx (hv x),
    fun _ x hx => absurd hx (hv x), fun x hx => absurd rfl hx, fun x hx => absurd rfl hx,
    fun x _ => ⟨rfl, rfl⟩⟩, ?_⟩
  exact Rests.start h hg hb hg.entry

section
variable (hl : g.LocalUses blocks fun _ => True) (hcar : g.Carried blocks r plan w)
include hl hcar

theorem Alike.resume (ha : Alike g g' blocks n e (Mute plan) strict pre s s')
    (hbo : (g.block s.block).body = pre ++ y :: s.rest) (hyn : y ≠ n)
    (hr : Rests g b n before e.body after s.block (pre ++ [y]) s.rest s'.rest) {m'} (hpl : plan y = some m') {v}
    (hv : v = none ↔ m'.code.getLast? = some .ret) :
    ∃ s₁ s₁', g.resume s y (.returned v) = .going s₁ ∧ g'.resume s' y (.returned v) = .going s₁' ∧
      Spliced g g' blocks b n before after e (Mute plan) strict s₁ s₁' := by
  have hy : y ∈ (g.block s.block).body := hbo ▸ mem_append_right _ mem_cons_self
  have hk : (g'.node y).kind = (g.node y).kind := by rw [h.node_eq hg ha.mem hy]; rfl
  have hmu : Mute plan y ↔ v = none := by
    rw [hv]
    constructor
    · rintro ⟨m₁, hm₁, hre⟩
      cases hpl.symm.trans hm₁
      exact hre
    · exact fun hre => ⟨m', hpl, hre⟩
  cases v with
  | none => exact ⟨s, s', rfl, rfl, pre ++ [y], ha.pass (hmu.mpr rfl) (e.rename_of_ne hyn), hr⟩
  | some u =>
    refine ⟨_, _, rfl, rfl, pre ++ [y], ?_⟩
    rw [hk]
    split
    · next hvo =>
      obtain ⟨service, hs⟩ := service?_of_staticCallee? (hcar.static hpl)
      exact ⟨ha.skip (Node.hasValue_of_void hs hvo), hr⟩
    · exact ⟨ha.give h hg hb hl hbo hyn (fun hm => by cases hmu.mp hm) u, hr⟩

/-- The first run calls the method, and the second passes its nodes. -/
theorem Spliced.step_self (hf : strict → g.Fed blocks (Mute plan)) (hpl : plan n = some m)
    (hne : ∀ x ∈ e.body, plan x = none) {env env' caught}
    (ha : Alike g g' blocks n e (Mute plan) strict before ⟨b, n :: after, env, caught⟩
      ⟨b, e.body ++ after, env', caught⟩) :
    Advances .wrong strict (g.calling r plan w) (g'.calling r plan w)
      (Aligned g g' blocks b n before after m e strict r plan w) (lead g n m r w) past
      (.caller ⟨b, n :: after, env, caught⟩) (.caller ⟨b, e.body ++ after, env', caught⟩) := by
  have hi := h.inputs
  cases har : env.read (g.node n).op.inputs with
  | none =>
    refine .inr (.inr ⟨calling_missing hpl har, fun hs => ?_⟩)
    -- All inputs are there, so they can be read.
    obtain ⟨vals, hval⟩ := exists_read fun x (hx : x ∈ (g.node n).op.inputs) => by
      obtain ⟨hvi, hno⟩ := (hf hs).reads hb (.input h.old hx)
      exact ha.present hs x hvi hno
    cases har.symm.trans hval
  | some vals =>
    have hle := length_of_read har
    obtain ⟨v, k, k', hby, hco, _⟩ := hcar.runs hb h.mem_body hpl vals hle
    rw [hi] at hle
    obtain ⟨v₁, k₁, hb₁, hn, hm⟩ := h.means.runs w vals hle
    obtain ⟨hv, _⟩ := hby.unique hb₁
    cases hv
    have hre : env'.read args = some vals := by
      have hma : args.map (e.rename n) = args :=
        (map_congr_left fun x hx => e.rename_of_ne (ne_of_mem_of_not_mem hx h.apart)).trans
          (map_id' args)
      have hr := ha.reads h hg hb hl fun x hx => h.uses_arg hx
      rw [hma] at hr
      rw [read_congr hr, ← hi]
      exact har
    obtain ⟨env₁, hc, hva⟩ := hm env' hre
    refine .inr (.inl ⟨_, calling_call hpl har, ?_, _, computeAll_silent r hc hne, ?_⟩)
    · simp only [lead, har, head?_cons, if_true]
      exact Nat.lt_succ_self _
    · have hp : Alike g g' blocks n e (Mute plan) strict before ⟨b, n :: after, env, caught⟩
          ⟨b, after, env₁, caught⟩ := ha.computeAll h hg hb hcar.callsOnly hc
      exact .inlined { hp with } rfl rfl rfl hco hva hn

/-- Both runs call the same method. -/
theorem Spliced.step_call {c rest rest' env env' caught}
    (ha : Alike g g' blocks n e (Mute plan) strict pre ⟨c, y :: rest, env, caught⟩ ⟨c, y :: rest', env', caught⟩)
    (hbo : (g.block c).body = pre ++ y :: rest) (hyn : y ≠ n)
    (hre : Rests g b n before e.body after c (pre ++ [y]) rest rest') {m'} (hpl : plan y = some m') :
    StepsAlike (Aligned g g' blocks b n before after m e strict r plan w)
      ((g.calling r plan w).step past (.caller ⟨c, y :: rest, env, caught⟩))
      ((g'.calling r plan w).step past (.caller ⟨c, y :: rest', env', caught⟩)) := by
  have hy : y ∈ (g.block c).body := hbo ▸ mem_append_right _ mem_cons_self
  have hr : env'.read (g'.node y).op.inputs = env.read (g.node y).op.inputs := by
    rw [h.node_eq hg ha.mem hy, Node.mapNodes, Operator.inputs_mapInputs]
    exact read_congr (ha.reads h hg hb hl fun x hx => .input hbo hx)
  cases har : env.read (g.node y).op.inputs with
  | none =>
    rw [calling_missing hpl har, calling_missing hpl (hr.trans har)]
    exact ⟨rfl, rfl⟩
  | some vals =>
    rw [calling_call hpl har, calling_call hpl (hr.trans har)]
    obtain ⟨v, k, k', _, hc, hret⟩ := hcar.runs ha.mem hy hpl vals (length_of_read har)
    exact ⟨rfl, .callee { ha with } hbo hyn hre hpl hc hret⟩

section
variable (hf : strict → g.Fed blocks (Mute plan)) (hpl : plan n = some m) (hne : ∀ x ∈ e.body, plan x = none)
include hf hpl hne

/-- Caller and spliced caller advance together. -/
theorem Spliced.step (hs : Spliced g g' blocks b n before after e (Mute plan) strict s s') :
    Advances .wrong strict (g.calling r plan w) (g'.calling r plan w)
      (Aligned g g' blocks b n before after m e strict r plan w) (lead g n m r w) past (.caller s) (.caller s') := by
  have hc := hcar.callsOnly
  obtain ⟨pre, ha, hr⟩ := hs
  obtain ⟨c, rest, env, caught⟩ := s
  obtain ⟨c', rest', env', caught'⟩ := s'
  obtain rfl : c' = c := ha.block
  obtain rfl : caught' = caught := ha.caught
  dsimp only at hr
  cases rest with
  | nil =>
    obtain ⟨rfl, rfl⟩ := hr.nil h
    have hn : ∀ x, ([] : List NodeId).head? = some x → plan x = none := fun _ hx => by cases hx
    refine .inl ?_
    rw [calling_ordinary hn, calling_ordinary hn]
    exact stepsAlike_caller .caller (ha.stepCont h hg hb hl hf hc)
  | cons y rest =>
    have hbo := hr.body h
    by_cases hyn : y = n
    · subst hyn
      obtain ⟨rfl, rfl, rfl, rfl⟩ := hr.self h hg hb
      exact step_self h hg hb hl hcar hf hpl hne ha
    · obtain ⟨rest₁, rfl, hr₁⟩ := hr.cons hyn
      cases hp' : plan y with
      | none =>
        have hh : ∀ x, some y = some x → plan x = none := fun x hx => by cases hx; exact hp'
        have hm : ¬ Mute plan y := by
          rintro ⟨m₁, hm₁, _⟩
          cases hp'.symm.trans hm₁
        have ha' : Alike g g' blocks n e (Mute plan) strict pre ⟨c', rest, env, caught'⟩
            ⟨c', rest₁, env', caught'⟩ := { ha with }
        refine .inl ?_
        rw [calling_ordinary (s := ⟨c', y :: rest, env, caught'⟩) hh,
          calling_ordinary (s := ⟨c', y :: rest₁, env', caught'⟩) hh]
        exact stepsAlike_caller .caller (ha'.stepNode h hg hb hl hf hc hbo hyn hm hr₁)
      | some m' => exact .inl (step_call h hg hb hl hcar ha hbo hyn hr₁ hp')

/-- **One step**, outside of the methods and in them. -/
theorem Aligned.step (past : List Event) {a a'} (ha : Aligned g g' blocks b n before after m e strict r plan w a a') :
    Advances .wrong strict (g.calling r plan w) (g'.calling r plan w)
      (Aligned g g' blocks b n before after m e strict r plan w) (lead g n m r w) past a a' := by
  cases ha with
  | caller hs => exact hs.step h hg hb hl hcar hf hpl hne
  | callee hal hbo ho hr hp' hc hv =>
    refine .inl ?_
    cases hc with
    | last hst =>
      obtain ⟨s₁, s₁', hs₁, hs₁', hsp⟩ :=
        hal.resume h hg hb hl hcar hbo ho hr hp' hv
      rw [calling_ended (hst past), calling_ended (hst past), hs₁, hs₁']
      exact ⟨rfl, .caller hsp⟩
    | step hst hc =>
      rw [calling_going (hst past), calling_going (hst past)]
      exact ⟨rfl, .callee hal hbo ho hr hp' hc hv⟩
  | @inlined s s' vals t v k hal hbl hre hr' hc hv hno =>
    have hle : lead g n m r w (.callee s n m vals t) = k + 1 := by
      rw [lead, if_pos rfl, hc.stepsLeft_eq]
    cases hc with
    | last hst =>
      obtain ⟨s₁, hs₁, hr₁, hsp⟩ :=
        hal.resume_self h hg hb hcar hpl hbl hre hr' hv hno
      refine .inr (.inl ⟨.caller s₁, ?_, ?_, _, .refl _ _, .caller hsp⟩)
      · rw [calling_ended (hst past), hs₁]
        rfl
      · have hh : s₁.rest.head? ≠ some n := fun hn =>
          h.not_mem_after hg hb (hr₁ ▸ mem_of_head? hn)
        rw [hle, lead]
        split
        · rw [if_neg hh]
          exact Nat.zero_lt_one
        · exact Nat.zero_lt_one
    | step hst hc =>
      refine .inr (.inl ⟨_, calling_going (hst past), ?_, _, .refl _ _,
        .inlined hal hbl hre hr' hc hv hno⟩)
      rw [hle, lead, if_pos rfl, hc.stepsLeft_eq]
      exact Nat.lt_succ_self _

end

end

section
variable (hl : g.LocalUses blocks fun _ => True) (he : (g.block entry).params = [])
  (hcar : g.Carried blocks r plan w)
include hl he hcar

theorem Splice.refines (hpl : plan n = some m) (hne : ∀ x ∈ e.body, plan x = none) :
    Refines .wrong (g.calling r plan w) (.caller g.start) (g'.calling r plan w) (.caller g'.start) :=
  .of_advances (Aligned.step h hg hb hl hcar (fun hno : False => hno.elim) hpl hne) (.start h hg hb he)

theorem Splice.equivalent (hf : g.Fed blocks (Mute plan)) (hpl : plan n = some m)
    (hne : ∀ x ∈ e.body, plan x = none) :
    Equivalent (g.calling r plan w) (.caller g.start) (g'.calling r plan w) (.caller g'.start) :=
  .of_advances (Aligned.step h hg hb hl hcar (fun _ : True => hf) hpl hne) trivial
    (.start h hg hb he)

end

end
end

end Graph
end StackCompiler
