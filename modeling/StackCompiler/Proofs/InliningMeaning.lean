/-
Inlining keeps the meaning of the graph of a method that carries out the calls
that are going to be replaced (`Unfolds.meaning`). A method that ends without a
value may have been called for one; this is the only way to lose a definition.
-/
import StackCompiler.Proofs.BuildWellFormed
import StackCompiler.Proofs.CallSimulation

namespace StackCompiler.Graph

open List Program

open Machine (StepsAlike Equivalent Refines)

/-! ## Runs stay inside blocks -/

section
variable {g : Graph} {w : World} {past new : List Event} {s s' : State} {n : NodeId} {cont : Continuation}

theorem stepNode_going (h : g.stepNode w past s n = (new, .going s')) :
    (s'.block = s.block ∧ s'.rest = s.rest) ∨
      ∃ e x, (g.node n).handler = some e ∧ s' = g.follow e s.env (some x) := by
  rw [stepNode] at h
  dsimp only at h
  split at h
  · cases h
    exact .inl ⟨rfl, rfl⟩
  · cases h
    exact .inl ⟨rfl, rfl⟩
  · split at h <;> cases h
    exact .inl ⟨rfl, rfl⟩
  · split at h
    · split at h
      · obtain ⟨_, h⟩ := Prod.mk.inj h
        split at h
        · cases h
          left
          split <;> exact ⟨rfl, rfl⟩
        · next x _ =>
          cases hh : (g.node n).handler with
          | none =>
            rw [hh] at h
            cases h
          | some e =>
            rw [hh] at h
            cases h
            exact .inr ⟨e, x, rfl, rfl⟩
      · cases h
    · split at h <;> cases h
      exact .inl ⟨rfl, rfl⟩

theorem stepCont_going (h : g.stepCont w s cont = (new, .going s')) :
    ∃ e ∈ cont.edges, ∃ x, s' = g.follow e s.env x := by
  cases cont with
  | jump e =>
    cases h
    exact ⟨e, mem_singleton_self e, none, rfl⟩
  | branch cond lhs rhs taken notTaken =>
    rw [stepCont] at h
    split at h
    · cases h
      refine ⟨_, ?_, none, rfl⟩
      split <;> simp [Continuation.edges]
    · cases h
  | ret value =>
    cases value with
    | none => cases h
    | some x =>
      rw [stepCont] at h
      split at h <;> cases h
  | raise exception handler =>
    rw [stepCont] at h
    split at h
    · next x _ =>
      cases handler with
      | none => cases h
      | some e =>
        cases h
        exact ⟨e, by simp [Continuation.edges], some x, rfl⟩
    · cases h

end

/-- A run is in one of the blocks, before nodes of its body. -/
def State.Within (g : Graph) (blocks : List BlockId) (s : State) : Prop :=
  s.block ∈ blocks ∧ ∀ x ∈ s.rest, x ∈ (g.block s.block).body

/-- The graph that carries out calls is inside the blocks, also where it is inside a method. -/
def Nested.Within {σ : Type} (g : Graph) (blocks : List BlockId) : Nested σ → Prop
  | .caller s => s.Within g blocks
  | .callee s n _ _ _ => s.Within g blocks ∧ n ∈ (g.block s.block).body

section
variable {σ : Type} {g g' : Graph} {blocks : List BlockId} {r : Runner σ} {plan : NodeId → Option Method}
  {w : World} {past new : List Event} {s s' : State} {n : NodeId}

theorem InOrder.follow_within (hg : g.InOrder blocks) {b} (hb : b ∈ blocks) {e} (he : e ∈ g.edges b) (env : Store)
    (caught : Option Value) : (g.follow e env caught).Within g blocks :=
  ⟨hg.target hb he, fun _ hx => hx⟩

theorem InOrder.start_within (hg : g.InOrder blocks) : g.start.Within g blocks := ⟨hg.entry, fun _ hx => hx⟩

theorem handler_mem_edges {b} (hn : n ∈ (g.block b).body) {e} (he : (g.node n).handler = some e) :
    e ∈ g.edges b := by
  obtain ⟨before, after, hb⟩ := append_of_mem hn
  exact mem_edges.mpr ⟨before, .catches hb he⟩

theorem InOrder.machine_within (hg : g.InOrder blocks) (hs : s.Within g blocks)
    (h : (g.machine w).step past s = (new, .going s')) : s'.Within g blocks := by
  obtain ⟨b, rest, env, caught⟩ := s
  obtain ⟨hb, hr⟩ := hs
  cases rest with
  | nil =>
    obtain ⟨e, he, x, rfl⟩ := stepCont_going h
    exact hg.follow_within hb (mem_edges.mpr ⟨_, .cont he⟩) _ _
  | cons n rest =>
    rcases stepNode_going h with ⟨hbl, hr'⟩ | ⟨e, x, he, rfl⟩
    · refine ⟨hbl ▸ hb, fun x hx => ?_⟩
      rw [hr'] at hx
      rw [hbl]
      exact hr x (mem_cons_of_mem _ hx)
    · exact hg.follow_within hb (handler_mem_edges (hr n mem_cons_self) he) _ _

theorem InOrder.resume_within (hg : g.InOrder blocks) (hs : s.Within g blocks) (hn : n ∈ (g.block s.block).body) {o}
    (h : g.resume s n o = .going s') : s'.Within g blocks := by
  cases o with
  | returned v =>
    cases v with
    | none =>
      cases h
      exact hs
    | some v =>
      rw [resume] at h
      split at h <;> cases h <;> exact hs
  | thrown x =>
    cases hh : (g.node n).handler with
    | none =>
      rw [resume, hh] at h
      cases h
    | some e =>
      rw [resume, hh] at h
      cases h
      exact hg.follow_within hs.1 (handler_mem_edges hn hh) _ _
  | wrong => cases h

theorem InOrder.calling_within (hg : g.InOrder blocks) {a a'} (ha : a.Within g blocks)
    (h : (g.calling r plan w).step past a = (new, .going a')) : a'.Within g blocks := by
  have hc : ∀ {q : Progress State Outcome}, (∀ s', q = .going s' → s'.Within g blocks) →
      q.map .caller = .going a' → a'.Within g blocks := by
    intro q hq hm
    cases q with
    | going s' =>
      cases hm
      exact hq s' rfl
    | ended o => cases hm
  cases a with
  | caller s =>
    cases hh : s.rest.head?.bind plan with
    | none =>
      rw [calling_ordinary fun n hn => by rw [hn] at hh; exact hh] at h
      rcases hs : (g.machine w).step past s with ⟨new', q⟩
      rw [hs] at h
      refine hc (fun s' hs' => ?_) (Prod.mk.inj h).2
      exact hg.machine_within ha (hs' ▸ hs)
    | some m =>
      obtain ⟨b, rest, env, caught⟩ := s
      cases rest with
      | nil => cases hh
      | cons n rest =>
        have hp : plan n = some m := hh
        cases har : env.read (g.node n).op.inputs with
        | none =>
          rw [calling_missing hp har] at h
          cases h
        | some args =>
          rw [calling_call hp har] at h
          cases h
          exact ⟨⟨ha.1, fun x hx => ha.2 x (mem_cons_of_mem _ hx)⟩, ha.2 n mem_cons_self⟩
  | callee s n m args t =>
    rcases hs : (r.machine m (w.withArgs args)).step past t with ⟨new', t' | o⟩
    · rw [calling_going hs] at h
      cases h
      exact ha
    · rw [calling_ended hs] at h
      exact hc (fun s' hs' => hg.resume_within ha.1 ha.2 hs') (Prod.mk.inj h).2

/-! ## Steps that change nothing -/

section
variable (h : ∀ c, g'.block c = g.block c)
include h

theorem follow_congr : g'.follow = g.follow := by
  funext e env caught
  simp only [follow, h]

theorem throwTo_congr : g'.throwTo = g.throwTo := by
  funext handler env x
  simp only [throwTo, follow_congr h]

theorem stepNode_congr (hn : g'.node n = g.node n) :
    g'.stepNode w past s n = g.stepNode w past s n := by
  simp only [stepNode, hn, throwTo_congr h]

theorem stepCont_congr : g'.stepCont w = g.stepCont w := by
  funext s cont
  cases cont with
  | ret value => cases value <;> rfl
  | _ => simp only [stepCont, throwTo_congr h, follow_congr h]

end

theorem Adds.calling_eq (h : Adds g g') (hg : g.InOrder blocks) {a} (ha : a.Within g blocks) :
    (g'.calling r plan w).step past a = (g.calling r plan w).step past a := by
  cases a with
  | caller s =>
    obtain ⟨b, rest, env, caught⟩ := s
    cases rest with
    | nil => simp only [calling, stepCont_congr h.block_eq, h.block_eq]
    | cons n rest =>
      have hn := h.node_eq hg ha.1 (ha.2 n mem_cons_self)
      simp only [calling, stepNode_congr h.block_eq hn, hn]
  | callee s n m args t =>
    have hn := h.node_eq hg ha.1.1 ha.2
    have hr : g'.resume s n = g.resume s n := by
      funext o
      cases o with
      | returned v => cases v <;> simp only [resume, hn]
      | thrown x => simp only [resume, hn, throwTo_congr h.block_eq]
      | wrong => rfl
    simp only [calling, hr]

theorem Adds.equivalent (h : Adds g g') (hg : g.InOrder blocks) :
    Equivalent (g.calling r plan w) (.caller g.start) (g'.calling r plan w) (.caller g'.start) := by
  have hs : g'.start = g.start := by
    rw [start, start, h.block_eq]
  refine .of_stepsAlike (R := fun a b => b = a ∧ a.Within g blocks) (fun past {a b} hab => ?_)
    ⟨congrArg _ hs, hg.start_within⟩
  obtain ⟨rfl, ha⟩ := hab
  rw [h.calling_eq hg ha]
  rcases hst : (g.calling r plan w).step past b with ⟨new, a' | o⟩
  · exact ⟨rfl, rfl, hg.calling_within ha hst⟩
  · exact ⟨rfl, rfl⟩

theorem calling_equivalent_machine (hg : g.InOrder blocks)
    (hp : ∀ c ∈ blocks, ∀ x ∈ (g.block c).body, plan x = none) :
    Equivalent (g.calling r plan w) (.caller g.start) (g.machine w) g.start := by
  refine .of_stepsAlike (R := fun a s => a = .caller s ∧ s.Within g blocks) (fun past {a s} hs => ?_)
    ⟨rfl, hg.start_within⟩
  obtain ⟨rfl, hs⟩ := hs
  rw [calling_ordinary fun n hn => hp s.block hs.1 n (hs.2 n (mem_of_head? hn))]
  rcases hst : (g.machine w).step past s with ⟨new, s' | o⟩
  · exact ⟨rfl, rfl, hg.machine_within hs hst⟩
  · exact ⟨rfl, rfl⟩

end

/-! ## The whole pass -/

/-- The plan names the methods of the calls that are replaced between two graphs. -/
structure Plans (provider : MethodProvider) (blocks : List BlockId) (g g' : Graph)
    (plan : NodeId → Option Method) : Prop where
  body : ∀ {c x}, c ∈ blocks → x ∈ (g.block c).body → plan x = replacement? provider blocks g g' x
  fresh : ∀ {x}, g.nodes.size ≤ x → plan x = none

section
variable {σ : Type} {provider : MethodProvider} {limit : Nat} {blocks : List BlockId} {g g₁ g' : Graph}
  {b : BlockId} {n : NodeId} {before after args : List NodeId} {m : Method} {e : Expansion} {r : Runner σ}
  {plan : NodeId → Option Method} {w : World}

theorem InOrder.plans (hg : g.InOrder blocks) :
    Plans provider blocks g g' (replacement? provider blocks g g') where
  body _ _ := rfl
  fresh hge := Option.eq_none_iff_forall_ne_some.mpr fun m hm => by
    obtain ⟨⟨c, hc, hx⟩, _⟩ := replacement?_eq_some.mp hm
    exact absurd (hg.body hc hx) (Nat.not_lt_of_le hge)

namespace Adds

section
variable (h : Adds g g₁) (hg : g.InOrder blocks)
include h hg

theorem plans (hp : Plans provider blocks g g' plan) :
    Plans provider blocks g₁ g' plan where
  body hc hx := by
    rw [h.block_eq] at hx
    rw [hp.body hc hx, h.replacement? hg]
  fresh hge := hp.fresh (Nat.le_trans h.graph.size hge)

theorem carried (hp : Plans provider blocks g g' plan) (hr : g.Carried blocks r plan w) :
    g₁.Carried blocks r plan w where
  static {x m} hm := by
    have hlt : x < g.nodes.size := Nat.lt_of_not_le fun hge => by cases (hp.fresh hge).symm.trans hm
    rw [h.graph.node x hlt]
    exact hr.static hm
  runs hc hx hm vals hv := by
    rw [h.block_eq] at hx
    rw [h.node_eq hg hc hx] at hv
    exact hr.runs hc hx hm vals hv

theorem fed {mute} (hf : g.Fed blocks mute) :
    g₁.Fed blocks mute :=
  ⟨h.localUses hg hf.uses, fun hu => hf.given (h.used hg hu)⟩

end

end Adds

namespace Splice

section
variable (h : Splice provider limit g g₁ b n before after args m e) (hg : g.InOrder blocks)
include h hg

theorem mem_body_of_plan (hp : Plans provider blocks g g' plan) {c} (hc : c ∈ blocks) {x} (hx : x ∈ (g₁.block c).body)
    {m'} (hm : plan x = some m') :
    x ∈ (g.block c).body := by
  rcases h.refills.mem_body hg hc hx with ⟨ho, _⟩ | ⟨_, hge, _⟩
  · exact ho
  · cases (hp.fresh hge).symm.trans hm

theorem plans (hb : b ∈ blocks) (hp : Plans provider blocks g g' plan) :
    Plans provider blocks g₁ g' plan where
  body {c x} hc hx := by
    rcases h.refills.mem_body hg hc hx with ⟨ho, _⟩ | ⟨_, hge, _⟩
    · have hxn : x ≠ n := by
        rintro rfl
        exact h.gone hg hb c hc (.inr hx)
      rw [hp.body hc ho, h.replacement?_eq hg ⟨c, hc, ho⟩ hxn]
    · rw [hp.fresh hge, h.replacement?_new hg hge]
  fresh hge := hp.fresh (Nat.le_trans h.refills.size hge)

theorem carried (hp : Plans provider blocks g g' plan) (hr : g.Carried blocks r plan w) :
    g₁.Carried blocks r plan w where
  static {x m'} hm := by
    have hlt : x < g.nodes.size := Nat.lt_of_not_le fun hge => by cases (hp.fresh hge).symm.trans hm
    rw [h.refills.node hlt, Node.mapNodes, Operator.staticCallee?_mapInputs]
    exact hr.static hm
  runs {c x m'} hc hx hm vals hv := by
    have ho := h.mem_body_of_plan hg hp hc hx hm
    rw [h.node_eq hg hc ho, Node.mapNodes, Operator.inputs_mapInputs, length_map] at hv
    exact hr.runs hc ho hm vals hv

/-- The result of the call is used only if it has one, so what is used still gets a value. -/
theorem fed (hb : b ∈ blocks) (hp : Plans provider blocks g g' plan) (hpl : plan n = some m)
    (hf : g.Fed blocks (Mute plan)) : g₁.Fed blocks (Mute plan) := by
  refine ⟨h.localUses hg hb hf.uses fun hv hu => ?_, fun {x} hu => ?_⟩
  · exact hf.given hu ⟨m, hpl, h.value_eq_none.mp hv⟩
  · rintro ⟨m', hm', hr⟩
    have hn : x ∉ e.body := fun hx => by cases (hp.fresh (h.fresh x hx).1).symm.trans hm'
    exact hf.given (h.used hg hb hu hn) ⟨m', hm', hr⟩

end

end Splice

/-- **Replaced calls mean what the calls meant**, up to inputs that are missing. -/
theorem Unfolds.meaning (hu : Unfolds provider limit blocks g g') (hg : g.InOrder blocks)
    (hl : g.LocalUses blocks fun _ => True) (hen : (g.block entry).params = [])
    (hp : Plans provider blocks g g' plan) (hr : g.Carried blocks r plan w) :
    Refines .wrong (g.calling r plan w) (.caller g.start) (g'.machine w) g'.start ∧
      (g.Fed blocks (Mute plan) →
        Equivalent (g.calling r plan w) (.caller g.start) (g'.machine w) g'.start) := by
  induction hu with
  | refl g =>
    have hn : ∀ c ∈ blocks, ∀ x ∈ (g.block c).body, plan x = none := fun c hc x hx => by
      rw [hp.body hc hx, replacement?_of_mem hc hx]
    have he : Equivalent (g.calling r plan w) (.caller g.start) (g.machine w) g.start :=
      calling_equivalent_machine hg hn
    exact ⟨.of_equivalent he, fun _ => he⟩
  | @adds g g₁ g' step _ ih =>
    have he : Equivalent (g.calling r plan w) (.caller g.start) (g₁.calling r plan w) (.caller g₁.start) :=
      step.equivalent hg
    obtain ⟨hre, hs⟩ := ih (step.inOrder hg) (step.localUses hg hl) (by rwa [step.block_eq])
      (step.plans hg hp) (step.carried hg hp hr)
    exact ⟨(Refines.of_equivalent he).trans hre, fun hf => he.trans (hs (step.fed hg hf))⟩
  | @splice g g₁ g' b n before after args m e mem step hu ih =>
    have hpl : plan n = some m := by
      rw [hp.body mem step.mem_body, step.replacement?_self hg mem hu]
    have hne : ∀ x ∈ e.body, plan x = none := fun x hx => hp.fresh (step.fresh x hx).1
    obtain ⟨hre, hs⟩ := ih (step.refills.inOrder hg) (step.localUses hg mem hl fun _ _ => trivial)
      (by rwa [step.refills.params]) (step.plans hg mem hp) (step.carried hg hp hr)
    exact ⟨(step.refines hg mem hl hen hr hpl hne).trans hre,
      fun hf => (step.equivalent hg mem hl hen hr hf hpl hne).trans
        (hs (step.fed hg mem hp hpl hf))⟩

end

/-! ## Graphs of methods -/

theorem Trail.defines {g : Graph} (hp : g.Proper) {b computed} (h : g.Trail b computed) :
    ∀ x ∈ computed, ∃ c ∈ g.reachable, g.Defines c x := by
  induction h with
  | entry => exact fun x hx => by cases hx
  | @step b computed before e ht hl ih =>
    intro x hx
    have hb := ht.reachable hp
    rcases mem_append.mp hx with hx | hx
    · rcases mem_append.mp hx with hx | hx
      · exact ih x hx
      · exact ⟨b, hb, .inl hx⟩
    · exact ⟨b, hb, .inr (hl.subset_body x hx)⟩

section
variable {m : Method} {entries : List Nat} {g : Graph} {p : Plan} {s : Signature} {live : List Nat}

section
variable (T : Translation m entries g p s live)
include T

theorem Translation.localUses (lost : NodeId → Prop) :
    g.LocalUses g.reachable lost :=
  ⟨fun hb hu => .inl ((T.emptyScope.known_of_uses hb hu).resolve_left id)⟩

theorem Translation.inOrder : g.InOrder g.reachable :=
  T.proper.inOrder T.placed

theorem Translation.unfolds (provider : MethodProvider) (limit : Nat) :
    Unfolds provider limit g.reachable g (g.inlineCalls provider limit).1 :=
  inlineCalls_unfolds T.inOrder (T.localUses _) provider limit

end

end

/-- A definition is lost exactly if a replaced call is used whose method ends without a value. -/
theorem Unfolds.usesDefined_iff {provider limit g g'} (hu : Unfolds provider limit g.reachable g g')
    (hg : g.InOrder g.reachable) (hl : ∀ lost, g.LocalUses g.reachable lost) :
    g'.UsesDefined ↔ ∀ x, g'.Used g'.reachable x → ¬ Mute (replacement? provider g.reachable g g') x := by
  have hg' := hu.inOrder hg
  have hr : ∀ {b}, b ∈ g'.reachable → b ∈ g.reachable := hg'.mem_of_reachable
  constructor
  · rintro hde x ⟨b, hb, before, hus⟩ ⟨m, hm, _⟩
    obtain ⟨computed, ht⟩ := Trail.exists_of_reachable hb
    obtain ⟨⟨d, hd, hbo⟩, ho, _⟩ := replacement?_eq_some.mp hm
    have hn : ∀ c ∈ g'.reachable, ¬ g'.Defines c x := fun c hc hdef => by
      rcases hdef with hx | hx
      · rw [hu.params] at hx
        exact hg.not_mem_params hd hbo (hr hc) hx
      · exact ho c (hr hc) hx
    rcases mem_append.mp (hde b computed ht before x hus) with hx | hx
    · rcases mem_append.mp hx with hx | hx
      · obtain ⟨c, hc, hdef⟩ := ht.defines hg'.proper x hx
        exact hn c hc hdef
      · exact hn b hb (.inl hx)
    · exact hn b hb (.inr (hus.subset_body x hx))
  · intro hno b computed ht before x hus
    have hb := ht.reachable hg'.proper
    have hl' : g'.LocalUses g.reachable (Mute (replacement? provider g.reachable g g')) :=
      hu.localUses hg (hl _) fun x m hm hre _ => ⟨m, hm, hre⟩
    rcases hl'.reads (hr hb) hus with (hx | ⟨hx, _⟩) | ⟨hmu, _⟩
    · exact mem_append_left _ (mem_append_right _ hx)
    · exact mem_append_right _ hx
    · exact absurd hmu (hno x ⟨b, hb, before, hus⟩)

/-- Replaced calls can be carried out as bytecode. -/
theorem Unfolds.carried {provider limit blocks g g'} (hu : Unfolds provider limit blocks g g') (hg : g.InOrder blocks)
    (w : World) :
    g.Carried blocks Method.runner (replacement? provider blocks g g') w where
  static hm := by
    obtain ⟨callee, args, hop, _⟩ := hu.of_replacement hg hm
    rw [hop]
    rfl
  runs _ _ hm vals hv := by
    obtain ⟨callee, args, hop, _, _, _, hr⟩ := hu.of_replacement hg hm
    rw [hop] at hv
    obtain ⟨v, k, hc, hre⟩ := hr w vals hv
    exact ⟨v, k, k, hc, hc, hre⟩

/-- **What inlining makes of the uses of a graph**, whatever the provider has. Every use has its
definition exactly if none is left of a call whose method ends without a value. The graph does what
the graph does that calls the methods, up to such a use; without one, the two do the same. -/
theorem inlineCalls_usesDefined_iff {m : Method} {order : HandlerOrder m} {g : Graph} (hb : build m order = .ok g)
    (provider : MethodProvider)
    (limit : Nat) :
    let g' := (g.inlineCalls provider limit).1
    let plan := replacement? provider g.reachable g g'
    (g'.UsesDefined ↔ ∀ x, g'.Used g'.reachable x → ¬ Mute plan x) ∧
      (∀ w, Refines .wrong (g.calling Method.runner plan w) (.caller g.start) (g'.machine w) g'.start) ∧
      ((∀ x, g.Used g.reachable x → ¬ Mute plan x) → ∀ w,
        Equivalent (g.calling Method.runner plan w) (.caller g.start) (g'.machine w) g'.start) := by
  intro g' plan
  obtain ⟨p, s, live, T⟩ := build_eq_ok hb
  have hu := T.unfolds provider limit
  have hm := fun w => hu.meaning T.inOrder (T.localUses _) T.emptyScope.entry_params T.inOrder.plans
    (hu.carried T.inOrder w)
  refine ⟨hu.usesDefined_iff T.inOrder T.localUses, fun w => (hm w).1, fun hn w => (hm w).2 ?_⟩
  exact ⟨T.localUses _, fun hus => hn _ hus⟩

def increment : Method where
  key := ⟨"T", "f", "(I)I"⟩
  locals := []
  code := [.stack (.load 0), .stack (.constInt 1), .stack (.intOp .add), .retValue]
  handlers := []

/-- Calls `increment` for the result of another call of it. -/
def twice : Method where
  key := ⟨"T", "m", "(I)I"⟩
  locals := []
  code := [.stack (.load 0), .invokeStatic increment.key, .invokeStatic increment.key, .retValue]
  handlers := []

/-- Both calls are replaced, and nothing gets lost. -/
theorem inlineCalls_usesDefined_iff_twice : ∃ g, build twice = .ok g ∧
    (g.inlineCalls (find? ⟨[increment]⟩) 16).2 = 2 ∧
    let g' := (g.inlineCalls (find? ⟨[increment]⟩) 16).1
    g'.UsesDefined ∧ ∀ w, Equivalent (g.calling Method.runner
      (replacement? (find? ⟨[increment]⟩) g.reachable g g') w) (.caller g.start) (g'.machine w) g'.start := by
  obtain ⟨g, hg, hc⟩ : ∃ g, build twice = .ok g ∧ (g.inlineCalls (find? ⟨[increment]⟩) 16).2 = 2 :=
    exists_ok_of_map (by decide +kernel)
  obtain ⟨hi, _, he⟩ := inlineCalls_usesDefined_iff hg (find? ⟨[increment]⟩) 16
  have hv : ∀ x, ¬ Mute (replacement? (find? ⟨[increment]⟩) g.reachable g
      (g.inlineCalls (find? ⟨[increment]⟩) 16).1) x := by
    rintro x ⟨m, hm, hr⟩
    obtain ⟨_, _, callee, _, hf⟩ := replacement?_eq_some.mp hm
    obtain rfl := mem_singleton.mp (mem_of_find?_eq_some hf)
    cases hr
  exact ⟨g, hg, hc, hi.mpr fun x _ => hv x, he fun x _ => hv x⟩

/-- Is to return a number and does not. -/
def reticent : Method where
  key := ⟨"T", "f", "()I"⟩
  locals := []
  code := [.ret]
  handlers := []

/-- Returns what `reticent` is to return. -/
def relaying : Method where
  key := ⟨"T", "m", "()I"⟩
  locals := []
  code := [.invokeStatic reticent.key, .retValue]
  handlers := []

/-- The call of `reticent` is replaced, and its result is still returned. -/
theorem relaying_loses_definition : ∃ g, build relaying = .ok g ∧
    ¬ (g.inlineCalls (find? ⟨[reticent]⟩) 16).1.UsesDefined := by
  obtain ⟨g, hg, he, hi, hen, hb⟩ : ∃ g, build relaying = .ok g ∧
      let g' := (g.inlineCalls (find? ⟨[reticent]⟩) 16).1
      (g'.block entry).cont.edges = [⟨1, []⟩] ∧ (g'.block 1).cont.inputs = [0] ∧
        (g'.block entry).params ++ (g'.block entry).body = [] ∧
        (g'.block 1).params ++ (g'.block 1).body = [] :=
    exists_ok_of_any (by decide +kernel)
  refine ⟨g, hg, fun hd => ?_⟩
  have ht := Trail.step .entry (.cont (he ▸ mem_singleton_self _))
  have hm := hd 1 _ ht _ 0 (.cont (hi ▸ mem_singleton_self _))
  rw [append_assoc, hb, append_nil, nil_append, hen] at hm
  cases hm

end StackCompiler.Graph
