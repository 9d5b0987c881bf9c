/-
Inlining as a sequence of steps, and which calls it has replaced (`replacement?`).
Their methods are straight-line code that comes to an end on any arguments, and
none is the method of the graph (`Unfolds.of_replacement`).
-/
import StackCompiler.Proofs.Splice

namespace StackCompiler

open List

/-! ## Straight-line methods -/

/-- The method works on stack and locals and then returns: no calls, throws, branches or polls. -/
def Method.Straight (m : Method) : Prop :=
  m.handlers = [] ∧ ∃ (ops : List StackOp) (last : Instruction),
    m.code = ops.map .stack ++ [last] ∧ (last = .ret ∨ last = .retValue)

theorem exists_stackOps : ∀ {code : List Instruction}, (∀ insn ∈ code, insn.isStackOp = true) →
    ∃ ops : List StackOp, code = ops.map .stack
  | [], _ => ⟨[], rfl⟩
  | insn :: code, h => by
    obtain ⟨ops, rfl⟩ := exists_stackOps fun insn hi => h insn (mem_cons_of_mem _ hi)
    have hi := h insn mem_cons_self
    cases insn with
    | stack op => exact ⟨op :: ops, rfl⟩
    | _ => cases hi

namespace Graph

theorem straight_of_isInlinable {m limit} (h : isInlinable m limit = true) : m.Straight := by
  rw [isInlinable] at h
  split at h
  · cases h
  · next last hl =>
    simp only [Bool.and_eq_true, Bool.or_eq_true, decide_eq_true_eq, all_eq_true, List.isEmpty_iff] at h
    obtain ⟨⟨⟨hh, _⟩, hr⟩, ho⟩ := h
    obtain ⟨init, hc⟩ := getLast?_eq_some_iff.mp hl
    rw [hc, dropLast_concat] at ho
    obtain ⟨ops, rfl⟩ := exists_stackOps ho
    exact ⟨hh, ops, last, hc, hr⟩

/-! ## Nodes that stand nowhere -/

namespace Adds

variable {g g' : Graph} {blocks : List BlockId} {lost : NodeId → Prop}

theorem block_eq (h : Adds g g') (c : BlockId) : g'.block c = g.block c := block_congr h.blocks c

variable {x : NodeId}

section
variable (h : Adds g g') (hg : g.InOrder blocks)
include h hg

theorem node_eq {c} (hc : c ∈ blocks) (hx : x ∈ (g.block c).body) :
    g'.node x = g.node x :=
  h.graph.node x (hg.body hc hx)

theorem inOrder : g'.InOrder blocks := by
  have hr := h.refills (hg.lt hg.entry) (.refl g g'.nodes.size (g.block entry).body)
  have hs := withBody_self g' Graph.entry
  rw [h.block_eq] at hs
  rw [withBody_self, hs] at hr
  exact hr.inOrder hg

theorem uses {c} (hc : c ∈ blocks) {xs} (hx : g'.Uses c xs x) :
    g.Uses c xs x := by
  cases hx with
  | input hbo hm =>
    rw [h.block_eq] at hbo
    rw [h.node_eq hg hc (hbo ▸ mem_append_right _ mem_cons_self)] at hm
    exact .input hbo hm
  | cont hm =>
    rw [h.block_eq] at hm ⊢
    exact .cont hm
  | arg hl hm =>
    cases hl with
    | catches hbo hh =>
      rw [h.block_eq] at hbo
      rw [h.node_eq hg hc (hbo ▸ mem_append_right _ mem_cons_self)] at hh
      exact .arg (.catches hbo hh) hm
    | cont he =>
      rw [h.block_eq] at he ⊢
      exact .arg (.cont he) hm

theorem used (hx : g'.Used blocks x) : g.Used blocks x := by
  obtain ⟨c, hc, xs, hu⟩ := hx
  exact ⟨c, hc, xs, h.uses hg hc hu⟩

theorem localUses (hl : g.LocalUses blocks lost) : g'.LocalUses blocks lost := by
  refine ⟨fun {c before x} hc hu => ?_⟩
  have ho := h.uses hg hc hu
  rcases hl.reads hc ho with (hq | ⟨hm, hv⟩) | ⟨hlo, hgo⟩
  · exact .inl (.inl (by rwa [h.block_eq]))
  · exact .inl (.inr ⟨hm, by rwa [h.node_eq hg hc (ho.subset_body x hm)]⟩)
  · refine .inr ⟨hlo, fun d hd hde => hgo d hd ?_⟩
    rwa [Defines, h.block_eq] at hde

end

theorem withBody (h : Adds g g') (b : BlockId) (body : List NodeId) :
    Adds (g.withBody b body) (g'.withBody b body) where
  graph := ⟨h.graph.size, h.graph.node, h.graph.signature, h.graph.key⟩
  blocks := by rw [Graph.withBody, Graph.withBody, setBlock, setBlock, h.blocks, h.block_eq]
  fresh hge hlt := { h.fresh hge hlt with }

end Adds

/-! ## Sequences of steps -/

/-- `g'` comes from `g` by replacing calls in the given blocks. -/
inductive Unfolds (provider : MethodProvider) (limit : Nat) (blocks : List BlockId) : Graph → Graph → Prop
  | refl (g : Graph) : Unfolds provider limit blocks g g
  | adds {g g₁ g'} (step : Adds g g₁) (rest : Unfolds provider limit blocks g₁ g') :
      Unfolds provider limit blocks g g'
  | splice {g g₁ g' b n before after args m e} (mem : b ∈ blocks)
    (step : Splice provider limit g g₁ b n before after args m e)
      (rest : Unfolds provider limit blocks g₁ g') : Unfolds provider limit blocks g g'

/-- The method that has taken the place of a static call in one of the blocks. -/
def replacement? (provider : MethodProvider) (blocks : List BlockId) (g g' : Graph) (x : NodeId) : Option Method :=
  if (blocks.any fun b => (g.block b).body.contains x) && !(blocks.any fun b => (g'.block b).body.contains x) then
    (g.node x).op.staticCallee?.bind provider
  else none

section
variable {provider : MethodProvider} {limit : Nat} {blocks : List BlockId} {g g₁ g' g'' : Graph} {b : BlockId}
  {n x : NodeId} {before after args : List NodeId} {m : Method} {e : Expansion} {lost : NodeId → Prop}

theorem replacement?_eq_some : replacement? provider blocks g g' x = some m ↔
    (∃ c ∈ blocks, x ∈ (g.block c).body) ∧ (∀ c ∈ blocks, x ∉ (g'.block c).body) ∧
      ∃ callee, (g.node x).op.staticCallee? = some callee ∧ provider callee = some m := by
  rw [replacement?]
  split
  · next h =>
    simp only [Bool.and_eq_true, Bool.not_eq_true', any_eq_true, any_eq_false, contains_iff_mem]
      at h
    simp only [Option.bind_eq_some_iff, h, true_and]
    exact ⟨fun hm => ⟨h.2, hm⟩, fun hm => hm.2⟩
  · next h =>
    simp only [Bool.and_eq_true, Bool.not_eq_true', any_eq_true, any_eq_false, contains_iff_mem,
      not_and] at h
    simp only [reduceCtorEq, false_iff, not_and]
    exact fun hin ho => absurd ho (h hin)

theorem replacement?_of_mem {c} (hc : c ∈ blocks) (hx : x ∈ (g'.block c).body) :
    replacement? provider blocks g g' x = none := by
  refine Option.eq_none_iff_forall_ne_some.mpr fun m hm => ?_
  exact (replacement?_eq_some.mp hm).2.1 c hc hx

namespace Unfolds

section
variable (h : Unfolds provider limit blocks g g')
include h

theorem trans (h' : Unfolds provider limit blocks g' g'') :
    Unfolds provider limit blocks g g'' := by
  induction h with
  | refl => exact h'
  | adds step _ ih => exact .adds step (ih h')
  | splice mem step _ ih => exact .splice mem step (ih h')

theorem inOrder (hg : g.InOrder blocks) : g'.InOrder blocks := by
  induction h with
  | refl => exact hg
  | adds step _ ih => exact ih (step.inOrder hg)
  | splice mem step _ ih => exact ih (step.refills.inOrder hg)

theorem params (c : BlockId) : (g'.block c).params = (g.block c).params := by
  induction h with
  | refl => rfl
  | adds step _ ih => rw [ih, step.block_eq]
  | splice _ step _ ih => rw [ih, step.refills.params]

theorem mem_body (hg : g.InOrder blocks) {c} (hc : c ∈ blocks) (hx : x ∈ (g'.block c).body) (hlt : x < g.nodes.size) :
    x ∈ (g.block c).body := by
  induction h with
  | refl => exact hx
  | adds step _ ih =>
    have := ih (step.inOrder hg) hx (Nat.lt_of_lt_of_le hlt step.graph.size)
    rwa [step.block_eq] at this
  | splice mem step _ ih =>
    have := ih (step.refills.inOrder hg) hx (Nat.lt_of_lt_of_le hlt step.refills.size)
    rcases step.refills.mem_body hg hc this with ⟨ho, _⟩ | ⟨_, hge, _⟩
    · exact ho
    · exact absurd hlt (Nat.not_lt_of_le hge)

end

end Unfolds

/-! ## Replaced calls -/

theorem Adds.replacement? (h : Adds g g₁) (hg : g.InOrder blocks) :
    Graph.replacement? provider blocks g₁ g' x = Graph.replacement? provider blocks g g' x := by
  refine Option.ext fun m => ?_
  rw [replacement?_eq_some, replacement?_eq_some]
  simp only [h.block_eq]
  refine and_congr_right fun hin => ?_
  obtain ⟨c, hc, hx⟩ := hin
  rw [h.node_eq hg hc hx]

namespace Splice

variable (h : Splice provider limit g g₁ b n before after args m e) (hg : g.InOrder blocks) (hb : b ∈ blocks)

include h hg

/-- Whether another call is replaced later does not depend on this step. -/
theorem replacement?_eq (hx : ∃ c ∈ blocks, x ∈ (g.block c).body) (hxn : x ≠ n) :
    Graph.replacement? provider blocks g₁ g' x = Graph.replacement? provider blocks g g' x := by
  obtain ⟨c, hc, hx⟩ := hx
  refine Option.ext fun m => ?_
  rw [replacement?_eq_some, replacement?_eq_some, h.node_eq hg hc hx, Node.mapNodes,
    Operator.staticCallee?_mapInputs]
  have hin : ∃ c ∈ blocks, x ∈ (g.block c).body := ⟨c, hc, hx⟩
  have hi' : ∃ c ∈ blocks, x ∈ (g₁.block c).body := ⟨c, hc, h.mem_new hx hxn⟩
  simp only [hin, hi', true_and]

theorem replacement?_new (hge : g.nodes.size ≤ x) :
    Graph.replacement? provider blocks g₁ g' x = none := by
  refine Option.eq_none_iff_forall_ne_some.mpr fun m hm => ?_
  obtain ⟨⟨c, hc, hx⟩, _, callee, hca, _⟩ := replacement?_eq_some.mp hm
  rcases h.refills.mem_body hg hc hx with ⟨ho, _⟩ | ⟨_, _, hlt⟩
  · exact absurd (hg.body hc ho) (Nat.not_lt_of_le hge)
  · rw [Operator.staticCallee?_of_isPure (h.refills.fresh hge hlt).pure] at hca
    cases hca

include hb

theorem replacement?_self (hu : Unfolds provider limit blocks g₁ g') :
    Graph.replacement? provider blocks g g' n = some m := by
  obtain ⟨callee, hop, _, hp, _⟩ := h.call
  refine replacement?_eq_some.mpr ⟨⟨b, hb, h.mem_body⟩, fun c hc hn => ?_, callee, by rw [hop]; rfl, hp⟩
  have hlt : n < g₁.nodes.size := Nat.lt_of_lt_of_le (hg.body hb h.mem_body) h.refills.size
  exact h.gone hg hb c hc (.inr (hu.mem_body (h.refills.inOrder hg) hc hn hlt))

end Splice

theorem getLast?_of_isInlinable {insn} (h : isInlinable m limit = true) (hi : insn ∈ m.code)
    (hn : insn.isStackOp = false) : m.code.getLast? = some insn := by
  obtain ⟨_, ops, last, hc, _⟩ := straight_of_isInlinable h
  rw [hc] at hi ⊢
  rcases mem_append.mp hi with hi | hi
  · obtain ⟨op, _, rfl⟩ := mem_map.mp hi
    cases hn
  · rw [mem_singleton.mp hi, getLast?_concat]

theorem Splice.value_eq_none (h : Splice provider limit g g' b n before after args m e) :
    e.value = none ↔ m.code.getLast? = some .ret := by
  obtain ⟨_, _, _, _, hi⟩ := h.call
  have hr := h.means.returns
  constructor
  · intro hv
    rw [if_pos hv] at hr
    exact getLast?_of_isInlinable hi hr rfl
  · intro hl
    refine Decidable.not_not.mp fun hv => ?_
    rw [if_neg hv] at hr
    cases hl.symm.trans (getLast?_of_isInlinable hi hr rfl)

namespace Unfolds

/-- What is known of a replaced call and its method. -/
theorem of_replacement (hu : Unfolds provider limit blocks g g') (hg : g.InOrder blocks)
    (hx : replacement? provider blocks g g' x = some m) :
    ∃ callee args, (g.node x).op = .callStatic callee args ∧ callee ≠ g.key ∧ provider callee = some m ∧
      isInlinable m limit = true ∧
      ∀ (w : World) (vals : List Value), vals.length = args.length →
        ∃ r k, (m.machine (w.withArgs vals)).Completes (m.entered (w.withArgs vals)) (.returned r) k ∧
          (r = none ↔ m.code.getLast? = some .ret) := by
  induction hu with
  | refl g =>
    obtain ⟨⟨c, hc, hin⟩, ho, _⟩ := replacement?_eq_some.mp hx
    exact absurd hin (ho c hc)
  | adds step _ ih =>
    obtain ⟨⟨c, hc, hin⟩, _⟩ := replacement?_eq_some.mp hx
    rw [← step.replacement? hg] at hx
    obtain ⟨callee, args, hop, hk, hr⟩ := ih (step.inOrder hg) hx
    rw [step.node_eq hg hc hin] at hop
    rw [step.graph.key] at hk
    exact ⟨callee, args, hop, hk, hr⟩
  | @splice g g₁ g' b n before after args m' e mem step hu ih =>
    by_cases hxn : x = n
    · subst hxn
      cases (step.replacement?_self hg mem hu).symm.trans hx
      obtain ⟨callee, hop, hk, hp, hi⟩ := step.call
      refine ⟨callee, args, hop, hk, hp, hi, fun w vals hv => ?_⟩
      obtain ⟨r, k, hco, hn, _⟩ := step.means.runs w vals hv
      exact ⟨r, k, hco, hn.trans step.value_eq_none⟩
    · obtain ⟨⟨c, hc, hin⟩, _⟩ := replacement?_eq_some.mp hx
      rw [← step.replacement?_eq hg ⟨c, hc, hin⟩ hxn] at hx
      obtain ⟨callee, args', ho', hk, hp, hi, hru⟩ := ih (step.refills.inOrder hg) hx
      rw [step.node_eq hg hc hin] at ho'
      rw [step.key] at hk
      cases hop : (g.node x).op <;> rw [Node.mapNodes, hop] at ho' <;> cases ho'
      refine ⟨_, _, rfl, hk, hp, hi, fun w vals hv => hru w vals ?_⟩
      rw [hv, length_map]

theorem localUses (hu : Unfolds provider limit blocks g g') (hg : g.InOrder blocks) (hl : g.LocalUses blocks lost)
    (hlo : ∀ x m, replacement? provider blocks g g' x = some m → m.code.getLast? = some .ret →
      g.Used blocks x → lost x) : g'.LocalUses blocks lost := by
  induction hu with
  | refl => exact hl
  | adds step _ ih =>
    refine ih (step.inOrder hg) (step.localUses hg hl) fun x m hx hr hus => ?_
    rw [step.replacement? hg] at hx
    exact hlo x m hx hr (step.used hg hus)
  | @splice g g₁ g' b n before after args m e mem step hu ih =>
    have hn : e.value = none → g.Used blocks n → lost n := fun hv =>
      hlo n m (step.replacement?_self hg mem hu) (step.value_eq_none.mp hv)
    refine ih (step.refills.inOrder hg) (step.localUses hg mem hl hn) fun x m hx hr hus => ?_
    obtain ⟨⟨c, hc, hin⟩, _⟩ := replacement?_eq_some.mp hx
    have hlt : x < g.nodes.size := by
      refine Nat.lt_of_not_le fun hge => ?_
      rw [step.replacement?_new hg hge] at hx
      cases hx
    have hxn : x ≠ n := by
      rintro rfl
      exact step.gone hg mem c hc (.inr hin)
    have ho : x ∈ (g.block c).body := by
      rcases step.refills.mem_body hg hc hin with ⟨ho, _⟩ | ⟨_, hge, _⟩
      · exact ho
      · exact absurd hlt (Nat.not_lt_of_le hge)
    rw [step.replacement?_eq hg ⟨c, hc, ho⟩ hxn] at hx
    refine hlo x m hx hr (step.used hg mem hus fun hne => ?_)
    exact absurd hlt (Nat.not_lt_of_le (step.fresh x hne).1)

end Unfolds

/-! ## The pass -/

/-- **Inlining replaces calls, one after the other**, whatever the provider answers. -/
theorem inlineCalls_unfolds (hg : g.InOrder g.reachable) (hl : g.LocalUses g.reachable fun _ => True)
    (provider : MethodProvider) (limit : Nat) :
    Unfolds provider limit g.reachable g (g.inlineCalls provider limit).1 := by
  refine (foldl_inlineBlock_induct (P := fun r _ _ => (r.1.InOrder g.reachable ∧
    r.1.LocalUses g.reachable fun _ => True) ∧ Unfolds provider limit g.reachable g r.1) (·.1.1) id
    (fun hb h hp => ?_) _ _ (fun _ hb => hb) ⟨⟨hg, hl⟩, .refl g⟩).2
  obtain ⟨⟨hg', hl'⟩, h⟩ := h
  suffices hs : Unfolds provider limit g.reachable _ _ from
    ⟨⟨hs.inOrder hg', hs.localUses hg' hl' fun _ _ _ _ _ => trivial⟩, h.trans hs⟩
  cases hp with
  | stays => exact .refl _
  | refused _ ha => exact .adds (ha.withBody _ _) (.refl _)
  | replaced hi har he =>
    exact .splice hb (replaced_splice hb hg' hl' hi har he) (.refl _)

end

end Graph
end StackCompiler
