/-
Inlining of accepted methods keeps the meaning of a graph: a call passes as many
arguments as its method has parameters, and nobody asks for the value of a method
that ends without one. The calls can then be carried out by the graphs of the
methods.
-/
import StackCompiler.Proofs.InliningMeaning
import StackCompiler.Proofs.Verification

namespace StackCompiler

open Program List

/-! ## Straight-line methods -/

namespace Method

variable {m : Method} {s : Signature} {ops : List StackOp} {last : Instruction}

theorem Verified.reached_of_straight (V : m.Verified s) (hc : m.code = ops.map .stack ++ [last]) :
    ∀ i, i ≤ ops.length → ∃ stack, m.KindReached s ⟨i, stack⟩
  | 0, _ => ⟨[], .start⟩
  | i + 1, hi => by
    obtain ⟨stack, hr⟩ := V.reached_of_straight hc i (Nat.le_of_succ_le hi)
    obtain ⟨insn, stack', hin, _, hn⟩ := V.step hr
    have hop : m.code[i]? = some (.stack ops[i]) := by
      have hlt : i < (ops.map Instruction.stack).length := by rwa [length_map]
      rw [hc, getElem?_append_left hlt]
      simp
    cases hop.symm.trans hin
    exact ⟨stack', (hn (i + 1) mem_cons_self).reached⟩

theorem Verified.result_of_ret (V : m.Verified s) (hc : m.code = ops.map .stack ++ [.ret]) :
    s.result = .void := by
  obtain ⟨stack, hr⟩ := V.reached_of_straight hc ops.length (Nat.le_refl _)
  obtain ⟨insn, stack', hi, hk, _⟩ := V.step hr
  have hre : m.code[ops.length]? = some .ret := by
    rw [hc, getElem?_append_right (by simp)]
    simp
  cases hre.symm.trans hi
  rw [Instruction.kinds?] at hk
  split at hk
  · assumption
  · cases hk

theorem entered_eq_start {w} (hs : m.key.signature? = some s) (ha : w.args.length = s.params.length) :
    m.entered w = m.start w := by
  have hk : m.frameKinds = s.params ++ m.locals := by
    rw [frameKinds, hs]
    rfl
  rw [entered, start, hk, ha, drop_left]

end Method

namespace Graph

open Machine (Equivalent)

/-! ## Graphs that carry out calls -/

/-- What happened before matters to requests only. -/
theorem machine_steady (g : Graph) (w : World) : (g.machine w).Steady := by
  rintro past ⟨b, rest, env, caught⟩ q h past'
  cases rest with
  | nil => exact h
  | cons n rest =>
    change g.stepNode w past ⟨b, rest, env, caught⟩ n = ([], q) at h
    change g.stepNode w past' ⟨b, rest, env, caught⟩ n = ([], q)
    cases hs : (g.node n).op.service? with
    | some service =>
      cases ha : env.read (g.node n).op.inputs with
      | none =>
        rw [stepNode_service_none hs ha] at h ⊢
        exact h
      | some args =>
        rw [stepNode_service hs ha] at h
        cases (Prod.mk.inj h).1
    | none =>
      rcases hn : g.node n with ⟨op, kind, bci, handler⟩
      rw [hn] at hs
      cases op with
      | constant | binary | negate | convert | parameter | blockParam | safepoint | caught =>
        simp only [stepNode, hn, Operator.service?] at h ⊢
        exact h
      | _ => cases hs

section
variable {m : Method} {entries : List Nat} {g : Graph} {p : Plan} {s : Signature} {live : List Nat}

namespace Translation

section
variable (T : Translation m entries g p s live)
include T

theorem signature?_eq : m.key.signature? = some s :=
  (Signature.callable?_eq_some.mp T.verified.callable).1

theorem key_eq : g.key = m.key := by
  obtain ⟨d, rfl, hi⟩ := T.inv
  rw [hi.key, T.method]

theorem completes {w} (ha : w.args.length = s.params.length) {o k} (h : (m.machine w).Completes (m.entered w) o k) :
    ∃ k', (g.machine w).Completes g.start o k' := by
  rw [Method.entered_eq_start T.signature?_eq ha] at h
  have he := ((T.simulation w).sameBehaviour (T.start_related ha)).equivalent
  obtain ⟨n, hn⟩ := (he.ends [] o).mp ⟨k + 1, h.run []⟩
  exact (g.machine_steady w).completes hn

end

end Translation

/-- The provider has accepted methods only, and each under its own key. -/
def Accepts (provider : MethodProvider) : Prop :=
  ∀ key callee, provider key = some callee → callee.key = key ∧ ∃ g, build callee = .ok g

variable {provider : MethodProvider} {limit : Nat} {g' : Graph}

section
variable (hu : Unfolds provider limit g.reachable g g') (T : Translation m entries g p s live)
  (hprovider : Accepts provider)
include hu T hprovider

theorem Unfolds.carried_runner (w : World) :
    g.Carried g.reachable runner (replacement? provider g.reachable g g') w where
  static := (hu.carried T.inOrder w).static
  runs {c x callee} hc hx hm vals hv := by
    obtain ⟨key, args, hop, _, hf, _⟩ := hu.of_replacement T.inOrder hm
    obtain ⟨rfl, g₁, hb⟩ := hprovider key callee hf
    obtain ⟨p₁, s₁, live₁, T₁⟩ := build_eq_ok hb
    have ha : (w.withArgs vals).args.length = s₁.params.length := by
      have hk := T.kinded.body hc hx
      rw [hop] at hk hv
      obtain ⟨s₂, hs₂, hki, -⟩ := hk
      cases T₁.signature?_eq.symm.trans hs₂
      exact hv.trans (by rw [← hki, length_map]; rfl)
    obtain ⟨v, k, _, hby, _, hr⟩ := (hu.carried T.inOrder w).runs hc hx hm vals hv
    obtain ⟨k', hco⟩ := T₁.completes ha hby
    have hg : ofMethod callee = g₁ := by
      rw [ofMethod, hb]
      rfl
    refine ⟨v, k, k', hby, ?_, hr⟩
    change ((ofMethod callee).machine _).Completes (ofMethod callee).start _ _
    rw [hg]
    exact hco

theorem Unfolds.fed_of_accepts : g.Fed g.reachable (Mute (replacement? provider g.reachable g g')) := by
  refine ⟨T.localUses _, ?_⟩
  rintro x ⟨c, hc, before, hus⟩ ⟨callee, hm, hre⟩
  obtain ⟨key, args, hop, _, hf, hi, _⟩ := hu.of_replacement T.inOrder hm
  obtain ⟨⟨d, hd, hx⟩, _⟩ := replacement?_eq_some.mp hm
  obtain ⟨rfl, g₁, hb⟩ := hprovider key callee hf
  obtain ⟨p₁, s₁, live₁, T₁⟩ := build_eq_ok hb
  have hvo : s₁.result = .void := by
    obtain ⟨_, ops, last, hco, _⟩ := straight_of_isInlinable hi
    rw [hco, getLast?_concat] at hre
    cases hre
    exact T₁.verified.result_of_ret hco
  have hs : (g.node x).op.service? = some (.callStatic callee.key) := by
    rw [hop]
    rfl
  have hk : (g.node x).kind = .void := by
    have hk := T.kinded.body hd hx
    rw [hop] at hk
    obtain ⟨s₂, hs₂, -, hr⟩ := hk
    cases T₁.signature?_eq.symm.trans hs₂
    exact hr.symm.trans hvo
  rcases (T.localUses fun _ => False).reads hc hus with (hq | ⟨_, hv⟩) | ⟨hno, _⟩
  · exact T.inOrder.not_mem_params hd hx hc hq
  · rw [Node.hasValue_of_void hs hk] at hv
    cases hv
  · exact hno

end

end

/-- **Inlining keeps the meaning of a graph** if only accepted methods are provided: the graph does
what it did with each replaced call carried out by the graph of its method. Only calls of
straight-line methods are replaced, and no call of a method by itself. -/
theorem inlineCalls_preserves_meaning {m : Method} {order : HandlerOrder m} {g : Graph} (hb : build m order = .ok g)
    {provider : MethodProvider}
    (hprovider : Accepts provider) (limit : Nat) :
    let g' := (g.inlineCalls provider limit).1
    let plan := replacement? provider g.reachable g g'
    (∀ w, Equivalent (g.calling runner plan w) (.caller g.start) (g'.machine w) g'.start) ∧
      ∀ x callee, plan x = some callee →
        (∃ args, (g.node x).op = .callStatic callee.key args) ∧ callee.key ≠ m.key ∧ callee.Straight := by
  intro g' plan
  obtain ⟨p, s, live, T⟩ := build_eq_ok hb
  have hu := T.unfolds provider limit
  refine ⟨fun w => ?_, fun x callee hx => ?_⟩
  · exact (hu.meaning T.inOrder (T.localUses _) T.emptyScope.entry_params T.inOrder.plans
      (hu.carried_runner T hprovider w)).2 (hu.fed_of_accepts T hprovider)
  · obtain ⟨key, args, hop, hk, hf, hi, _⟩ := hu.of_replacement T.inOrder hx
    obtain ⟨rfl, _⟩ := hprovider key callee hf
    exact ⟨⟨args, hop⟩, T.key_eq ▸ hk, straight_of_isInlinable hi⟩

/-- Returns at once. -/
def idle : Method where
  key := ⟨"T", "g", "()V"⟩
  locals := []
  code := [.ret]
  handlers := []

/-- Calls `increment`, then `idle` for no result, and itself. -/
def descending : Method where
  key := ⟨"T", "m", "(I)I"⟩
  locals := []
  code := [.stack (.load 0), .invokeStatic increment.key, .invokeStatic idle.key,
    .invokeStatic ⟨"T", "m", "(I)I"⟩, .retValue]
  handlers := []

theorem accepts_find? {methods} (hok : ∀ m ∈ methods, (build m).isOk = true) :
    Accepts (find? ⟨methods⟩) := by
  intro key callee hf
  have hk := find?_some (p := fun m : Method => decide (m.key = key)) hf
  refine ⟨of_decide_eq_true hk, ?_⟩
  exact exists_ok_of_isOk (hok callee (mem_of_find?_eq_some hf))

theorem accepts_find?_descending : Accepts (find? ⟨[increment, idle, descending]⟩) :=
  accepts_find? (by decide +kernel)

/-- Two of the three calls are replaced, and the graph does what it did. -/
theorem inlineCalls_preserves_meaning_descending : Accepts (find? ⟨[increment, idle, descending]⟩) ∧
    ∃ g, build descending = .ok g ∧ (g.inlineCalls (find? ⟨[increment, idle, descending]⟩) 16).2 = 2 ∧
      let g' := (g.inlineCalls (find? ⟨[increment, idle, descending]⟩) 16).1
      ∀ w, Equivalent (g.calling runner
        (replacement? (find? ⟨[increment, idle, descending]⟩) g.reachable g g') w) (.caller g.start)
        (g'.machine w) g'.start := by
  obtain ⟨g, hg, hc⟩ : ∃ g, build descending = .ok g ∧
    (g.inlineCalls (find? ⟨[increment, idle, descending]⟩) 16).2 = 2 := exists_ok_of_map (by decide +kernel)
  exact ⟨accepts_find?_descending, g, hg, hc, (inlineCalls_preserves_meaning hg accepts_find?_descending 16).1⟩

end Graph
end StackCompiler
