/-
Runs of a well-formed graph: every value that is known at a point has been
computed when a run comes there, it has the kind of its node, and a constant
is what it says. `Reached` is the invariant, with one lemma for each way in
which a step goes on.
-/
import StackCompiler.Proofs.Moves
import StackCompiler.Proofs.WellFormed

namespace StackCompiler

open List

/-! ## Kinds of results -/

variable {k : Kind} {a : Value}

theorem BinaryOp.eval?_fits {op : BinaryOp} {v} {b} (h : op.eval? a b = some v) (ha : a.Fits k) :
    v.Fits k := by
  have hk : v.kind = a.kind := by
    cases a <;> cases b <;> simp only [eval?, Option.map_eq_some_iff, reduceCtorEq] at h <;>
      obtain ⟨_, _, rfl⟩ := h <;> rfl
  rw [Value.Fits, hk]
  exact ha

theorem Value.negate?_fits {v} (h : a.negate? = some v) (ha : a.Fits k) : v.Fits k := by
  have hk : v.kind = a.kind := by
    cases a <;> cases h <;> rfl
  rw [Value.Fits, hk]
  exact ha

theorem Conversion.eval?_fits {c : Conversion} {v} (h : c.eval? a = some v) :
    v.Fits c.result := by
  cases c <;> cases a <;> cases h <;> rfl

theorem World.binary_fits (w : World) (op : BinaryOp) (b : Value) (ha : a.Fits k) :
    (w.binary op k a b).Fits k := by
  rw [World.binary]
  cases h : op.eval? a b with
  | none => exact w.otherwise_fits op k a b
  | some v => exact BinaryOp.eval?_fits h ha

theorem Value.negateAs_fits (ha : a.Fits k) : (a.negateAs k).Fits k := by
  rw [Value.negateAs]
  cases h : a.negate? with
  | none => rfl
  | some v => exact Value.negate?_fits h ha

theorem Conversion.apply_fits (c : Conversion) (a : Value) : (c.apply a).Fits c.result := by
  rw [Conversion.apply]
  cases h : c.eval? a with
  | none => rfl
  | some v => exact Conversion.eval?_fits h

/-- The arguments are those of a signature, and answers have the kinds that are asked for. -/
structure World.Suits (w : World) (s : Signature) : Prop where
  length : w.args.length = s.params.length
  fits : ∀ {i : Nat} {v : Value} {k : Kind}, w.args[i]? = some v → s.params[i]? = some k → v.Fits k
  kinded : w.Kinded

theorem World.Suits.exists_arg {w : World} {s} (h : w.Suits s) {i : Nat}
    (hk : s.params[i]? = some k) : ∃ v : Value, w.args[i]? = some v ∧ v.Fits k := by
  have hi : i < w.args.length := h.length ▸ (List.getElem?_eq_some_iff.mp hk).1
  exact ⟨w.args[i], getElem?_eq_getElem hi, h.fits (getElem?_eq_getElem hi) hk⟩

/-- An operator that neither asks, polls nor catches has a value of its kind. -/
theorem Operator.of_value? {op : Operator} {w env v} (h : op.value? w k env = some v) :
    op.service? = none ∧ op ≠ .safepoint ∧ op ≠ .caught := by
  cases op <;> simp_all [value?, service?]

theorem Operator.HasKind.exists_value {op : Operator} {kindOf s} (h : op.HasKind kindOf s k) {w}
    (hw : w.Suits s) {env} (hi : ∀ x ∈ op.inputs, ∃ v : Value, env x = some v ∧ v.Fits (kindOf x))
    (hs : op.service? = none) (hp : op ≠ .safepoint) (hc : op ≠ .caught) :
    ∃ v : Value, op.value? w k env = some v ∧ v.Fits k := by
  cases op with
  | constant v => exact ⟨v, rfl, h⟩
  | binary op lhs rhs =>
    obtain ⟨hl, _⟩ := h
    obtain ⟨a, ha, hf⟩ := hi lhs (by simp [Operator.inputs])
    obtain ⟨b, hb, _⟩ := hi rhs (by simp [Operator.inputs])
    refine ⟨w.binary op k a b, by simp only [Operator.value?, ha, hb], ?_⟩
    exact w.binary_fits op b (hl ▸ hf)
  | negate x =>
    obtain ⟨a, ha, hf⟩ := hi x (by simp [Operator.inputs])
    exact ⟨a.negateAs k, by simp only [Operator.value?, ha, Option.map_some],
      Value.negateAs_fits ((show kindOf x = k from h) ▸ hf)⟩
  | convert c x =>
    obtain ⟨a, ha, _⟩ := hi x (by simp [Operator.inputs])
    refine ⟨c.apply a, by simp only [Operator.value?, ha, Option.map_some], ?_⟩
    rw [show k = c.result from h.2]
    exact c.apply_fits a
  | parameter index => exact hw.exists_arg h
  | blockParam => exact h.elim
  | safepoint => exact absurd rfl hp
  | caught => exact absurd rfl hc
  | newArray | newInstance | arrayLength | arrayLoad | arrayStore | callStatic | callNative
  | callIndirect => cases hs

namespace Graph

/-- Numbers, places, scopes and kinds are in order. -/
structure WellFormed (g : Graph) (scope : BlockId → NodeId → Prop) : Prop where
  proper : g.Proper
  placed : g.Placed
  scopes : g.Scoped scope
  kinded : g.Kinded

/-! ## Edges -/

section
variable {g : Graph} {b : BlockId} {e : Edge}

variable {q : NodeId}

theorem Proper.setAll_param (hp : g.Proper) (hb : b ∈ g.reachable) (he : e ∈ g.edges b) {a}
    (hqa : (q, a) ∈ (g.block e.target).params.zip e.args) (env : Store) :
    env.setAll (g.block e.target).params (e.args.map env) q = env a := by
  refine Store.setAll_of_mem_zip _ _ _ (hp.params_nodup (hp.target_reachable hb he)) ?_
  rw [zip_map_right]
  exact mem_map.mpr ⟨(q, a), hqa, rfl⟩

theorem Proper.exists_arg (hp : g.Proper) (hb : b ∈ g.reachable) (he : e ∈ g.edges b)
    (hq : q ∈ (g.block e.target).params) : ∃ a, (q, a) ∈ (g.block e.target).params.zip e.args := by
  obtain ⟨i, hi, rfl⟩ := getElem_of_mem hq
  have hl := hp.arity hb he
  exact ⟨e.args[i], mem_iff_getElem.mpr ⟨i, by simp [hi, hl], by simp⟩⟩

theorem EdgesFit.kindOf_eq {blocks} (hk : g.EdgesFit blocks) (hb : b ∈ blocks) (he : e ∈ g.edges b) {a}
    (hqa : (q, a) ∈ (g.block e.target).params.zip e.args) : g.kindOf q = g.kindOf a := by
  have hm : (g.kindOf q, g.kindOf a) ∈
      ((g.block e.target).params.map g.kindOf).zip (e.args.map g.kindOf) := by
    rw [zip_map]
    exact mem_map.mpr ⟨(q, a), hqa, rfl⟩
  rw [hk b hb e he] at hm
  obtain ⟨i, hi, heq⟩ := getElem_of_mem hm
  rw [getElem_zip, Prod.mk.injEq] at heq
  exact heq.1.symm.trans heq.2

end

/-! ## States -/

/-- What a value is in a run: present, of its kind, and a constant as written. -/
def Settled (g : Graph) (env : Store) (x : NodeId) : Prop :=
  ∃ v : Value, env x = some v ∧ v.Fits (g.kindOf x) ∧ ∀ c, (g.node x).op = .constant c → v = c

/-- A state that a run may come to, behind the nodes `before` of its block. -/
structure Reached (g : Graph) (scope : BlockId → NodeId → Prop) (s : State) (before : List NodeId) :
    Prop where
  reachable : s.block ∈ g.reachable
  body : (g.block s.block).body = before ++ s.rest
  values : ∀ x, g.Known scope s.block before x → g.Settled s.env x
  caught : ∀ x, s.caught = some x → x.Fits .reference

section
variable {g : Graph} {scope : BlockId → NodeId → Prop} {w : World}

theorem Known.of_concat {b before n x} (h : g.Known scope b (before ++ [n]) x) :
    g.Known scope b before x ∨ x = n ∧ (g.node n).hasValue = true := by
  rcases h with h | h
  · exact .inl (.inl h)
  · exact h.of_concat.symm.imp .inr id

theorem WellFormed.constant_fits (h : g.WellFormed scope) {b} (hb : b ∈ g.reachable) {before}
    (hbe : ∀ n ∈ before, n ∈ (g.block b).body) {x} (hx : g.Known scope b before x) {v}
    (hv : (g.node x).op = .constant v) :
    v.Fits (g.kindOf x) := by
  obtain ⟨n, hw⟩ := Way.of_reachable hb
  obtain ⟨_, d, _, hd, hde⟩ := h.scopes.defined_by h.proper hw hbe hx
  have hd := hd.reachable h.proper
  rcases hde with hde | hde
  · obtain ⟨i, hi⟩ := h.proper.param_op hd hde
    rw [hi] at hv
    cases hv
  · have hk := h.kinded.body hd hde
    rw [hv] at hk
    exact hk

/-- A value that evaluating the node may give it. -/
inductive Gives (g : Graph) (w : World) (past : List Event) (s : State) (n : NodeId) (v : Value) : Prop
  | computed (value : (g.node n).op.value? w (g.node n).kind s.env = some v)
  | caught (op : (g.node n).op = .caught) (caught : s.caught = some v)
  | answered {service args} (asked : (g.node n).op.service? = some service)
      (value : w.oracle past ⟨service, args⟩ = .value v) (kind : (g.node n).kind ≠ .void)

theorem start_reached (h : g.WellFormed scope) : g.Reached scope g.start [] where
  reachable := h.proper.entry_reachable
  body := rfl
  values x hx := by
    rcases hx with hx | hx | ⟨hx, _⟩
    · exact absurd hx (h.scopes.entry x)
    · rw [start, h.scopes.entry_params] at hx
      cases hx
    · cases hx
  caught _ hx := nomatch hx

namespace Reached

variable {s : State} {b : BlockId} {before rest : List NodeId} {n : NodeId} {env : Store}
  {caught : Option Value}

section
variable (h : g.Reached scope ⟨b, n :: rest, env, caught⟩ before)
include h

theorem inputs (hw : g.WellFormed scope) : ∀ x ∈ (g.node n).op.inputs, g.Settled env x :=
  fun x hx => h.values x (hw.scopes.inputs h.reachable h.body x hx)

theorem mem_body : n ∈ (g.block b).body := by
  rw [h.body]
  exact mem_append_right _ mem_cons_self

theorem exists_value (hw : g.WellFormed scope) (hsu : w.Suits g.signature)
    (hs : (g.node n).op.service? = none) (hp : (g.node n).op ≠ .safepoint)
    (hc : (g.node n).op ≠ .caught) :
    ∃ v : Value, (g.node n).op.value? w (g.node n).kind env = some v ∧ v.Fits (g.node n).kind := by
  refine (hw.kinded.body h.reachable h.mem_body).exists_value hsu (fun x hx => ?_) hs hp
    hc
  obtain ⟨v, hv, hf, _⟩ := h.inputs hw x hx
  exact ⟨v, hv, hf⟩

theorem skip (hn : (g.node n).hasValue = false) :
    g.Reached scope ⟨b, rest, env, caught⟩ (before ++ [n]) where
  reachable := h.reachable
  body := by simpa using h.body
  values x hx := by
    rcases hx.of_concat with hx | ⟨_, hv⟩
    · exact h.values x hx
    · rw [hn] at hv
      cases hv
  caught := h.caught

theorem give {v} (hv : v.Fits (g.kindOf n)) (hc : ∀ c, (g.node n).op = .constant c → v = c) :
    g.Reached scope ⟨b, rest, env.set n (some v), caught⟩ (before ++ [n]) where
  reachable := h.reachable
  body := by simpa using h.body
  values x hx := by
    by_cases hxn : x = n
    · subst hxn
      exact ⟨v, Store.set_self _ _ _, hv, hc⟩
    · rcases hx.of_concat with hx | ⟨hx, _⟩
      · obtain ⟨u, hu, hf⟩ := h.values x hx
        exact ⟨u, (Store.set_ne _ _ hxn).trans hu, hf⟩
      · exact absurd hx hxn
  caught := h.caught

theorem given {past v} (hw : g.WellFormed scope) (hsu : w.Suits g.signature)
    (hv : g.Gives w past ⟨b, rest, env, caught⟩ n v) :
    g.Reached scope (State.give ⟨b, rest, env, caught⟩ n v) (before ++ [n]) := by
  have hki := hw.kinded.body h.reachable h.mem_body
  cases hv with
  | computed hv =>
    obtain ⟨hs, hp, hc⟩ := Operator.of_value? hv
    obtain ⟨u, hu, hf⟩ := h.exists_value hw hsu hs hp hc
    cases hv.symm.trans hu
    refine h.give hf fun c hc => ?_
    rw [hc] at hv
    exact (Option.some.inj hv).symm
  | caught hop hx =>
    rw [hop] at hki
    refine h.give ?_ fun c hc => ?_
    · rw [kindOf, show (g.node n).kind = .reference from hki]
      exact h.caught v hx
    · rw [hop] at hc
      cases hc
  | @answered service args hs hv hvo =>
    have hr : service.result = (g.node n).kind := by
      generalize (g.node n).op = op at hs hki
      cases op with
      | callStatic callee args =>
        cases hs
        obtain ⟨s, hs, _, hk⟩ := hki
        simpa [Service.result, hs] using hk
      | _ => cases hs <;> obtain ⟨_, hs, hk⟩ := hki <;> cases hs <;> exact hk
    refine h.give ?_ fun c hc => ?_
    · rw [kindOf, ← hr]
      exact hsu.kinded.value past _ v hv (hr ▸ hvo)
    · rw [hc] at hs
      cases hs

end

theorem follow (h : g.Reached scope s before) (hw : g.WellFormed scope) {e} (he : g.Leaves s.block before e)
    (hca : ∀ x, caught = some x → x.Fits .reference) :
    g.Reached scope (g.follow e s.env caught) [] where
  reachable := hw.proper.target_reachable h.reachable (mem_edges.mpr ⟨before, he⟩)
  body := rfl
  values x hx := by
    have hm := mem_edges.mpr ⟨before, he⟩
    by_cases hp : x ∈ (g.block e.target).params
    · obtain ⟨a, hqa⟩ := hw.proper.exists_arg h.reachable hm hp
      obtain ⟨u, hu, hf, _⟩ := h.values a
        (hw.scopes.edge h.reachable he a (.inl (of_mem_zip hqa).2))
      refine ⟨u, ?_, ?_, fun c hc => ?_⟩
      · exact (hw.proper.setAll_param h.reachable hm hqa s.env).trans hu
      · rw [hw.kinded.edge.kindOf_eq h.reachable hm hqa]
        exact hf
      · obtain ⟨i, hi⟩ := hw.proper.param_op (hw.proper.target_reachable h.reachable hm) hp
        rw [hi] at hc
        cases hc
    · have hs : scope e.target x := by
        rcases hx with hx | hx | ⟨hx, _⟩
        · exact hx
        · exact absurd hx hp
        · cases hx
      obtain ⟨u, hu, hf⟩ := h.values x (hw.scopes.edge h.reachable he x (.inr hs))
      exact ⟨u, (Store.setAll_of_not_mem _ _ _ hp).trans hu, hf⟩
  caught := hca

end Reached

end

end Graph
end StackCompiler
