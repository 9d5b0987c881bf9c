/-
The nodes that take the place of a call compute what the bytecode of its
method returns: the nodes in the frame have the values that locals and stack
have in a run of the bytecode (`Cursor.Holds`). No kinds are needed for that, so
the method may be one that has no graph of its own.
-/
import StackCompiler.Proofs.Calls
import StackCompiler.Proofs.Inlining

namespace StackCompiler

open List Cursor

/-! ## Instructions on stack and locals -/

namespace StackOp

variable {op : StackOp} {w : World} {locals stack locals' stack' : List Value}

theorem apply_withArgs (op : StackOp) (w : World) (args locals stack : List Value) :
    op.apply (w.withArgs args) locals stack = op.apply w locals stack := by
  cases op <;> rfl

theorem length_apply (h : op.apply w locals stack = some (locals', stack')) :
    locals'.length = locals.length := by
  cases op with
  | load index =>
    simp only [apply] at h
    split at h <;> cases h
    rfl
  | store index =>
    simp only [apply] at h
    split at h
    · split at h <;> cases h
      exact length_set
    · cases h
  | pop | dup | intOp | longOp | doubleOp | negInt | negLong | convert =>
    simp only [apply, apply.arith, apply.negate] at h
    split at h <;> cases h
    rfl
  | constInt | constLong | constDouble | constNull | constObject =>
    cases h
    rfl

/-- Whether an instruction can be executed depends on how much there is, not on what it is. -/
theorem apply_of_length {locals₁ stack₁} (hl : locals₁.length = locals.length) (hs : stack₁.length = stack.length)
    (h : op.apply w locals stack = some (locals', stack')) :
    ∃ locals₁' stack₁', op.apply w locals₁ stack₁ = some (locals₁', stack₁') ∧ stack₁'.length = stack'.length := by
  cases op with
  | load index =>
    simp only [apply] at h
    split at h <;> cases h
    next v hv =>
    have hlt : index < locals₁.length := hl ▸ (List.getElem?_eq_some_iff.mp hv).1
    refine ⟨locals₁, locals₁[index] :: stack₁, ?_, by simp [hs]⟩
    simp only [apply, getElem?_eq_getElem hlt]
  | store index =>
    simp only [apply] at h
    split at h
    · split at h <;> cases h
      next v _ hlt =>
      obtain ⟨v₁, stack₁, rfl⟩ := exists_cons_of_length_eq_add_one hs
      refine ⟨locals₁.set index v₁, stack₁, ?_, by simpa using hs⟩
      simp only [apply, hl, hlt, if_true]
    · cases h
  | intOp | longOp | doubleOp =>
    simp only [apply, apply.arith] at h
    split at h <;> cases h
    next b a _ =>
    obtain ⟨b₁, stack₁, rfl⟩ := exists_cons_of_length_eq_add_one hs
    obtain ⟨a₁, stack₁, rfl⟩ := exists_cons_of_length_eq_add_one (Nat.succ.inj hs)
    exact ⟨_, _, rfl, by simpa using hs⟩
  | pop | dup | negInt | negLong | convert =>
    simp only [apply, apply.negate] at h
    split at h <;> cases h
    obtain ⟨v₁, stack₁, rfl⟩ := exists_cons_of_length_eq_add_one hs
    exact ⟨_, _, rfl, by simpa using hs⟩
  | constInt | constLong | constDouble | constNull | constObject =>
    cases h
    exact ⟨_, _, rfl, by simp [hs]⟩

end StackOp

namespace Graph

/-! ## Nodes in a row -/

/-- Computes nodes one after the other. -/
def computeAll (g : Graph) (w : World) : List NodeId → Store → Option Store
  | [], env => some env
  | n :: ns, env =>
    match (g.node n).op.value? w (g.node n).kind env with
    | some v => g.computeAll w ns (env.set n (some v))
    | none => none

section
variable {g g' : Graph} {w : World} {env env' : Store}

theorem computeAll_congr : ∀ {ns : List NodeId}, (∀ n ∈ ns, g'.node n = g.node n) → ∀ env,
    g'.computeAll w ns env = g.computeAll w ns env
  | [], _, _ => rfl
  | n :: ns, h, env => by
    have hr := fun v => computeAll_congr (fun m hm => h m (mem_cons_of_mem _ hm)) (env.set n (some v))
    simp only [computeAll, h n mem_cons_self, hr]

theorem computeAll_concat {v n} : ∀ {ns : List NodeId} {env : Store},
    g.computeAll w ns env = some env' → (g.node n).op.value? w (g.node n).kind env' = some v →
      g.computeAll w (ns ++ [n]) env = some (env'.set n (some v))
  | [], env, h, hv => by
    cases h
    simp only [nil_append, computeAll, hv]
  | m :: ns, env, h, hv => by
    simp only [computeAll, cons_append] at h ⊢
    split at h
    · exact computeAll_concat h hv
    · cases h

theorem computeAll_of_not_mem {x} : ∀ {ns : List NodeId} {env : Store},
    g.computeAll w ns env = some env' → x ∉ ns → env' x = env x
  | [], env, h, _ => by
    cases h
    rfl
  | n :: ns, env, h, hx => by
    rw [mem_cons, not_or] at hx
    simp only [computeAll] at h
    split at h
    · rw [computeAll_of_not_mem h hx.2, Store.set_ne _ _ hx.1]
    · cases h

theorem computeAll_silent {σ : Type} (r : Runner σ) {plan b rest caught} : ∀ {ns : List NodeId} {env : Store},
    g.computeAll w ns env = some env' → (∀ n ∈ ns, plan n = none) →
      (g.calling r plan w).Silent (.caller ⟨b, ns ++ rest, env, caught⟩) (.caller ⟨b, rest, env', caught⟩)
  | [], env, h, _ => by
    cases h
    exact .refl _ _
  | n :: ns, env, h, hp => by
    simp only [computeAll] at h
    split at h
    · next v hv =>
      refine .trans (.step fun past => ?_) (computeAll_silent r h fun m hm => hp m (mem_cons_of_mem _ hm))
      rw [calling_ordinary fun m hm => by cases hm; exact hp n mem_cons_self]
      have hs : g.stepNode w past ⟨b, ns ++ rest, env, caught⟩ n = _ := stepNode_value hv
      simp only [machine, cons_append, hs]
      rfl
    · cases h

end

/-! ## What the nodes of a method compute -/

/-- The nodes so far have been computed, from `env₀` on, and the frame has the given values. -/
structure Cursor.Holds (w : World) (env₀ : Store) (c : Cursor) (env : Store) (locals stack : List Value) :
    Prop where
  computed : c.graph.computeAll w c.body.toList env₀ = some env
  locals : c.frame.locals.map env = locals.map some
  stack : c.frame.stack.map env = stack.map some

namespace Cursor.Holds

variable {g : Graph} {w : World} {env₀ env : Store} {args : List NodeId} {c c' : Cursor} {locals stack : List Value}

theorem append (h : c.Holds w env₀ env locals stack) (he : c.Expands g args) {n v}
    (hv : n.op.value? w n.kind env = some v) :
    (c.append n).2.Holds w env₀ (env.set c.graph.nodes.size (some v)) locals stack := by
  have hk : ∀ xs : List NodeId, (∀ x ∈ xs, x ∈ c.held) →
      xs.map (env.set c.graph.nodes.size (some v)) = xs.map env := fun xs hxs =>
    map_congr_left fun x hx => Store.set_ne _ _ (Nat.ne_of_lt (he.lt (he.held x (hxs x hx))))
  refine ⟨?_, ?_, ?_⟩
  · rw [c.append_body]
    refine computeAll_concat ?_ ?_
    · rw [computeAll_congr fun x hx => c.append_node_lt n (he.body x hx).2]
      exact h.computed
    · rw [c.append_node_self]
      exact hv
  · exact (hk _ fun x hx => mem_append_left _ hx).trans h.locals
  · exact (hk _ fun x hx => mem_append_right _ hx).trans h.stack

theorem eq_map {xs : List NodeId} {vs} (h : xs.map env = vs.map some) :
    vs = xs.map fun x => (env x).getD .null := by
  have hm := congrArg (List.map fun v : Option Value => v.getD .null) h
  simp only [map_map] at hm
  rw [show ((fun v : Option Value => v.getD .null) ∘ some) = id from rfl, map_id] at hm
  exact hm.symm

/-- The nodes of an expansion have the values that the callee computes. -/
theorem step (h : c.Holds w env₀ env locals stack) (he : c.Expands g args) {kinds bci op}
    (hs : StackStep c kinds bci op c') (hc : c.frame.locals.length = kinds.length) {locals' stack'}
    (ha : op.apply w locals stack = some (locals', stack')) :
    ∃ env', c'.Holds w env₀ env' locals' stack' := by
  let f (x : NodeId) : Value := (env x).getD .null
  have hl : locals = c.frame.locals.map f := eq_map h.locals
  have hst : stack = c.frame.stack.map f := eq_map h.stack
  have hen : ∀ x ∈ c.held, env x = some (f x) := by
    intro x hx
    have hso : env x ∈ (locals ++ stack).map some := by
      rw [map_append, ← h.locals, ← h.stack, ← map_append]
      exact mem_map_of_mem hx
    obtain ⟨v, _, hv⟩ := mem_map.mp hso
    rw [← hv]
    exact congrArg (fun v : Option Value => some (v.getD .null)) hv
  have hva : ∀ xs : List NodeId, (∀ x ∈ xs, x ∈ c.held) → xs.map env = (xs.map f).map some := fun xs hxs => by
    rw [map_map]
    exact map_congr_left fun x hx => hen x (hxs x hx)
  rw [hl, hst] at ha
  cases hs with
  | frame ls st hh _ ha' =>
    cases ha.symm.trans (ha' hc w f)
    exact ⟨env, h.computed, hva ls fun x hx => hh x (mem_append_left _ hx),
      hva st fun x hx => hh x (mem_append_right _ hx)⟩
  | node operator kind st hh hi _ _ ha' =>
    obtain ⟨v, hop, hval⟩ := ha' w f
    cases ha.symm.trans hop
    have hh' : ∀ x ∈ c.frame.stack, x ∈ c.held := fun x hx => mem_append_right _ hx
    have hv : operator.value? w kind env = some v := by
      rw [← hval]
      exact Operator.value?_congr w kind fun x hx => hen x (hh' x (hi x hx))
    have hp : (c.withStack st).Holds w env₀ env (c.frame.locals.map f) (st.map f) :=
      ⟨h.computed, hl ▸ h.locals, hva st fun x hx => hh' x (hh.subset hx)⟩
    have hn := hp.append (n := ⟨operator, kind, bci, none⟩) (he.withStack hh) hv
    refine ⟨_, hn.computed, hn.locals, ?_⟩
    change List.map (env.set c.graph.nodes.size (some v)) (c.graph.nodes.size :: st) = _
    rw [map_cons, map_cons, Store.set_self]
    exact congrArg _ hn.stack

theorem addZero (h : c.Holds w env₀ env locals stack) (he : c.Expands g args) (bci : Nat) (kind : Kind) :
    ∃ env', (c.addZero bci kind).Holds w env₀ env' (locals ++ [kind.zero]) stack := by
  have hn := h.append (n := { op := .constant kind.zero, kind, bci }) (v := kind.zero) he rfl
  refine ⟨_, hn.computed, ?_, hn.stack⟩
  change List.map _ (c.frame.locals ++ [c.graph.nodes.size]) = _
  rw [map_append, map_append, map_singleton, map_singleton, Store.set_self]
  exact congrArg (· ++ _) hn.locals

end Cursor.Holds

/-! ## The whole method -/

/-- How instructions become an expansion: some that work on stack and locals, then a return. -/
inductive Cursor.Unrolls (kinds : List Kind) (result : Kind) (bci : Nat) :
    List Instruction → Cursor → Graph → Expansion → Prop
  | ret (insns : List Instruction) (c : Cursor) :
      Unrolls kinds result bci (.ret :: insns) c c.graph ⟨c.body.toList, none⟩
  | retValue (insns : List Instruction) {c value stack}
      (top : c.frame.stack = value :: stack) (kind : c.graph.kindOf value = result) :
      Unrolls kinds result bci (.retValue :: insns) c c.graph ⟨c.body.toList, some value⟩
  | stack {op insns c c' g e}
      (step : StackStep c kinds bci op c') (rest : Unrolls kinds result bci insns c' g e) :
      Unrolls kinds result bci (.stack op :: insns) c g e

section
variable {g g' : Graph} {w : World} {m : Method} {args : List NodeId} {e : Expansion} {kinds : List Kind}
  {result : Kind} {bci : Nat}
  {insns : List Instruction} {c : Cursor}

theorem expandFrom_unrolls {ctx} :
    ∀ {insns : List Instruction} {pc : Nat} {c : Cursor},
      expandFrom ctx result bci pc insns c = (g', some e) → c.Unrolls ctx.localKinds result bci insns g' e
  | [], _, _, h => by cases h
  | insn :: insns, pc, c, h => by
    cases insn with
    | ret =>
      cases h
      exact .ret insns c
    | retValue =>
      rw [expandFrom] at h
      split at h
      · next ht =>
        split at h
        · next hk =>
          cases h
          exact .retValue insns ht hk
        · cases h
      · cases h
    | stack op =>
      rw [expandFrom] at h
      split at h
      · next hs => exact .stack (Cursor.step_stackStep hs) (expandFrom_unrolls h)
      · cases h
    | _ => cases h

namespace Cursor

theorem StackStep.length_locals {c' op} (h : StackStep c kinds bci op c')
    (hc : c.frame.locals.length = kinds.length) (w : World) :
    c'.frame.locals.length = c.frame.locals.length := by
  cases h with
  | frame ls st _ _ ha =>
    have := StackOp.length_apply (ha hc w fun _ => .null)
    simpa using this
  | node => rfl

/-- An instruction that has been read can be executed on any values of the same number. -/
theorem StackStep.exists_apply {c' op} (h : StackStep c kinds bci op c')
    (hc : c.frame.locals.length = kinds.length) (w : World) {locals stack}
    (hl : locals.length = c.frame.locals.length) (hs : stack.length = c.frame.stack.length) :
    ∃ locals' stack', op.apply w locals stack = some (locals', stack') ∧
      stack'.length = c'.frame.stack.length := by
  cases h with
  | frame ls st _ _ ha =>
    obtain ⟨locals', stack', hop, hle⟩ := StackOp.apply_of_length (by simpa using hl)
      (by simpa using hs) (ha hc w fun _ => .null)
    exact ⟨locals', stack', hop, by simpa using hle⟩
  | node operator kind st _ _ _ _ ha =>
    obtain ⟨v, hop, _⟩ := ha w fun _ => .null
    obtain ⟨locals', stack', hop, hle⟩ := StackOp.apply_of_length (by simpa using hl)
      (by simpa using hs) hop
    refine ⟨locals', stack', hop, hle.trans ?_⟩
    simp [pushNew, push, append, withStack]

namespace Unrolls

section
variable (h : c.Unrolls kinds result bci insns g' e)
include h

/-- What the rest of a method does, by its bytecode and by the nodes that it becomes. -/
theorem runs {pc} (hc : m.code.drop pc = insns) (he : c.Expands g args)
    (hco : c.frame.locals.length = kinds.length) (vals locals stack : List Value)
    (hl : locals.length = c.frame.locals.length) (hst : stack.length = c.frame.stack.length) :
    ∃ r k, (m.machine (w.withArgs vals)).Completes ⟨pc, locals, stack⟩ (.returned r) k ∧
      (r = none ↔ e.value = none) ∧
      ∀ env₀ env, c.Holds w env₀ env locals stack →
        ∃ env', g'.computeAll w e.body env₀ = some env' ∧ ∀ v, e.value = some v → env' v = r := by
  have hste : ∀ {pc : Nat} {insn : Instruction} {insns : List Instruction} {locals stack : List Value},
      m.code.drop pc = insn :: insns → ∀ past, (m.machine (w.withArgs vals)).step past ⟨pc, locals, stack⟩ =
        m.stepInsn (w.withArgs vals) past ⟨pc, locals, stack⟩ insn := by
    intro pc insn insns locals stack hc past
    have hfe : m.code[pc]? = some insn := by
      rw [← head?_drop, hc]
      rfl
    simp only [Method.machine, hfe]
  induction h generalizing pc locals stack with
  | ret insns c =>
    exact ⟨none, 0, .last (hste hc), by simp, fun env₀ env hh => ⟨env, hh.computed, fun _ hv => by cases hv⟩⟩
  | @retValue insns c value rest ht =>
    rw [ht] at hst
    obtain ⟨v, stack, rfl⟩ := exists_cons_of_length_eq_add_one hst
    refine ⟨some v, 0, .last (hste hc), by simp, fun env₀ env hh => ⟨env, hh.computed, fun u hu => ?_⟩⟩
    cases hu
    have hva := hh.stack
    rw [ht, map_cons, map_cons] at hva
    exact (List.cons.inj hva).1
  | @stack op insns c c' g' e hs _ ih =>
    have hr : m.code.drop (pc + 1) = insns := by
      rw [← tail_drop, hc]
      rfl
    have hf := hs.length_locals hco w
    obtain ⟨locals', stack', hop, hle⟩ := hs.exists_apply hco w hl hst
    obtain ⟨r, k, hcom, hval, hm⟩ := ih hr (he.step hs) (hf.trans hco)
      locals' stack' (((StackOp.length_apply hop).trans hl).trans hf.symm) hle
    refine ⟨r, k + 1, .step (fun past => ?_) hcom, hval, fun env₀ env hh => ?_⟩
    · rw [hste hc, Method.stepInsn, StackOp.apply_withArgs, hop]
    · obtain ⟨env', hh'⟩ := hh.step he hs hco hop
      exact hm env₀ env' hh'

theorem reads (he : c.Expands g args) :
    (∀ before y after, e.body = before ++ y :: after →
      ∀ x ∈ (g'.node y).op.inputs, x ∈ args ∨ x ∈ before) ∧
    ∀ v, e.value = some v → v ∈ args ∨ v ∈ e.body := by
  induction h with
  | ret => exact ⟨he.reads, fun _ hv => by cases hv⟩
  | @retValue _ c value _ ht =>
    refine ⟨he.reads, fun v hv => ?_⟩
    cases hv
    exact he.held value (mem_append_right _ (ht ▸ mem_cons_self))
  | stack hs _ ih => exact ih (he.step hs)

/-- The value of an expansion tells which return the method has. -/
theorem returns :
    (if e.value = none then Instruction.ret else .retValue) ∈ insns := by
  induction h with
  | ret => exact mem_cons_self
  | retValue => exact mem_cons_self
  | stack _ _ ih => exact mem_cons_of_mem _ ih

end

end Unrolls
end Cursor

/-- Each of the locals without an argument gets a zero. -/
theorem foldl_addZero (bci : Nat) : ∀ (kinds : List Kind) {c : Cursor}, c.Expands g args →
    (kinds.foldl (Cursor.addZero bci) c).Expands g args ∧
      (kinds.foldl (Cursor.addZero bci) c).frame.locals.length = c.frame.locals.length + kinds.length ∧
      (kinds.foldl (Cursor.addZero bci) c).frame.stack = c.frame.stack ∧
      ∀ w env₀ env locals stack, c.Holds w env₀ env locals stack →
        ∃ env', (kinds.foldl (Cursor.addZero bci) c).Holds w env₀ env' (locals ++ kinds.map (·.zero)) stack
  | [], c, he => ⟨he, rfl, rfl, fun w env₀ env locals stack hh => ⟨env, by simpa using hh⟩⟩
  | kind :: kinds, c, he => by
    obtain ⟨he', hl, hs, hho⟩ := foldl_addZero bci kinds (he.addZero bci kind)
    have ho : (c.addZero bci kind).frame.locals.length = c.frame.locals.length + 1 := by
      simp [Cursor.addZero, Cursor.append]
    refine ⟨he', ?_, hs, fun w env₀ env locals stack hh => ?_⟩
    · rw [foldl_cons, hl, ho, length_cons, Nat.add_assoc, Nat.add_comm 1]
    · obtain ⟨env₁, hh₁⟩ := hh.addZero he bci kind
      obtain ⟨env', hh'⟩ := hho w env₀ env₁ _ _ hh₁
      refine ⟨env', ?_⟩
      rw [append_assoc, singleton_append] at hh'
      exact hh'

/-- What the nodes in place of a call with the inputs `args` have to do with the method `m`. -/
structure Expansion.Means (g' : Graph) (m : Method) (args : List NodeId) (e : Expansion) : Prop where
  reads : ∀ before y after, e.body = before ++ y :: after →
    ∀ x ∈ (g'.node y).op.inputs, x ∈ args ∨ x ∈ before
  value : ∀ v, e.value = some v → v ∈ args ∨ v ∈ e.body
  /-- The bytecode returns by the instruction that the value tells. -/
  returns : (if e.value = none then Instruction.ret else .retValue) ∈ m.code
  /-- The bytecode comes to an end on any arguments, and what it returns is the value. -/
  runs : ∀ (w : World) (vals : List Value), vals.length = args.length →
    ∃ r k, (m.machine (w.withArgs vals)).Completes (m.entered (w.withArgs vals)) (.returned r) k ∧
      (r = none ↔ e.value = none) ∧
      ∀ env, env.read args = some vals →
        ∃ env', g'.computeAll w e.body env = some env' ∧ ∀ v, e.value = some v → env' v = r

theorem expand_unrolls (h : g.expand m args bci = (g', some e)) : ∃ s, m.key.signature? = some s ∧
    args.length ≤ (m.localKinds s).length ∧
      (Cursor.entering g args (m.localKinds s) bci).Unrolls (m.localKinds s) s.result bci m.code g' e := by
  rw [expand] at h
  split at h
  · cases h
  · next s hs =>
    dsimp only at h
    split at h
    · cases h
    · next hl => exact ⟨s, hs, Nat.le_of_not_lt hl, expandFrom_unrolls h⟩

theorem expand_means (ha : ∀ a ∈ args, a < g.nodes.size)
    (h : g.expand m args bci = (g', some e)) : e.Means g' m args := by
  obtain ⟨s, hs, hle, hu⟩ := expand_unrolls h
  obtain ⟨he, hc, hst, hho⟩ :=
    foldl_addZero bci ((m.localKinds s).drop args.length) (.start ha)
  change (Cursor.entering g args (m.localKinds s) bci).Expands g args at he
  change (Cursor.entering g args (m.localKinds s) bci).frame.locals.length = args.length + _ at hc
  change (Cursor.entering g args (m.localKinds s) bci).frame.stack = [] at hst
  obtain ⟨hr, hva⟩ := hu.reads he
  refine ⟨hr, hva, hu.returns, fun w vals hv => ?_⟩
  have hf : m.frameKinds = m.localKinds s := by rw [Method.frameKinds, hs]
  have hen : m.entered (w.withArgs vals) =
      ⟨0, vals ++ ((m.localKinds s).drop args.length).map (·.zero), []⟩ := by
    rw [Method.entered, hf]
    change StackState.mk 0 (vals ++ ((m.localKinds s).drop vals.length).map _) [] = _
    rw [hv]
  have hl : (Cursor.entering g args (m.localKinds s) bci).frame.locals.length = (m.localKinds s).length := by
    rw [hc, length_drop]
    exact Nat.add_sub_cancel' hle
  obtain ⟨r, k, hco, hn, hm⟩ := hu.runs drop_zero he hl vals
    (vals ++ ((m.localKinds s).drop args.length).map (·.zero)) []
    (by rw [hc, length_append, length_map, hv]) (by simp [hst])
  refine ⟨r, k, hen ▸ hco, hn, fun env hre => ?_⟩
  obtain ⟨env', hh⟩ := hho w env env vals []
    ⟨rfl, Store.read_eq_some.mp hre, rfl⟩
  exact hm env env' hh

end

end Graph
end StackCompiler
