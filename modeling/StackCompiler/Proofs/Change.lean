/-
What a clean-up step changes in a graph, said once for all of them: the body
nodes that are kept, the parameters that stay, and the node that is read in place
of another (`Change.Turns`). Scopes and kinds stay in order if the new names say
the same (`Change.Faithful`).
-/
import StackCompiler.Graph.Fold
import StackCompiler.Proofs.GraphRuns

namespace StackCompiler

open List

/-! ## Operators -/

namespace Operator

variable {op : Operator} {f : NodeId → NodeId}

theorem of_isPure (h : op.isPure = true) : op.service? = none ∧ op ≠ .safepoint ∧ op ≠ .caught := by
  cases op <;> simp_all [isPure, service?]

theorem inputs_mapInputs (f : NodeId → NodeId) (op : Operator) :
    (op.mapInputs f).inputs = op.inputs.map f := by
  cases op <;> simp [mapInputs, inputs]

theorem service?_mapInputs (f : NodeId → NodeId) (op : Operator) :
    (op.mapInputs f).service? = op.service? := by
  cases op <;> rfl

theorem mapInputs_eq_self (h : ∀ x ∈ op.inputs, f x = x) : op.mapInputs f = op := by
  have hm : ∀ {xs : List NodeId}, (∀ x ∈ xs, f x = x) → xs.map f = xs := fun {xs} hxs =>
    (map_congr_left hxs).trans (map_id' xs)
  cases op <;> simp_all [mapInputs, inputs]

theorem mapInputs_eq_blockParam {b i} (h : op.mapInputs f = .blockParam b i) :
    op = .blockParam b i := by
  cases op <;> simp_all [mapInputs]

theorem HasKind.mapInputs {kindOf kindOf' s k} (h : op.HasKind kindOf s k) (hf : ∀ x, kindOf' (f x) = kindOf x) :
    (op.mapInputs f).HasKind kindOf' s k := by
  cases op <;> simp_all [HasKind, Operator.mapInputs, service?, Function.comp_def]

theorem value?_mapInputs {env env'} (w : World) (k : Kind) (h : ∀ x ∈ op.inputs, env' (f x) = env x) :
    (op.mapInputs f).value? w k env' = op.value? w k env := by
  cases op <;> simp_all [value?, mapInputs, inputs]

end Operator

/-- Whether a node leaves a value does not depend on the nodes that it names. -/
theorem Node.hasValue_mapInputs (f : NodeId → NodeId) (n : Node) (handler : Option Edge) :
    ({ n with op := n.op.mapInputs f, handler } : Node).hasValue = n.hasValue := by
  obtain ⟨op, kind, bci, _⟩ := n
  cases op <;> rfl

namespace Continuation

variable (f : NodeId → NodeId) (edge : Edge → Edge) (k : Continuation)

/-- The continuation with new names for its inputs and new edges. -/
def mapWith : Continuation → Continuation
  | .jump e => .jump (edge e)
  | .branch cond lhs rhs taken notTaken => .branch cond (f lhs) (f rhs) (edge taken) (edge notTaken)
  | .ret value => .ret (value.map f)
  | .raise exception handler => .raise (f exception) (handler.map edge)

theorem mapNodes_eq : k.mapNodes f = k.mapWith f (·.mapArgs f) := by
  cases k <;> rfl

theorem inputs_mapWith : (k.mapWith f edge).inputs = k.inputs.map f := by
  cases k with
  | ret value => cases value <;> rfl
  | _ => rfl

theorem edges_mapWith : (k.mapWith f edge).edges = k.edges.map edge := by
  cases k with
  | raise _ handler => cases handler <;> rfl
  | _ => rfl

theorem mapWith_congr {f edge edge'} {k : Continuation} (h : ∀ e ∈ k.edges, edge e = edge' e) :
    k.mapWith f edge = k.mapWith f edge' := by
  cases k with
  | raise _ handler => cases handler <;> simp_all [mapWith, edges]
  | _ => simp_all [mapWith, edges]

theorem mapWith_id : k.mapWith id id = k := by
  cases k <;> simp [mapWith]

end Continuation

/-! ## Lists in step -/

section
variable {α β γ : Type}

theorem exists_split_of_filter {xs : List α} {f before' after' x} (h : xs.filter f = before' ++ x :: after') :
    ∃ before after, xs = before ++ x :: after ∧ before.filter f = before' ∧ f x = true := by
  obtain ⟨before, rest, rfl, rfl, hr⟩ := filter_eq_append_iff.mp h
  obtain ⟨skipped, after, rfl, hs, hx, _⟩ := filter_eq_cons_iff.mp hr
  refine ⟨before ++ skipped, after, (append_assoc _ _ _).symm, ?_, hx⟩
  rw [filter_append, filter_eq_nil_iff.mpr hs, append_nil]

theorem zip_filter (f : α → Bool) (r : β → γ) : ∀ {ps : List α} {as : List β}, as.length = ps.length →
    (((ps.zip as).filter (f ·.1)).map (r ·.2)).length = (ps.filter f).length ∧
      (ps.filter f).zip (((ps.zip as).filter (f ·.1)).map (r ·.2)) =
        ((ps.zip as).filter (f ·.1)).map fun pa => (pa.1, r pa.2)
  | [], [], _ => ⟨rfl, rfl⟩
  | p :: ps, a :: as, h => by
    have ih := zip_filter f r (Nat.succ.inj h)
    by_cases hp : f p <;> simp_all

theorem map_eq_map_of_zip {f : α → γ} {f' : β → γ} : ∀ {ps : List α} {as : List β},
    as.length = ps.length → (∀ pa ∈ ps.zip as, f pa.1 = f' pa.2) → as.map f' = ps.map f
  | [], [], _, _ => rfl
  | p :: ps, a :: as, h, heq => by
    have ih := map_eq_map_of_zip (Nat.succ.inj h) fun pa hpa => heq pa (mem_cons_of_mem _ hpa)
    rw [map_cons, map_cons, ih, heq (p, a) mem_cons_self]

end

namespace Graph

/-! ## Changes -/

/-- The method that a graph is for. -/
def head (g : Graph) : MethodKey × Signature := (g.key, g.signature)

/-- The body nodes that are kept, the parameters that stay, and the new names of nodes. -/
structure Change where
  kept : NodeId → Bool
  stays : NodeId → Bool
  rename : NodeId → NodeId

namespace Change

/-- The edge with arguments for the parameters that stay. -/
def edge (c : Change) (g : Graph) (e : Edge) : Edge :=
  ⟨e.target, (((g.block e.target).params.zip e.args).filter (c.stays ·.1)).map (c.rename ·.2)⟩

/-- The arguments of an edge are kept. -/
def Passes (c : Change) (e : Edge) : Prop := ∀ a ∈ e.args, c.kept a = true

def node (c : Change) (g : Graph) (n : Node) : Node :=
  ⟨n.op.mapInputs c.rename, n.kind, n.bci, n.handler.map (c.edge g)⟩

def cont (c : Change) (g : Graph) (k : Continuation) : Continuation := k.mapWith c.rename (c.edge g)

/-- What may become of a node: it stays, or its value is known. -/
inductive OfNode (c : Change) (g : Graph) (n : Node) : Node → Prop
  | same (inputs : ∀ x ∈ n.op.inputs, c.kept x = true) (passes : ∀ e, n.handler = some e → c.Passes e) :
      OfNode c g n (c.node g n)
  | folded {v} (value : g.evaluate? n.op = some v) : OfNode c g n ⟨.constant v, n.kind, n.bci, none⟩

/-- What may become of the end of a block: it stays, or it is a branch whose outcome is known. -/
inductive OfCont (c : Change) (g : Graph) : Continuation → Continuation → Prop
  | same {k} (inputs : ∀ x ∈ k.inputs, c.kept x = true) (passes : ∀ e ∈ k.edges, c.Passes e) :
      OfCont c g k (c.cont g k)
  | decided {cond lhs rhs taken notTaken outcome}
      (known : g.outcome? cond lhs rhs = some outcome)
      (passes : c.Passes (if outcome then taken else notTaken)) :
      OfCont c g (.branch cond lhs rhs taken notTaken)
        (.jump (c.edge g (if outcome then taken else notTaken)))

/-- The change makes `g'` of `g`, as far as blocks can be reached. -/
structure Turns (c : Change) (g g' : Graph) : Prop where
  head : g'.head = g.head
  nodes : g'.nodes.size = g.nodes.size
  blocks : g'.blocks.size = g.blocks.size
  kindOf : ∀ n, g'.kindOf n = g.kindOf n
  rename_kind : g.EdgesFit g.reachable → ∀ x, g.kindOf (c.rename x) = g.kindOf x
  isHandler : ∀ b, (g'.block b).isHandler = (g.block b).isHandler
  rename_lt : ∀ {x}, x < g.nodes.size → c.rename x < g.nodes.size
  params : ∀ {b}, b ∈ g.reachable → (g'.block b).params = (g.block b).params.filter c.stays
  index : ∀ {b i q}, b ∈ g.reachable → (g'.block b).params[i]? = some q →
    (g'.node q).op = .blockParam b (.ofNat i)
  body : ∀ {b}, b ∈ g.reachable → (g'.block b).body = (g.block b).body.filter c.kept
  node : ∀ {b n}, b ∈ g.reachable → n ∈ (g.block b).body → c.kept n = true →
    c.OfNode g (g.node n) (g'.node n)
  pure : ∀ {b n}, b ∈ g.reachable → n ∈ (g.block b).body → c.kept n = false →
    (g.node n).op.isPure = true
  cont : ∀ {b}, b ∈ g.reachable → c.OfCont g (g.block b).cont (g'.block b).cont

variable {c : Change} {g g' : Graph}

theorem OfNode.hasValue {n n'} (h : c.OfNode g n n') : n.hasValue = true → n'.hasValue = true := by
  intro hv
  cases h with
  | same => rwa [← Node.hasValue_mapInputs c.rename n (n.handler.map (c.edge g))] at hv
  | folded => rfl

variable {y : NodeId} {k : Continuation}

theorem OfNode.mem_inputs {n n'} (h : c.OfNode g n n') (hy : y ∈ n'.op.inputs) :
    ∃ x ∈ n.op.inputs, c.kept x = true ∧ c.rename x = y := by
  cases h with
  | same inputs _ =>
    rw [node, Operator.inputs_mapInputs] at hy
    obtain ⟨x, hx, rfl⟩ := mem_map.mp hy
    exact ⟨x, hx, inputs x hx, rfl⟩
  | folded => cases hy

theorem OfNode.exists_handler {n n'} (h : c.OfNode g n n') {e'} (he' : n'.handler = some e') :
    ∃ e, n.handler = some e ∧ c.Passes e ∧ e' = c.edge g e := by
  cases h with
  | same _ passes =>
    obtain ⟨e, he, rfl⟩ := Option.map_eq_some_iff.mp he'
    exact ⟨e, he, passes e he, rfl⟩
  | folded => cases he'

theorem OfCont.mem_inputs {k'} (h : c.OfCont g k k') (hy : y ∈ k'.inputs) :
    ∃ x ∈ k.inputs, c.kept x = true ∧ c.rename x = y := by
  cases h with
  | same inputs _ =>
    rw [cont, Continuation.inputs_mapWith] at hy
    obtain ⟨x, hx, rfl⟩ := mem_map.mp hy
    exact ⟨x, hx, inputs x hx, rfl⟩
  | decided => cases hy

theorem OfCont.exists_edge {k'} (h : c.OfCont g k k') {e'} (he' : e' ∈ k'.edges) :
    ∃ e ∈ k.edges, c.Passes e ∧ e' = c.edge g e := by
  cases h with
  | same _ passes =>
    rw [cont, Continuation.edges_mapWith] at he'
    obtain ⟨e, he, rfl⟩ := mem_map.mp he'
    exact ⟨e, he, passes e he, rfl⟩
  | @decided _ _ _ taken notTaken outcome _ hp =>
    obtain rfl := mem_singleton.mp he'
    refine ⟨_, ?_, hp, rfl⟩
    cases outcome <;> simp [Continuation.edges]

theorem OfCont.of_raise {ha'} (h : c.OfCont g k (.raise y ha')) :
    ∃ x handler, k = .raise x handler ∧ y = c.rename x ∧ ha' = handler.map (c.edge g) := by
  generalize hk' : Continuation.raise y ha' = k' at h
  cases h with
  | same =>
    cases k with
    | raise x handler => exact ⟨x, handler, rfl, Continuation.raise.inj hk'⟩
    | _ => cases hk'
  | decided => cases hk'

namespace Turns

variable {b : BlockId}

section
variable (h : c.Turns g g')
include h

theorem signature : g'.signature = g.signature := congrArg Prod.snd h.head

theorem leaves (hb : b ∈ g.reachable) {before' e'} (hl : g'.Leaves b before' e') :
    ∃ before e, before' = before.filter c.kept ∧ g.Leaves b before e ∧ c.Passes e ∧ e' = c.edge g e := by
  cases hl with
  | @catches _ _ n _ hbo he' =>
    rw [h.body hb] at hbo
    obtain ⟨before, after, hs, rfl, hn⟩ := exists_split_of_filter hbo
    have hm : n ∈ (g.block b).body := hs ▸ mem_append_right _ mem_cons_self
    obtain ⟨e, he, hp, rfl⟩ := (h.node hb hm hn).exists_handler he'
    exact ⟨before, e, rfl, .catches hs he, hp, rfl⟩
  | cont he' =>
    obtain ⟨e, he, hp, rfl⟩ := (h.cont hb).exists_edge he'
    exact ⟨_, e, h.body hb, .cont he, hp, rfl⟩

theorem exists_edge (hb : b ∈ g.reachable) {e'} (he' : e' ∈ g'.edges b) :
    ∃ e ∈ g.edges b, c.Passes e ∧ e' = c.edge g e := by
  obtain ⟨before', hl⟩ := mem_edges.mp he'
  obtain ⟨before, e, _, he, hp, rfl⟩ := h.leaves hb hl
  exact ⟨e, mem_edges.mpr ⟨before, he⟩, hp, rfl⟩

/-- No block becomes reachable. -/
theorem reachable (hp : g.Proper) (hb : b ∈ g'.reachable) : b ∈ g.reachable := by
  refine reachable_induct hp.entry_reachable (fun hb he' => ?_) hb
  obtain ⟨e, he, _, rfl⟩ := h.exists_edge hb he'
  exact (hp.target_reachable hb he : e.target ∈ g.reachable)

theorem zip_edge (hp : g.Proper) (hb : b ∈ g.reachable) {e} (he : e ∈ g.edges b) :
    (g'.block e.target).params.zip (c.edge g e).args =
      (((g.block e.target).params.zip e.args).filter (c.stays ·.1)).map fun qa => (qa.1, c.rename qa.2) := by
  rw [h.params (hp.target_reachable hb he)]
  exact (zip_filter c.stays c.rename (hp.arity hb he)).2

theorem arity (hp : g.Proper) (hb : b ∈ g.reachable) {e} (he : e ∈ g.edges b) :
    (c.edge g e).args.length = (g'.block e.target).params.length := by
  rw [h.params (hp.target_reachable hb he)]
  exact (zip_filter c.stays c.rename (hp.arity hb he)).1

end

theorem mem_args {e a'} (ha : a' ∈ (c.edge g e).args) :
    ∃ a ∈ e.args, c.rename a = a' := by
  obtain ⟨⟨q, a⟩, hqa, rfl⟩ := mem_map.mp ha
  exact ⟨a, (of_mem_zip (mem_filter.mp hqa).1).2, rfl⟩

section
variable (h : c.Turns g g')
include h

theorem mem_body (hb : b ∈ g.reachable) {n} (hn : n ∈ (g'.block b).body) :
    n ∈ (g.block b).body ∧ c.kept n = true := by
  rw [h.body hb] at hn
  exact mem_filter.mp hn

theorem proper (hp : g.Proper) : g'.Proper where
  entry_lt := by rw [h.blocks]; exact hp.entry_lt
  params hb := by
    refine ⟨?_, h.index (h.reachable hp hb)⟩
    rw [h.params (h.reachable hp hb)]
    exact (hp.params_nodup (h.reachable hp hb)).filter _
  body hb hn := by
    have hb := h.reachable hp hb
    rw [h.nodes]
    exact hp.body hb (h.mem_body hb hn).1
  inputs hb hn hy := by
    have hb := h.reachable hp hb
    obtain ⟨hn, hk⟩ := h.mem_body hb hn
    obtain ⟨x, hx, _, rfl⟩ := (h.node hb hn hk).mem_inputs hy
    rw [h.nodes]
    exact h.rename_lt (hp.inputs hb hn hx)
  cont hb hy := by
    have hb := h.reachable hp hb
    obtain ⟨x, hx, _, rfl⟩ := (h.cont hb).mem_inputs hy
    rw [h.nodes]
    exact h.rename_lt (hp.cont hb hx)
  target hb he' := by
    have hb := h.reachable hp hb
    obtain ⟨e, he, _, rfl⟩ := h.exists_edge hb he'
    rw [h.blocks]
    exact (hp.target hb he : e.target < g.blocks.size)
  arity hb he' := by
    have hb := h.reachable hp hb
    obtain ⟨e, he, _, rfl⟩ := h.exists_edge hb he'
    exact h.arity hp hb he
  args hb he' ha' := by
    have hb := h.reachable hp hb
    obtain ⟨e, he, _, rfl⟩ := h.exists_edge hb he'
    obtain ⟨a, ha, rfl⟩ := mem_args ha'
    rw [h.nodes]
    exact h.rename_lt (hp.args hb he ha)

/-- Places stay in order. -/
theorem placed (hp : g.Proper) (hpl : g.Placed) : g'.Placed where
  nodup hb := by
    rw [h.body (h.reachable hp hb)]
    exact (hpl.nodup (h.reachable hp hb)).filter _
  apart hb hb' hn hn' :=
    hpl.apart (h.reachable hp hb) (h.reachable hp hb') (h.mem_body (h.reachable hp hb) hn).1
      (h.mem_body (h.reachable hp hb') hn').1
  op hb hn k i hop := by
    have hb := h.reachable hp hb
    obtain ⟨hn, hk⟩ := h.mem_body hb hn
    have hno := h.node hb hn hk
    generalize g'.node _ = n' at hno hop
    cases hno with
    | same => exact hpl.op hb hn k i (Operator.mapInputs_eq_blockParam hop)
    | folded => cases hop

theorem handlerFree (hp : g.Proper) (hf : g.HandlerFree g.reachable) :
    g'.HandlerFree g'.reachable where
  body hb hn := by
    have hb := h.reachable hp hb
    obtain ⟨hn, hk⟩ := h.mem_body hb hn
    refine Option.eq_none_iff_forall_ne_some.mpr fun e' he' => ?_
    obtain ⟨e, he, _⟩ := (h.node hb hn hk).exists_handler he'
    rw [hf.body hb hn] at he
    cases he
  raise hb hc := by
    have hb := h.reachable hp hb
    have ht := h.cont hb
    rw [hc] at ht
    obtain ⟨x, handler, hr, _, rfl⟩ := ht.of_raise
    rw [hf.raise hb hr]
    rfl

theorem plain (hg : g.Plain) : g'.Plain :=
  ⟨h.proper hg.proper, h.placed hg.proper hg.placed, h.handlerFree hg.proper hg.free⟩

end

end Turns

/-! ## New names -/

/-- The new names say the same: parameters and body nodes that remain keep their names, a parameter
that goes gets that of each of its arguments, and no name clashes with what a block computes. -/
structure Faithful (c : Change) (g : Graph) (scope : BlockId → NodeId → Prop) : Prop where
  param : ∀ {b q}, b ∈ g.reachable → q ∈ (g.block b).params → c.stays q = true → c.rename q = q
  gone : ∀ {b e q a}, b ∈ g.reachable → e ∈ g.edges b → (q, a) ∈ (g.block e.target).params.zip e.args →
    c.stays q = false → c.rename q = c.rename a
  outside : ∀ {b x}, b ∈ g.reachable → g.Known scope b [] x →
    ¬ (x ∈ (g.block b).params ∧ c.stays x = true) → c.rename x ∉ (g.block b).params
  body : ∀ {b n}, b ∈ g.reachable → n ∈ (g.block b).body → c.rename n = n
  apart : ∀ {b before n after x}, b ∈ g.reachable → (g.block b).body = before ++ n :: after →
    g.Known scope b before x → c.rename x = n → x = n

theorem Faithful.of_id {kept scope} :
    Faithful ⟨kept, fun _ => true, id⟩ g scope where
  param _ _ _ := rfl
  gone _ _ _ h := nomatch h
  outside _ _ h hx := h ⟨hx, rfl⟩
  body _ _ := rfl
  apart _ _ _ h := h

/-- What a block may read after the change. -/
def scope (c : Change) (g g' : Graph) (scope : BlockId → NodeId → Prop) (b : BlockId) (y : NodeId) : Prop :=
  y ∉ (g'.block b).params ∧ ∃ x, g.Known scope b [] x ∧ c.kept x = true ∧ c.rename x = y

section
variable {scope : BlockId → NodeId → Prop}

theorem Turns.known (h : c.Turns g g') (hf : c.Faithful g scope) {b} (hb : b ∈ g.reachable) {before}
    (hbe : ∀ n ∈ before, n ∈ (g.block b).body) {x} (hx : g.Known scope b before x) (hk : c.kept x = true) :
    g'.Known (c.scope g g' scope) b (before.filter c.kept) (c.rename x) := by
  have hfi : g.Known scope b [] x → g'.Known (c.scope g g' scope) b (before.filter c.kept) (c.rename x) := by
    intro hx
    by_cases hp : c.rename x ∈ (g'.block b).params
    · exact .inr (.inl hp)
    · exact .inl ⟨hp, x, hx, hk, rfl⟩
  rcases hx with hx | hx | ⟨hx, hv⟩
  · exact hfi (.inl hx)
  · exact hfi (.inr (.inl hx))
  · rw [hf.body hb (hbe x hx)]
    exact .inr (.inr ⟨mem_filter.mpr ⟨hx, hk⟩, (h.node hb (hbe x hx) hk).hasValue hv⟩)

theorem evaluate?_fits (hw : g.WellFormed scope) {b} (hb : b ∈ g.reachable) {before after n}
    (hbo : (g.block b).body = before ++ n :: after) {v} (hv : g.evaluate? (g.node n).op = some v) :
    v.Fits (g.node n).kind := by
  have hbe : ∀ m ∈ before, m ∈ (g.block b).body := fun m hm => hbo ▸ mem_append_left _ hm
  have hk := hw.kinded.body hb (hbo ▸ mem_append_right before mem_cons_self)
  have hkn := hw.scopes.inputs hb hbo
  have hf : ∀ {x a}, x ∈ (g.node n).op.inputs → g.constant? x = some a → a.Fits (g.kindOf x) := by
    intro x a hx ha
    refine hw.constant_fits hb hbe (hkn x hx) ?_
    rw [constant?] at ha
    cases hop : (g.node x).op <;> rw [hop] at ha <;> cases ha
    rfl
  cases hop : (g.node n).op with
  | binary op lhs rhs =>
    rw [hop] at hv hk hf
    simp only [evaluate?] at hv
    split at hv
    · next a b ha hb' =>
      exact BinaryOp.eval?_fits hv (hk.1 ▸ hf (by simp [Operator.inputs]) ha)
    · cases hv
  | negate x =>
    rw [hop] at hv hk hf
    simp only [evaluate?] at hv
    split at hv
    · next a ha =>
      exact Value.negate?_fits hv ((show g.kindOf x = _ from hk) ▸ hf (by simp [Operator.inputs]) ha)
    · cases hv
  | convert k x =>
    rw [hop] at hv hk
    simp only [evaluate?] at hv
    split at hv
    · next a ha =>
      rw [show (g.node n).kind = k.result from hk.2]
      exact Conversion.eval?_fits hv
    · cases hv
  | _ =>
    rw [hop] at hv
    cases hv

theorem Turns.scoped (h : c.Turns g g') (hp : g.Proper) (hs : g.Scoped scope) (hf : c.Faithful g scope) :
    g'.Scoped (c.scope g g' scope) where
  entry y hy := by
    obtain ⟨_, x, hx, _⟩ := hy
    rcases hx with hx | hx | ⟨hx, _⟩
    · exact hs.entry x hx
    · rw [hs.entry_params] at hx
      cases hx
    · cases hx
  entry_params := by
    rw [h.params hp.entry_reachable, hs.entry_params, filter_nil]
  inputs {b _ n _} hb hb' y hy := by
    have hb := h.reachable hp hb
    rw [h.body hb] at hb'
    obtain ⟨before, after, hbo, rfl, hn⟩ := exists_split_of_filter hb'
    have hme : n ∈ (g.block b).body := hbo ▸ mem_append_right _ mem_cons_self
    obtain ⟨x, hx, hk, rfl⟩ := (h.node hb hme hn).mem_inputs hy
    exact h.known hf hb (fun m hm => hbo ▸ mem_append_left _ hm)
      (hs.inputs hb hbo x hx) hk
  cont hb y hy := by
    have hb := h.reachable hp hb
    obtain ⟨x, hx, hk, rfl⟩ := (h.cont hb).mem_inputs hy
    rw [h.body hb]
    exact h.known hf hb (fun _ hm => hm) (hs.cont hb x hx) hk
  edge hb hl' y hy := by
    have hb := h.reachable hp hb
    obtain ⟨before, e, rfl, hl, hpa, rfl⟩ := h.leaves hb hl'
    have hme := mem_edges.mpr ⟨before, hl⟩
    have hkn : ∀ x, x ∈ e.args ∨ scope e.target x → c.kept x = true →
        g'.Known (c.scope g g' scope) _ (before.filter c.kept) (c.rename x) := fun x hx hk =>
      h.known hf hb hl.subset_body (hs.edge hb hl x hx) hk
    rcases hy with hy | ⟨hpar, x, hx, hk, rfl⟩
    · obtain ⟨a, ha, rfl⟩ := mem_args hy
      exact hkn a (.inl ha) (hpa a ha)
    · rcases hx with hx | hx | ⟨hx, _⟩
      · exact hkn x (.inr hx) hk
      · -- A parameter outside the new parameters is gone, and has the name of its argument.
        obtain ⟨a, hqa⟩ := hp.exists_arg hb hme hx
        have hg : c.stays x = false := by
          refine Bool.eq_false_iff.mpr fun hst => hpar ?_
          have ht : e.target ∈ g.reachable := hp.target_reachable hb hme
          rw [hf.param ht hx hst]
          exact h.params ht ▸ mem_filter.mpr ⟨hx, hst⟩
        have ha := (of_mem_zip hqa).2
        rw [hf.gone hb hme hqa hg]
        exact hkn a (.inl ha) (hpa a ha)
      · cases hx

theorem Turns.edgesFit (h : c.Turns g g') (hp : g.Proper) (hk : g.EdgesFit g.reachable) :
    g'.EdgesFit g'.reachable := by
  intro b hb e' he'
  have hb := h.reachable hp hb
  obtain ⟨e, he, _, rfl⟩ := h.exists_edge hb he'
  refine map_eq_map_of_zip (h.arity hp hb he) fun pa hpa => ?_
  have hpa : pa ∈ (g'.block e.target).params.zip (c.edge g e).args := hpa
  rw [h.zip_edge hp hb he] at hpa
  obtain ⟨qa, hqa, rfl⟩ := mem_map.mp hpa
  rw [h.kindOf, h.kindOf, h.rename_kind hk]
  exact hk.kindOf_eq hb he (mem_filter.mp hqa).1

section
variable (h : c.Turns g g') (hw : g.WellFormed scope)
include h hw

theorem Turns.kinded : g'.Kinded where
  body hb hn := by
    have hb := h.reachable hw.proper hb
    obtain ⟨hn, hke⟩ := h.mem_body hb hn
    have hno := h.node hb hn hke
    have hki := hw.kinded.body hb hn
    obtain ⟨before, after, hbo⟩ := append_of_mem hn
    rw [h.signature]
    generalize g'.node _ = n' at hno
    cases hno with
    | same => exact hki.mapInputs fun x => by rw [h.kindOf, h.rename_kind hw.kinded.edge]
    | folded hv => exact evaluate?_fits hw hb hbo hv
  edge := h.edgesFit hw.proper hw.kinded.edge
  raise hb hc' := by
    have hb := h.reachable hw.proper hb
    have hc := h.cont hb
    rw [hc'] at hc
    obtain ⟨x, handler, hk, rfl, _⟩ := hc.of_raise
    rw [h.kindOf, h.rename_kind hw.kinded.edge]
    exact hw.kinded.raise hb hk

theorem Turns.wellFormed (hf : c.Faithful g scope) : g'.WellFormed (c.scope g g' scope) where
  proper := h.proper hw.proper
  placed := h.placed hw.proper hw.placed
  scopes := h.scoped hw.proper hw.scopes hf
  kinded := h.kinded hw

end

end

end Change
end Graph
end StackCompiler
