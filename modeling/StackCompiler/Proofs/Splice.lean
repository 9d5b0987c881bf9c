/-
Inlining, one call after the other (`Splice`): a call gives way to the nodes of
its method, what was read as its result is read under a new name, and a place
behind the call moves with it (`Shift`). The graph of a method reads a value only
in the block that computes it (`LocalUses`).
-/
import StackCompiler.Proofs.Expansion

namespace StackCompiler

open List

/-- The method that a static call names. -/
def Operator.staticCallee? : Operator → Option MethodKey
  | callStatic callee _ => some callee
  | _ => none

theorem Operator.staticCallee?_mapInputs (f : NodeId → NodeId) (op : Operator) :
    (op.mapInputs f).staticCallee? = op.staticCallee? := by
  cases op <;> rfl

theorem Operator.staticCallee?_of_isPure {op : Operator} (h : op.isPure = true) : op.staticCallee? = none := by
  cases op with
  | callStatic => cases h
  | _ => rfl

namespace Graph

/-! ## Uses inside a block -/

/-- Whatever is read was computed before in the same block, or is one of the `lost` nodes. -/
structure LocalUses (g : Graph) (blocks : List BlockId) (lost : NodeId → Prop) : Prop where
  reads : ∀ {b before x}, b ∈ blocks → g.Uses b before x →
    Visible g (g.block b).params before x ∨ lost x ∧ ∀ c ∈ blocks, ¬ g.Defines c x

variable {g : Graph} {n : NodeId} {blocks : List BlockId} {b : BlockId} {xs : List NodeId}

theorem InOrder.not_mem_params (h : g.InOrder blocks) {c} (hb : b ∈ blocks) (hn : n ∈ (g.block b).body)
    (hc : c ∈ blocks) : n ∉ (g.block c).params := by
  intro hq
  obtain ⟨i, hi⟩ := (h.params hc).exists_op hq
  exact h.op hb hn c i hi

/-! ## New names -/

namespace Expansion

variable {e : Expansion} {n x v : NodeId}

theorem rename_of_ne (e : Expansion) (h : x ≠ n) : e.rename n x = x := by
  cases hv : e.value with
  | none =>
    rw [rename, hv]
    rfl
  | some v =>
    rw [rename, hv]
    exact if_neg h

theorem rename_self (h : e.value = some v) : e.rename n n = v := by
  rw [rename, h]
  exact if_pos rfl

theorem rename_of_none (h : e.value = none) : e.rename n x = x := by
  rw [rename, h]
  rfl

end Expansion

/-! ## A call gives way -/

/-- In block `b` the call `n` of the method `m` gives way to the nodes of an expansion. -/
structure Splice (provider : MethodProvider) (limit : Nat) (g g' : Graph) (b : BlockId) (n : NodeId)
    (before after args : List NodeId) (m : Method) (e : Expansion) : Prop where
  refills : Refills g g' b (e.rename n)
  key : g'.key = g.key
  old : (g.block b).body = before ++ n :: after
  new : (g'.block b).body = before ++ e.body ++ after
  call : ∃ callee, (g.node n).op = .callStatic callee args ∧ callee ≠ g.key ∧ provider callee = some m ∧
    isInlinable m limit = true
  fresh : ∀ x ∈ e.body, g.nodes.size ≤ x ∧ x < g'.nodes.size
  apart : n ∉ args
  means : e.Means g' m args

/-- How a place in a block moves: not at all before the call, and with the new nodes behind it. -/
inductive Shift (n : NodeId) (before news : List NodeId) : List NodeId → List NodeId → Prop
  | same {xs : List NodeId} (h : n ∉ xs) : Shift n before news xs xs
  | moved (xs : List NodeId) : Shift n before news (before ++ n :: xs) (before ++ news ++ xs)

theorem Shift.mem {before news ys} (h : Shift n before news xs ys) {x} (hx : x ∈ xs) (hn : x ≠ n) : x ∈ ys := by
  cases h with
  | same => exact hx
  | moved xs =>
    simp only [mem_append, mem_cons] at hx ⊢
    rcases hx with hx | hx | hx
    · exact .inl (.inl hx)
    · exact absurd hx hn
    · exact .inr hx

theorem Shift.of_mem {before news ys} (h : Shift n before news xs ys) (hn : n ∈ xs) :
    ∀ x, x ∈ before ∨ x ∈ news → x ∈ ys := by
  cases h with
  | same h => exact absurd hn h
  | moved xs => exact fun x hx => mem_append_left _ (mem_append.mpr hx)

namespace Splice

variable {provider : MethodProvider} {limit : Nat} {g g' : Graph} {blocks : List BlockId} {b : BlockId}
  {n : NodeId} {before after args : List NodeId} {m : Method} {e : Expansion} {lost : NodeId → Prop}

theorem mem_body (h : Splice provider limit g g' b n before after args m e) : n ∈ (g.block b).body :=
  h.old ▸ mem_append_right _ mem_cons_self

theorem inputs (h : Splice provider limit g g' b n before after args m e) : (g.node n).op.inputs = args := by
  obtain ⟨callee, hop, _⟩ := h.call
  rw [hop, Operator.inputs]

variable {c : BlockId} {x : NodeId}

section
variable (h : Splice provider limit g g' b n before after args m e)
include h

theorem uses_arg (hx : x ∈ args) : g.Uses b before x :=
  .input h.old (h.inputs ▸ hx)

section
variable (hg : g.InOrder blocks)
include hg

theorem block_eq (hb : b ∈ blocks) (hc : c ∈ blocks) (hn : n ∈ (g.block c).body) : c = b :=
  hg.apart hc hb hn h.mem_body

theorem node_eq (hc : c ∈ blocks) (hx : x ∈ (g.block c).body) :
    g'.node x = (g.node x).mapNodes (e.rename n) :=
  h.refills.node (hg.body hc hx)

theorem hasValue_eq (hc : c ∈ blocks) (hx : x ∈ (g.block c).body) :
    (g'.node x).hasValue = (g.node x).hasValue := by
  rw [h.node_eq hg hc hx]
  exact Node.hasValue_mapInputs _ _ _

theorem defines (hc : c ∈ blocks) (hx : g'.Defines c x) (hlt : x < g.nodes.size) : g.Defines c x := by
  rcases hx with hx | hx
  · exact .inl (h.refills.params c ▸ hx)
  · rcases h.refills.mem_body hg hc hx with ⟨hx, _⟩ | ⟨_, hge, _⟩
    · exact .inr hx
    · exact absurd hlt (Nat.not_lt_of_le hge)

section
variable (hb : b ∈ blocks)
include hb

theorem gone : ∀ c ∈ blocks, ¬ g'.Defines c n := by
  intro c hc hd
  have hlt : n < g.nodes.size := hg.body hb h.mem_body
  rcases hd with hq | hn
  · rw [h.refills.params] at hq
    exact hg.not_mem_params hb h.mem_body hc hq
  · rcases h.refills.mem_body hg hc hn with ⟨ho, _⟩ | ⟨_, hge, _⟩
    · obtain rfl := h.block_eq hg hb hc ho
      have hno := hg.nodup hc
      rw [h.old] at hno
      rw [h.new] at hn
      simp only [nodup_append, nodup_cons, mem_cons] at hno
      simp only [mem_append] at hn
      rcases hn with (hn | hn) | hn
      · exact hno.2.2 n hn n (.inl rfl) rfl
      · exact absurd hlt (Nat.not_lt_of_le (h.fresh n hn).1)
      · exact hno.2.1.1 hn
    · exact absurd hlt (Nat.not_lt_of_le hge)

/-- A node of the spliced graph is in the body of the callee or was there before. -/
theorem split (hc : c ∈ blocks) {before' after' y} (hbo : (g'.block c).body = before' ++ y :: after') :
    (c = b ∧ ∃ pre post, e.body = pre ++ y :: post ∧ before' = before ++ pre) ∨
      ∃ before₀ after₀, (g.block c).body = before₀ ++ y :: after₀ ∧ Shift n before e.body before₀ before' := by
  by_cases hcb : c = b
  · subst hcb
    have hno := hg.nodup hc
    rw [h.old] at hno
    have hbe : n ∉ before := fun hn => (nodup_append.mp hno).2.2 n hn n mem_cons_self rfl
    rw [h.new] at hbo
    rcases append_eq_append_iff.mp hbo with ⟨as, rfl, ha⟩ | ⟨bs, hp, hbs⟩
    · exact .inr ⟨before ++ n :: as, after', by rw [h.old, ha]; simp, .moved as⟩
    · cases bs with
      | nil =>
        rw [append_nil] at hp
        subst hp
        have hm : Shift n before e.body (before ++ [n]) (before ++ e.body ++ []) := .moved []
        rw [append_nil] at hm
        exact .inr ⟨before ++ [n], after', by rw [h.old, ← nil_append after, ← hbs]; simp, hm⟩
      | cons z bs =>
        rw [cons_append] at hbs
        cases hbs
        rcases append_eq_append_iff.mp hp with ⟨pre, rfl, hne⟩ | ⟨cs, rfl, hcs⟩
        · exact .inl ⟨rfl, pre, bs, hne, rfl⟩
        · cases cs with
          | nil => exact .inl ⟨rfl, [], bs, hcs.symm, by simp⟩
          | cons z cs =>
            rw [cons_append] at hcs
            cases hcs
            exact .inr ⟨before', cs ++ n :: after, by rw [h.old]; simp,
              .same fun hn => hbe (mem_append_left _ hn)⟩
  · rw [h.refills.other hcb] at hbo
    refine .inr ⟨before', after', hbo, .same fun hn => hcb (h.block_eq hg hb hc ?_)⟩
    rw [hbo]
    exact mem_append_left _ hn

theorem shift_body (hc : c ∈ blocks) :
    Shift n before e.body (g.block c).body (g'.block c).body := by
  by_cases hcb : c = b
  · subst hcb
    rw [h.old, h.new]
    exact .moved after
  · rw [h.refills.other hcb]
    exact .same fun hn => hcb (h.block_eq hg hb hc hn)

/-- A use is one of a new node, or an old one under its new name. -/
theorem uses (hc : c ∈ blocks) {before'} (hx : g'.Uses c before' x) :
    (c = b ∧ ∃ pre post, e.body = pre ++ post ∧ before' = before ++ pre ∧ (x ∈ args ∨ x ∈ pre)) ∨
      ∃ before₀ y, g.Uses c before₀ y ∧ Shift n before e.body before₀ before' ∧ x = e.rename n y := by
  cases hx with
  | @input _ after' z _ hbo hm =>
    rcases h.split hg hb hc hbo with ⟨hcb, pre, post, hs, rfl⟩ | ⟨before₀, after₀, ho, hsh⟩
    · exact .inl ⟨hcb, pre, z :: post, hs, rfl, h.means.reads pre z post hs x hm⟩
    · have hz : z ∈ (g.block c).body := ho ▸ mem_append_right _ mem_cons_self
      rw [h.node_eq hg hc hz, Node.mapNodes, Operator.inputs_mapInputs] at hm
      obtain ⟨y, hy, rfl⟩ := mem_map.mp hm
      exact .inr ⟨before₀, y, .input ho hy, hsh, rfl⟩
  | cont hm =>
    rw [h.refills.cont, Continuation.inputs_mapNodes] at hm
    obtain ⟨y, hy, rfl⟩ := mem_map.mp hm
    exact .inr ⟨_, y, .cont hy, h.shift_body hg hb hc, rfl⟩
  | arg hl hm =>
    cases hl with
    | @catches _ _ z e' hbo hh =>
      rcases h.split hg hb hc hbo with ⟨_, pre, post, hs, _⟩ | ⟨before₀, after₀, ho, hsh⟩
      · have hz := h.fresh z (hs ▸ mem_append_right _ mem_cons_self)
        rw [(h.refills.fresh hz.1 hz.2).handler] at hh
        cases hh
      · have hz : z ∈ (g.block c).body := ho ▸ mem_append_right _ mem_cons_self
        rw [h.node_eq hg hc hz] at hh
        obtain ⟨e₀, he₀, rfl⟩ := Option.map_eq_some_iff.mp hh
        obtain ⟨y, hy, rfl⟩ := mem_map.mp hm
        exact .inr ⟨before₀, y, .arg (.catches ho he₀) hy, hsh, rfl⟩
    | cont he =>
      rw [h.refills.cont, Continuation.edges_mapNodes] at he
      obtain ⟨e₀, he₀, rfl⟩ := mem_map.mp he
      obtain ⟨y, hy, rfl⟩ := mem_map.mp hm
      exact .inr ⟨_, y, .arg (.cont he₀) hy, h.shift_body hg hb hc, rfl⟩

theorem arg_visible (hl : g.LocalUses blocks lost) (hx : x ∈ args) {ys} (hys : ∀ y ∈ before, y ∈ ys) :
    Visible g' (g'.block b).params ys x ∨ lost x ∧ ∀ d ∈ blocks, ¬ g'.Defines d x := by
  rcases hl.reads hb (h.uses_arg hx) with (hq | ⟨hm, hv⟩) | ⟨hlo, hgo⟩
  · exact .inl (.inl (h.refills.params b ▸ hq))
  · have hbo : x ∈ (g.block b).body := h.old ▸ mem_append_left _ hm
    exact .inl (.inr ⟨hys x hm, (h.hasValue_eq hg hb hbo).trans hv⟩)
  · have hlt : x < g.nodes.size := hg.inputs hb h.mem_body (h.inputs ▸ hx)
    exact .inr ⟨hlo, fun d hd hde => hgo d hd (h.defines hg hd hde hlt)⟩

/-- What can be read in a block still can, under its new name. -/
theorem visible (hl : g.LocalUses blocks lost) (hc : c ∈ blocks) {xs ys}
    (hs : Shift n before e.body xs ys) (hsu : ∀ x ∈ xs, x ∈ (g.block c).body) {y}
    (hy : Visible g (g.block c).params xs y) (hn : y = n → e.value = none → lost n) :
    Visible g' (g'.block c).params ys (e.rename n y) ∨
      lost (e.rename n y) ∧ ∀ d ∈ blocks, ¬ g'.Defines d (e.rename n y) := by
  rcases hy with hq | ⟨hy, hva⟩
  · have hyn : y ≠ n := by
      rintro rfl
      exact hg.not_mem_params hb h.mem_body hc hq
    rw [e.rename_of_ne hyn, h.refills.params]
    exact .inl (.inl hq)
  · by_cases hyn : y = n
    · subst hyn
      obtain rfl := h.block_eq hg hb hc (hsu y hy)
      have hm := hs.of_mem hy
      cases hv : e.value with
      | none =>
        rw [Expansion.rename_of_none hv]
        exact .inr ⟨hn rfl hv, h.gone hg hb⟩
      | some v =>
        rw [Expansion.rename_self hv]
        rcases h.means.value v hv with ha | hne
        · exact h.arg_visible hg hb hl ha fun z hz => hm z (.inl hz)
        · have hf := h.fresh v hne
          exact .inl (.inr ⟨hm v (.inr hne),
            Node.hasValue_of_isPure (h.refills.fresh hf.1 hf.2).pure⟩)
    · rw [e.rename_of_ne hyn]
      exact .inl (.inr ⟨hs.mem hy hyn, (h.hasValue_eq hg hc (hsu y hy)).trans hva⟩)

end

end

end

end Splice

theorem InOrder.uses_lt (h : g.InOrder blocks) (hb : b ∈ blocks) {x} (hx : g.Uses b xs x) :
    x < g.nodes.size := by
  cases hx with
  | input hbo hm => exact h.inputs hb (hbo ▸ mem_append_right _ mem_cons_self) hm
  | cont hm => exact h.cont hb hm
  | arg hl hm => exact h.args hb (mem_edges.mpr ⟨_, hl⟩) hm

/-- Some block reads the node. -/
def Used (g : Graph) (blocks : List BlockId) (x : NodeId) : Prop := ∃ c ∈ blocks, ∃ before, g.Uses c before x

namespace Splice

variable {provider : MethodProvider} {limit : Nat} {g g' : Graph} {blocks : List BlockId} {b : BlockId}
  {n : NodeId} {before after args : List NodeId} {m : Method} {e : Expansion} {lost : NodeId → Prop}

section
variable (h : Splice provider limit g g' b n before after args m e)
include h

/-- Only new nodes are used that were not used before. -/
theorem used (hg : g.InOrder blocks) (hb : b ∈ blocks) {x} (hx : g'.Used blocks x) (hn : x ∉ e.body) :
    g.Used blocks x := by
  obtain ⟨c, hc, before', hu⟩ := hx
  rcases h.uses hg hb hc hu with ⟨_, pre, post, hs, _, hx⟩ | ⟨before₀, y, ho, _, rfl⟩
  · rcases hx with hx | hx
    · exact ⟨b, hb, before, h.uses_arg hx⟩
    · exact absurd (hs ▸ mem_append_left _ hx) hn
  · by_cases hyn : y = n
    · subst hyn
      cases hv : e.value with
      | none =>
        rw [Expansion.rename_of_none hv]
        exact ⟨c, hc, before₀, ho⟩
      | some v =>
        rw [Expansion.rename_self hv] at hn ⊢
        exact ⟨b, hb, before, h.uses_arg ((h.means.value v hv).resolve_right hn)⟩
    · rw [e.rename_of_ne hyn]
      exact ⟨c, hc, before₀, ho⟩

theorem localUses (hg : g.InOrder blocks) (hb : b ∈ blocks) (hl : g.LocalUses blocks lost)
    (hn : e.value = none → g.Used blocks n → lost n) : g'.LocalUses blocks lost := by
  refine ⟨fun {c before' x} hc hu' => ?_⟩
  rcases h.uses hg hb hc hu' with ⟨rfl, pre, post, hs, rfl, hx⟩ | ⟨xs, y, hu, hsh, rfl⟩
  · rcases hx with hx | hx
    · exact h.arg_visible hg hb hl hx fun y hy => mem_append_left _ hy
    · have hf := h.fresh x (hs ▸ mem_append_left _ hx)
      exact .inl (.inr ⟨mem_append_right _ hx,
        Node.hasValue_of_isPure (h.refills.fresh hf.1 hf.2).pure⟩)
  · rcases hl.reads hc hu with hvi | ⟨hlo, hgo⟩
    · refine h.visible hg hb hl hc hsh hu.subset_body hvi fun hyn hv => ?_
      subst hyn
      exact hn hv ⟨c, hc, xs, hu⟩
    · have hyn : y ≠ n := by
        rintro rfl
        exact hgo b hb (.inr h.mem_body)
      rw [e.rename_of_ne hyn]
      exact .inr ⟨hlo, fun d hd hde => hgo d hd (h.defines hg hd hde (hg.uses_lt hc hu))⟩

theorem mem_new {c x} (hx : x ∈ (g.block c).body) (hxn : x ≠ n) :
    x ∈ (g'.block c).body := by
  by_cases hcb : c = b
  · subst hcb
    rw [h.old] at hx
    rw [h.new]
    simp only [mem_append, mem_cons] at hx ⊢
    rcases hx with hx | hx | hx
    · exact .inl (.inl hx)
    · exact absurd hx hxn
    · exact .inr hx
  · rwa [h.refills.other hcb]

end

end Splice

/-! ## Steps of the pass -/

theorem Expansion.Means.congr {g'} {e : Expansion} {m args} (h : e.Means g m args)
    (hn : ∀ y ∈ e.body, g'.node y = g.node y) : e.Means g' m args where
  reads before y after hs := by
    rw [hn y (hs ▸ mem_append_right _ mem_cons_self)]
    exact h.reads before y after hs
  value := h.value
  returns := h.returns
  runs w vals hv := by
    obtain ⟨r, k, hc, hno, hm⟩ := h.runs w vals hv
    refine ⟨r, k, hc, hno, fun env hr => ?_⟩
    rw [computeAll_congr hn]
    exact hm env hr

theorem Expansion.node_redirect_of_not_mem (e : Expansion) {y} (hh : (g.node y).handler = none)
    (hi : n ∉ (g.node y).op.inputs) :
    (e.redirect n g).node y = g.node y := by
  cases hv : e.value with
  | none => rw [Expansion.redirect, hv]
  | some v =>
    have hop : (g.node y).op.mapInputs (swap n v) = (g.node y).op :=
      Operator.mapInputs_eq_self fun x hx => if_neg fun hxn : x = n => hi (hxn ▸ hx)
    rw [Expansion.redirect, hv]
    rw [node_redirect, Node.mapNodes, hop, hh]
    rw [Option.map_none, ← hh]

theorem Expansion.redirect_key (e : Expansion) (n : NodeId) (g : Graph) : (e.redirect n g).key = g.key := by
  rw [Expansion.redirect]
  cases e.value <;> rfl

theorem Expansion.redirect_size (e : Expansion) (n : NodeId) (g : Graph) :
    (e.redirect n g).nodes.size = g.nodes.size := by
  cases hv : e.value with
  | none => rw [Expansion.redirect, hv]
  | some v =>
    rw [Expansion.redirect, hv]
    exact size_redirect g n v

section
variable {provider : MethodProvider} {limit : Nat} {blocks : List BlockId} {b : BlockId} {n : NodeId}
  {todo : List NodeId} {s : Inlining} {lost : NodeId → Prop}

theorem replaced_splice {callee args graph e} (hb : b ∈ blocks) (hg : (s.view b (n :: todo)).InOrder blocks)
    (hl : (s.view b (n :: todo)).LocalUses blocks lost)
    (hin : s.graph.inlinee? provider limit n = some (callee, args)) (ha : ∀ a ∈ args, a < s.graph.nodes.size)
    (hexp : s.graph.expand callee args (s.graph.node n).bci = (graph, some e)) :
    Splice provider limit (s.view b (n :: todo))
      ((e.redirect n graph).withBody b (s.body.toList ++ e.body ++ todo)) b n s.body.toList todo args callee e := by
  have he := expand_expanded callee (s.graph.node n).bci ha
  rw [hexp] at he
  have hf := he.fits e rfl
  obtain ⟨key, hop, hk, hp, hi⟩ := inlinee?_eq_some hin
  have hr := replaced_refills hb hg hop he.adds hf
  have hbo := view_body hb hg
  have hm : n ∈ ((s.view b (n :: todo)).block b).body :=
    hbo ▸ mem_append_right _ mem_cons_self
  have hnot : n ∉ args := by
    intro hn
    have hu : (s.view b (n :: todo)).Uses b s.body.toList n := by
      refine .input hbo ?_
      change n ∈ (s.graph.node n).op.inputs
      rw [hop]
      exact hn
    rcases hl.reads hb hu with (hq | ⟨hbe, _⟩) | ⟨_, hgo⟩
    · exact hg.not_mem_params hb hm hb hq
    · have hno := hg.nodup hb
      rw [hbo] at hno
      exact (nodup_append.mp hno).2.2 n hbe n mem_cons_self rfl
    · exact hgo b hb (.inr hm)
  have hlt : n < s.graph.nodes.size := hg.body hb hm
  have hnod : ∀ y ∈ e.body, (e.redirect n graph).node y = graph.node y := by
    intro y hy
    have hfr := hf.body y hy
    refine e.node_redirect_of_not_mem (he.adds.fresh hfr.1 hfr.2).handler fun hn => ?_
    obtain ⟨before, after, hs⟩ := append_of_mem hy
    rcases (expand_means ha hexp).reads before y after hs n hn with hn | hn
    · exact hnot hn
    · exact absurd hlt (Nat.not_lt_of_le (hf.body n (hs ▸ mem_append_left _ hn)).1)
  refine
    { refills := hr
      key := (e.redirect_key n graph).trans he.adds.graph.key
      old := hbo
      new := ?_
      call := ⟨key, hop, hk, hp, hi⟩
      fresh := fun x hx => ?_
      apart := hnot
      means := (expand_means ha hexp).congr hnod }
  · have hbl : b < (e.redirect n graph).blocks.size := by
      have hsi := hr.blocks
      rw [withBody, setBlock_size] at hsi
      exact hsi ▸ hg.lt hb
    rw [block_withBody hbl, if_pos rfl]
  · refine ⟨(hf.body x hx).1, ?_⟩
    change x < (e.redirect n graph).nodes.size
    rw [e.redirect_size]
    exact (hf.body x hx).2

end

end Graph
end StackCompiler
