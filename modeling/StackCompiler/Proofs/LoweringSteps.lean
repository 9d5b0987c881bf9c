/-
What the steps of lowering make. What a step returns is described in a later
state `S`, in which all names and literals of earlier states are still there
(`Makes`). The moves of an edge act as a parallel assignment
(`edge_moves_act_at_once`).
-/
import StackCompiler.Proofs.Layout

namespace StackCompiler.Linear

open List

/-! ## What the steps of lowering make -/

namespace Lower

open Lowering

theorem bind_run {α β} {x} {f : α → Lower β} {s s''} {b} :
    (x >>= f) s = (b, s'') ↔ ∃ a s', x s = (a, s') ∧ f a s' = (b, s'') := by
  constructor
  · intro h
    exact ⟨(x s).1, (x s).2, rfl, h⟩
  · rintro ⟨a, s', hx, hf⟩
    change f (x s).1 (x s).2 = _
    rw [hx]
    exact hf

variable {src : Source} {s s' S : Lowering} {size : Nat} {n : NodeId} {ids : List NodeId}
  {vs : List Var} {code : List Insn} {u : Unit}

/-- A step adds nothing but names and literals, and what it returns has `P` if `S` comes later. -/
def Makes {α : Type} (size : Nat) (S : Lowering) (x : Lower α) (P : α → Prop) : Prop :=
  ∀ s : Lowering, s.Named size → Adds size s (x s).2 ∧ ((x s).2.Grows S → P (x s).1)

namespace Makes

variable {α β : Type} {x : Lower α} {f : α → Lower β} {P P' : α → Prop} {Q : α → β → Prop}

theorem pure {a : α} : Makes size S (Pure.pure a) (· = a) := fun _ hs => ⟨.refl hs, fun _ => rfl⟩

section
variable (hx : Makes size S x P)
include hx

theorem bind (hf : ∀ a, Makes size S (f a) (Q a)) :
    Makes size S (x >>= f) fun b => ∃ a, P a ∧ Q a b := by
  intro s hs
  obtain ⟨ha, hP⟩ := hx s hs
  obtain ⟨ha', hQ⟩ := hf (x s).1 _ ha.named
  exact ⟨ha.trans ha', fun hS => ⟨_, hP (ha'.grows.trans hS), hQ hS⟩⟩

theorem map (g : α → β) : Makes size S (g <$> x) fun b => ∃ a, P a ∧ b = g a :=
  fun s hs => ⟨(hx s hs).1, fun hS => ⟨_, (hx s hs).2 hS, rfl⟩⟩

theorem imp (h : ∀ a, P a → P' a) : Makes size S x P' :=
  fun s hs => ⟨(hx s hs).1, fun hS => h _ ((hx s hs).2 hS)⟩

theorem spec (hs : s.Named size) {a} (h : x s = (a, s')) :
    Adds size s s' ∧ (s'.Grows S → P a) := by
  have hsp := hx s hs
  rwa [h] at hsp

end

end Makes

theorem makes_var (hn : n < size) : Makes size S (var src n) fun v => S.var? n = some v := by
  intro s hs
  unfold var
  split
  · next v hv => exact ⟨.refl hs, fun hS => hS.var hv⟩
  · next hno =>
    have hva : ∀ k, Lowering.var? { s with
          vars := s.vars.push (src.graph.kindOf n)
          varOf := s.varOf.setIfInBounds n (some s.vars.size) } k =
        if k = n then some s.vars.size else s.var? k := by
      intro k
      simp only [var?, Array.getElem?_setIfInBounds]
      by_cases hk : k = n
      · subst hk
        simp [hs.size, hn]
      · simp [hk, Ne.symm hk]
    have hf : ∀ {k}, s.var? k ≠ some s.vars.size := fun hk => Nat.lt_irrefl _ (hs.lt hk)
    refine ⟨⟨⟨by simp, fun {k v} hv => ?_, fun {k v} hv => ?_, id⟩, ⟨by simpa using hs.size, fun {k v} hv => ?_,
      fun {k k' v} hv hv' => ?_⟩, rfl, rfl, rfl, rfl⟩, fun hS => hS.var (by rw [hva, if_pos rfl])⟩
    · rw [hva, if_neg]
      · exact hv
      · rintro rfl
        exact Option.some_ne_none v (hv.symm.trans hno)
    · rw [hva] at hv
      split at hv
      · exact .inr (Nat.le_of_eq (Option.some.inj hv))
      · exact .inl hv
    · rw [hva] at hv
      rw [Array.size_push]
      split at hv
      · exact Option.some.inj hv ▸ Nat.lt_succ_self _
      · exact Nat.lt_succ_of_lt (hs.lt hv)
    · rw [hva] at hv hv'
      split at hv <;> split at hv'
      · next hk hk' => exact hk.trans hk'.symm
      · exact absurd (hv'.trans hv.symm) hf
      · exact absurd (hv.trans hv'.symm) hf
      · exact hs.inj hv hv'

theorem makes_varsOf (hi : ∀ n ∈ ids, n < size) :
    Makes size S (varsOf src ids) fun vs => ids.map S.var? = vs.map some := by
  unfold varsOf
  induction ids with
  | nil => exact Makes.pure.imp (by simp)
  | cons n ids ih =>
    rw [mapM_cons]
    have hn := forall_mem_cons.mp hi
    refine ((makes_var hn.1).bind fun _ => (ih hn.2).bind fun _ => .pure).imp ?_
    rintro _ ⟨v, hv, vs, hvs, rfl⟩
    rw [map_cons, hv, hvs, map_cons]

theorem makes_newVar (kind : Kind) : Makes size S (newVar kind) S.Temp := by
  intro s hs
  have hlt : s.vars.size < (s.vars.push kind).size := by simp
  refine ⟨⟨⟨Nat.le_of_lt hlt, id, .inl, id⟩, ⟨hs.size, fun hv => Nat.lt_trans (hs.lt hv) hlt, hs.inj⟩, rfl, rfl, rfl,
    rfl⟩, fun hS => hS.temp ⟨hlt, fun n hn => ?_⟩⟩
  exact Nat.lt_irrefl _ (hs.lt hn)

theorem makes_literal (v : Value) : Makes size S (literal v) fun id => S.literals[id]? = some (.ofValue v) := by
  intro s hs
  unfold literal Method.intern
  dsimp only
  split
  · next i hi =>
    rw [Array.idxOf?_eq_map_finIdxOf?_val] at hi
    obtain ⟨j, hj, rfl⟩ := Option.map_eq_some_iff.mp hi
    have heq : s.literals[j.val] = _ := (Array.finIdxOf?_eq_some_iff.mp hj).1
    exact ⟨.refl hs, fun hS => hS.literal (by simp [heq])⟩
  · refine ⟨⟨⟨Nat.le_refl _, id, .inl, fun hl => ?_⟩, hs.keep, rfl, rfl, rfl, rfl⟩, fun hS => hS.literal (by simp)⟩
    obtain ⟨hlt, heq⟩ := Array.getElem?_eq_some_iff.mp hl
    rw [Array.getElem?_push_lt hlt, heq]

theorem makes_constant (dst : Var) (v : Value) : Makes size S (constant dst v) (ConstantCode S dst v) := by
  unfold constant
  dsimp only
  split
  · exact Makes.pure.imp (by rintro _ rfl; exact .const)
  · refine ((makes_literal v).bind fun _ => .pure).imp ?_
    rintro _ ⟨id, hid, rfl⟩
    exact .literal hid

theorem makes_call {target args} (hn : n < size) : Makes size S (call src n target args) fun insn =>
    ∃ result, CallResult S src.graph n result ∧ insn = .call target args result false (src.graph.node n).bci := by
  unfold call
  dsimp only
  split
  · next hvo =>
    refine (Makes.pure.bind fun _ => .pure).imp ?_
    rintro _ ⟨_, rfl, rfl⟩
    exact ⟨none, .void hvo, rfl⟩
  · next hvo =>
    refine (((makes_var hn).map some).bind fun _ => .pure).imp ?_
    rintro _ ⟨_, ⟨v, hv, rfl⟩, rfl⟩
    exact ⟨some v, .value hvo hv, rfl⟩

theorem makes_routine {target} (hn : n < size) (hi : ∀ x ∈ ids, x < size)
    (hop : routine? (src.graph.node n).op = some (target, ids)) :
    Makes size S (do let args ← varsOf src ids; let insn ← call src n target args; pure [insn])
      (NodeCode S src.graph n) := by
  refine ((makes_varsOf hi).bind fun _ => (makes_call hn).bind fun _ => .pure).imp ?_
  rintro _ ⟨args, ha, _, ⟨result, hr, rfl⟩, rfl⟩
  exact .routine hop ha hr

theorem makes_node (hn : n < size) (hin : ∀ x ∈ (src.graph.node n).op.inputs, x < size) :
    Makes size S (node src n) (NodeCode S src.graph n) := by
  have hv : Makes size S (var src n) fun v => S.var? n = some v := makes_var hn
  unfold node
  dsimp only
  cases hop : (src.graph.node n).op with
  | constant v =>
    refine (hv.bind fun _ => (makes_constant _ v).bind fun _ => .pure).imp ?_
    rintro _ ⟨dst, hd, insn, hc, rfl⟩
    exact .constant hop hd hc
  | binary o lhs rhs =>
    rw [hop] at hin
    refine (hv.bind fun _ => (makes_var (hin lhs (by simp [Operator.inputs]))).bind fun _ =>
      (makes_var (hin rhs (by simp [Operator.inputs]))).bind fun _ => .pure).imp ?_
    rintro _ ⟨dst, hd, a, ha, b, hb, rfl⟩
    exact .binary hop hd ha hb
  | negate x =>
    rw [hop] at hin
    refine (hv.bind fun _ => (makes_var (hin x (by simp [Operator.inputs]))).bind fun _ => .pure).imp ?_
    rintro _ ⟨dst, hd, a, ha, rfl⟩
    exact .negate hop hd ha
  | convert c x =>
    rw [hop] at hin
    refine (hv.bind fun _ => (makes_var (hin x (by simp [Operator.inputs]))).bind fun _ => .pure).imp ?_
    rintro _ ⟨dst, hd, a, ha, rfl⟩
    exact .convert hop hd ha
  | parameter index =>
    refine (hv.bind fun _ => .pure).imp ?_
    rintro _ ⟨dst, hd, rfl⟩
    exact .parameter hop hd
  | blockParam b i => exact Makes.pure.imp (by rintro _ rfl; exact .blockParam hop)
  | safepoint => exact Makes.pure.imp (by rintro _ rfl; exact .safepoint hop)
  | caught =>
    refine (hv.bind fun _ => .pure).imp ?_
    rintro _ ⟨dst, hd, rfl⟩
    exact .caught hop hd
  | newArray element length =>
    rw [hop] at hin
    refine ((makes_newVar _).bind fun _ => (makes_var (hin length (by simp [Operator.inputs]))).bind fun _ =>
      (makes_call hn).bind fun _ => .pure).imp ?_
    rintro _ ⟨tag, ht, a, ha, _, ⟨result, hr, rfl⟩, rfl⟩
    exact .newArray hop ht ha hr
  | newInstance cls =>
    refine ((makes_newVar _).bind fun _ => (makes_constant _ _).bind fun _ =>
      (makes_call hn).bind fun _ => .pure).imp ?_
    rintro _ ⟨hub, hh, load, hl, _, ⟨result, hr, rfl⟩, rfl⟩
    exact .newInstance hop hh hl hr
  | arrayLength | arrayLoad | arrayStore | callStatic | callNative =>
    rw [hop] at hin
    exact makes_routine hn hin (by rw [hop]; rfl)
  | callIndirect address signature ids =>
    rw [hop] at hin
    refine ((makes_varsOf fun x hx => hin x (mem_cons_of_mem _ hx)).bind fun _ =>
      (makes_var (hin address mem_cons_self)).bind fun _ => (makes_call hn).bind fun _ => .pure).imp ?_
    rintro _ ⟨args, har, a, ha, _, ⟨result, hr, rfl⟩, rfl⟩
    exact .indirect hop har ha hr

theorem vars_lt (hs : s.Named size) (h : ids.map s.var? = vs.map some) : ∀ v ∈ vs, v < s.vars.size := by
  intro v hv
  have hm : some v ∈ ids.map s.var? := by
    rw [h]
    exact mem_map_of_mem hv
  obtain ⟨n, _, hn⟩ := mem_map.mp hm
  exact hs.lt hn

theorem addTemps_spec (hs : s.Named size) (h : addTemps vs s = (u, s')) :
    Adds size s s' ∧ ∀ v ∈ range' s.vars.size vs.length, s'.Temp v := by
  cases h
  have hsi : (s.vars ++ vs.map fun v => s.vars.getD v default).size = s.vars.size + vs.length := by
    rw [← Array.length_toList, Array.toList_appendList, length_append, length_map, Array.length_toList]
  have hle : s.vars.size ≤ (s.vars ++ vs.map fun v => s.vars.getD v default).size := by omega
  refine ⟨⟨⟨hle, id, .inl, id⟩, ⟨hs.size, fun hv => Nat.lt_of_lt_of_le (hs.lt hv) hle, hs.inj⟩, rfl, rfl, rfl, rfl⟩,
    fun v hv => ⟨Nat.lt_of_lt_of_eq (mem_range'_1.mp hv).2 hsi.symm, fun n hn => ?_⟩⟩
  exact Nat.not_lt_of_le (mem_range'_1.mp hv).1 (hs.lt hn)

/-- The nodes that an edge mentions are in range. -/
def EdgeOk (g : Graph) (e : Edge) : Prop :=
  (∀ q ∈ (g.block e.target).params, q < g.nodes.size) ∧ ∀ a ∈ e.args, a < g.nodes.size

/-- The moves of an edge: their temporary variables are numbered behind all that there are. -/
theorem edgeMoves_spec {e} (he : EdgeOk src.graph e) (hs : s.Named src.graph.nodes.size) :
    Adds src.graph.nodes.size s (edgeMoves src e s).2 ∧ ∃ dsts srcs fresh, s.vars.size ≤ fresh ∧
      ((edgeMoves src e s).2.Grows S → Passes S src.graph e dsts srcs fresh (edgeMoves src e s).1) := by
  obtain ⟨dsts, s₁, hd⟩ : ∃ dsts s₁, varsOf src (src.graph.block e.target).params s = (dsts, s₁) := ⟨_, _, rfl⟩
  obtain ⟨srcs, s₂, hsrc⟩ : ∃ srcs s₂, varsOf src e.args s₁ = (srcs, s₂) := ⟨_, _, rfl⟩
  obtain ⟨ha₁, hds⟩ := (makes_varsOf (S := s₂) he.1).spec hs hd
  obtain ⟨ha₂, hsr⟩ := (makes_varsOf (S := s₂) he.2).spec ha₁.named hsrc
  have hds := hds ha₂.grows
  have hsr := hsr (.refl _)
  have hdl := vars_lt ha₂.named hds
  have hsl := vars_lt ha₂.named hsr
  have ha := ha₁.trans ha₂
  generalize hr : edgeMoves src e s = r
  obtain ⟨insns, s'⟩ := r
  obtain ⟨_, _, hd', hr⟩ := bind_run.mp hr
  cases hd.symm.trans hd'
  obtain ⟨_, _, hs', hr⟩ := bind_run.mp hr
  cases hsrc.symm.trans hs'
  obtain ⟨_, _, hg, hr⟩ := bind_run.mp hr
  cases hg
  dsimp only at hr
  split at hr
  · next hi =>
    obtain ⟨_, s₅, ht, hr⟩ := bind_run.mp hr
    cases hr
    obtain ⟨ha₃, hte⟩ := addTemps_spec ha.named ht
    refine ⟨ha.trans ha₃, dsts, srcs, _, ha.grows.size, fun hS => ?_⟩
    have hS' := ha₃.grows.trans hS
    refine ⟨hS'.vars hds, hS'.vars hsr, hdl, hsl, fun v hv => hS.temp (hte v ?_), rfl⟩
    rwa [temps, if_pos hi, ← length_map (f := Prod.snd)] at hv
  · next hi =>
    cases hr
    refine ⟨ha, dsts, srcs, _, ha.grows.size, fun hS => ⟨hS.vars hds, hS.vars hsr, hdl, hsl, ?_, rfl⟩⟩
    simp [temps, hi]

theorem makes_edgeMoves {e} (he : EdgeOk src.graph e) :
    Makes src.graph.nodes.size S (edgeMoves src e) (EdgeCode S src.graph e) := by
  intro s hs
  obtain ⟨ha, dsts, srcs, fresh, -, hp⟩ := edgeMoves_spec (S := S) he hs
  exact ⟨ha, fun hS => ⟨dsts, srcs, fresh, hp hS⟩⟩

/-- **The moves of an edge are a parallel assignment.** Let the parameters of an edge's target be
distinct. From any state in which nodes have their own variables, the edge gives moves only, and
names that nodes had stay. The moves give the variable of each parameter what the variable of its
argument held before the first one, and change no other variable but new temporary ones. -/
theorem edge_moves_act_at_once {e} (hs : s.Named src.graph.nodes.size) (he : EdgeOk src.graph e)
    (hparams : (src.graph.block e.target).params.Nodup) (hrun : edgeMoves src e s = (code, s')) :
    s'.Named src.graph.nodes.size ∧ (∀ n v, s.var? n = some v → s'.var? n = some v) ∧
    (∀ i ∈ code, ∃ dst x, i = .move dst x) ∧ ∀ env : Store,
      (∀ q a, (q, a) ∈ (src.graph.block e.target).params.zip e.args → ∃ v u, s'.var? q = some v ∧
        s'.var? a = some u ∧ afterMoves env code v = env u) ∧
      ∀ x, afterMoves env code x ≠ env x → s.vars.size ≤ x ∧ s'.Temp x ∨
        ∃ q a, (q, a) ∈ (src.graph.block e.target).params.zip e.args ∧ s'.var? q = some x := by
  obtain ⟨ha, dsts, srcs, fresh, hf, hp⟩ := edgeMoves_spec (S := s') he hs
  rw [hrun] at ha hp
  have hp := hp (.refl s')
  refine ⟨ha.named, fun n v hv => ha.grows.var hv, EdgeCode.eq_move ⟨dsts, srcs, fresh, hp⟩, fun env =>
    ⟨fun q a hqa => hp.after ha.named hparams hqa env, fun x hx => ?_⟩⟩
  obtain ⟨insn, hi, hd⟩ := exists_def_of_afterMoves hx
  refine (hp.assigned hi hd).imp (And.imp_left (Nat.le_trans hf)) ?_
  rintro ⟨q, a, hqa, -, hq⟩
  exact ⟨q, a, hqa, hq⟩

/-- A graph whose entry has an edge to itself that permutes its three parameters. -/
def turning : Graph where
  key := ⟨"T", "m", "()V"⟩
  signature := ⟨[], .void⟩
  nodes := #[⟨.blockParam 0 0, .int, 0, none⟩, ⟨.blockParam 0 1, .int, 0, none⟩, ⟨.blockParam 0 2, .int, 0, none⟩]
  blocks := #[{ params := [0, 1, 2], cont := .jump ⟨0, [1, 2, 0]⟩, bci := 0 }]

/-- The moves of a cycle go through three temporary variables. -/
theorem edge_moves_act_at_once_cycle :
    let run := edgeMoves ⟨turning, #[0]⟩ ⟨0, [1, 2, 0]⟩ (.initial turning)
    run.1 = [.move 3 1, .move 4 2, .move 5 0, .move 0 3, .move 1 4, .move 2 5] ∧
      ∀ env : Store, ∃ v u, run.2.var? 2 = some v ∧ run.2.var? 0 = some u ∧ afterMoves env run.1 v = env u := by
  have h := @edge_moves_act_at_once ⟨turning, #[0]⟩ _ _ _ ⟨0, [1, 2, 0]⟩ (Lowering.named_initial turning)
    (by unfold EdgeOk; decide) (by decide) rfl
  exact ⟨by decide +kernel, fun env => (h.2.2.2 env).1 2 0 (by decide)⟩

end Lower

end StackCompiler.Linear
