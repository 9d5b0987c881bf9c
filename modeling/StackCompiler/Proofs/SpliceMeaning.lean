/-
Replacing one call keeps the meaning of a graph that carries it out. The two runs
go through the same blocks with the same values under new names (`Alike`). They
differ at a call with an input that has no value, which does not happen if no call
is used that is `mute`; `strict` tells which setting it is.
-/
import StackCompiler.Proofs.Unfolding

namespace StackCompiler

open List Store

theorem Store.setAll_of_mem {y} : ∀ {xs : List Nat} {vs : List (Option Value)}, y ∈ xs →
    xs.length = vs.length → ∃ v ∈ vs, ∀ s : Store, s.setAll xs vs y = v
  | [], _, hy, _ => by cases hy
  | _ :: _, [], _, hle => by cases hle
  | x :: xs, v :: vs, hy, hle => by
    by_cases hm : y ∈ xs
    · obtain ⟨u, hu, hs⟩ := setAll_of_mem hm (Nat.succ.inj hle)
      exact ⟨u, mem_cons_of_mem _ hu, fun s => hs (s.set x v)⟩
    · obtain rfl : y = x := (mem_cons.mp hy).resolve_right hm
      refine ⟨v, mem_cons_self, fun s => ?_⟩
      rw [setAll, setAll_of_not_mem _ _ _ hm, set_self]

namespace Graph

/-! ## Corresponding places -/

/-- The rest of a body in the two runs, behind the nodes `pre`. -/
inductive Rests (g : Graph) (b : BlockId) (n : NodeId) (before news after : List NodeId) (c : BlockId)
    (pre : List NodeId) : List NodeId → List NodeId → Prop
  | ahead {suf} (block : c = b) (split : before = pre ++ suf) :
      Rests g b n before news after c pre (suf ++ n :: after) (suf ++ (news ++ after))
  | past {rest} (body : (g.block c).body = pre ++ rest) (out : n ∉ rest) :
      Rests g b n before news after c pre rest rest

section
variable {provider : MethodProvider} {limit : Nat} {g g' : Graph} {blocks : List BlockId} {b : BlockId}
  {n : NodeId} {before after args : List NodeId} {m : Method} {e : Expansion} {mute : NodeId → Prop}
  {strict : Prop} {c : BlockId} {pre rest rest' : List NodeId} {y : NodeId}

section
variable (h : Splice provider limit g g' b n before after args m e) (hg : g.InOrder blocks) (hb : b ∈ blocks)
include h hg hb

theorem Splice.not_mem_before : n ∉ before := by
  have hno := hg.nodup hb
  rw [h.old] at hno
  exact fun hn => (nodup_append.mp hno).2.2 n hn n mem_cons_self rfl

theorem Splice.not_mem_after : n ∉ after := by
  have hn := hg.nodup hb
  rw [h.old] at hn
  exact (nodup_cons.mp (nodup_append.mp hn).2.1).1

end

namespace Rests

section
variable (h : Splice provider limit g g' b n before after args m e)
include h

theorem body (hr : Rests g b n before e.body after c pre rest rest') :
    (g.block c).body = pre ++ rest := by
  cases hr with
  | ahead hc hs => rw [hc, h.old, hs, append_assoc]
  | past hbo _ => exact hbo

theorem start (hg : g.InOrder blocks) (hb : b ∈ blocks) (hc : c ∈ blocks) :
    Rests g b n before e.body after c [] (g.block c).body (g'.block c).body := by
  by_cases hcb : c = b
  · subst hcb
    rw [h.old, h.new, append_assoc]
    exact .ahead rfl rfl
  · rw [h.refills.other hcb]
    exact .past rfl fun hn => hcb (h.block_eq hg hb hc hn)

theorem nil (hr : Rests g b n before e.body after c pre [] rest') :
    rest' = [] ∧ pre = (g.block c).body := by
  have hbo := body h hr
  rw [append_nil] at hbo
  have hn : ∀ {rest}, Rests g b n before e.body after c pre rest rest' → rest = [] → rest' = [] := by
    intro rest hr hre
    cases hr with
    | ahead => simp at hre
    | past => exact hre
  exact ⟨hn hr rfl, hbo.symm⟩

end

theorem cons (hr : Rests g b n before e.body after c pre (y :: rest) rest') (hy : y ≠ n) :
    ∃ rest₁, rest' = y :: rest₁ ∧ Rests g b n before e.body after c (pre ++ [y]) rest rest₁ := by
  generalize hre : y :: rest = rest₀ at hr
  cases hr with
  | @ahead suf hc hs =>
    cases suf with
    | nil => exact absurd (List.cons.inj hre).1 hy
    | cons z suf =>
      cases hre
      exact ⟨suf ++ (e.body ++ after), rfl, .ahead hc (by rw [hs]; simp)⟩
  | past hbo ho =>
    subst hre
    exact ⟨rest, rfl, .past (by rw [hbo]; simp) fun hn => ho (mem_cons_of_mem _ hn)⟩

theorem self (h : Splice provider limit g g' b n before after args m e) (hg : g.InOrder blocks)
    (hb : b ∈ blocks) (hr : Rests g b n before e.body after c pre (n :: rest) rest') :
    c = b ∧ pre = before ∧ rest = after ∧ rest' = e.body ++ after := by
  generalize hre : n :: rest = rest₀ at hr
  cases hr with
  | @ahead suf hc hs =>
    cases suf with
    | nil =>
      cases hre
      exact ⟨hc, by rw [hs, append_nil], rfl, rfl⟩
    | cons z suf =>
      cases hre
      exact absurd (hs ▸ mem_append_right _ mem_cons_self) (h.not_mem_before hg hb)
  | past _ ho => exact absurd (hre ▸ mem_cons_self) ho

end Rests

/-! ## Corresponding values -/

/-- What the two runs have in common behind the nodes `pre` of a block. -/
structure Alike (g g' : Graph) (blocks : List BlockId) (n : NodeId) (e : Expansion) (mute : NodeId → Prop)
    (strict : Prop) (pre : List NodeId) (s s' : State) : Prop where
  mem : s.block ∈ blocks
  block : s'.block = s.block
  caught : s'.caught = s.caught
  values : ∀ x, Visible g (g.block s.block).params pre x → s'.env (e.rename n x) = s.env x
  present : strict → ∀ x, Visible g (g.block s.block).params pre x → ¬ mute x → s.env x ≠ none
  kept : ∀ x, s.env x ≠ none → ∃ c ∈ blocks, g.Defines c x
  kept' : ∀ x, s'.env x ≠ none → ∃ c ∈ blocks, g'.Defines c x
  silent : ∀ x, mute x → s.env x = none ∧ s'.env x = none

/-- Nothing is used that does not get a value. -/
structure Fed (g : Graph) (blocks : List BlockId) (mute : NodeId → Prop) : Prop where
  uses : g.LocalUses blocks fun _ => False
  given : ∀ {x}, g.Used blocks x → ¬ mute x

theorem Fed.reads (h : g.Fed blocks mute) (hc : c ∈ blocks) {x} (hx : g.Uses c pre x) :
    Visible g (g.block c).params pre x ∧ ¬ mute x :=
  ⟨(h.uses.reads hc hx).resolve_right fun hlo => hlo.1, h.given ⟨c, hc, pre, hx⟩⟩

/-- Only static calls are mute. -/
def CallsOnly (g : Graph) (mute : NodeId → Prop) : Prop :=
  ∀ x, mute x → (g.node x).op.staticCallee?.isSome = true

namespace Alike

variable {s s' : State}

theorem skip (ha : Alike g g' blocks n e mute strict pre s s') (hv : (g.node y).hasValue = false) :
    Alike g g' blocks n e mute strict (pre ++ [y]) s s' := by
  have hvi : ∀ x, Visible g (g.block s.block).params (pre ++ [y]) x →
      Visible g (g.block s.block).params pre x := fun x hx =>
    hx.of_concat.resolve_left fun hxy => by rw [hv] at hxy; cases hxy.2
  exact ⟨ha.mem, ha.block, ha.caught, fun x hx => ha.values x (hvi x hx),
    fun hs x hx => ha.present hs x (hvi x hx), ha.kept, ha.kept', ha.silent⟩

section
variable (h : Splice provider limit g g' b n before after args m e) (hg : g.InOrder blocks) (hb : b ∈ blocks)
  (hl : g.LocalUses blocks fun _ => True)
include h hg hb hl

/-- A value that is read is the same in both runs. -/
theorem read (ha : Alike g g' blocks n e mute strict pre s s') {x} (hx : g.Uses s.block pre x) :
    s'.env (e.rename n x) = s.env x := by
  rcases hl.reads ha.mem hx with hv | ⟨_, hgo⟩
  · exact ha.values x hv
  · have hxn : x ≠ n := by
      rintro rfl
      exact hgo b hb (.inr h.mem_body)
    have hn : s.env x = none := Decidable.not_not.mp fun hs => by
      obtain ⟨d, hd, hde⟩ := ha.kept x hs
      exact hgo d hd hde
    have hn' : s'.env x = none := Decidable.not_not.mp fun hs => by
      obtain ⟨d, hd, hde⟩ := ha.kept' x hs
      exact hgo d hd (h.defines hg hd hde (hg.uses_lt ha.mem hx))
    rw [e.rename_of_ne hxn, hn, hn']

theorem reads (ha : Alike g g' blocks n e mute strict pre s s') {xs : List NodeId}
    (hxs : ∀ x ∈ xs, g.Uses s.block pre x) : (xs.map (e.rename n)).map s'.env = xs.map s.env := by
  rw [map_map]
  exact map_congr_left fun x hx => ha.read h hg hb hl (hxs x hx)

theorem rename_ne (hc : c ∈ blocks) (hbo : (g.block c).body = pre ++ y :: rest) {x}
    (hx : Visible g (g.block c).params pre x) : e.rename n x ≠ y := by
  have hy : y ∈ (g.block c).body := hbo ▸ mem_append_right _ mem_cons_self
  have hn := hg.nodup hc
  rw [hbo] at hn
  have hpr : ∀ z ∈ pre, z ≠ y := fun z hz => (nodup_append.mp hn).2.2 z hz y mem_cons_self
  have hp : ∀ z ∈ (g.block c).params, z ≠ y := fun z hz hzy =>
    hg.not_mem_params hc hy hc (hzy ▸ hz)
  by_cases hxn : x = n
  · subst hxn
    have hxp : x ∈ pre := by
      rcases hx with hx | ⟨hx, _⟩
      · exact absurd hx (hg.not_mem_params hb h.mem_body hc)
      · exact hx
    obtain rfl := h.block_eq hg hb hc (hbo ▸ mem_append_left _ hxp)
    cases hv : e.value with
    | none =>
      rw [Expansion.rename_of_none hv]
      exact hpr x hxp
    | some v =>
      rw [Expansion.rename_self hv]
      rcases h.means.value v hv with ha | hne
      · rcases hl.reads hc (h.uses_arg ha) with (hq | ⟨hbe, _⟩) | ⟨_, hgo⟩
        · exact hp v hq
        · -- What stands before the call stands before all that follows it.
          refine hpr v ?_
          rw [h.old] at hbo
          rcases append_eq_append_iff.mp hbo with ⟨as, rfl, _⟩ | ⟨bs, hs, hbs⟩
          · exact mem_append_left _ hbe
          · exact absurd (hs ▸ mem_append_left _ hxp) (h.not_mem_before hg hb)
        · exact fun hvy => hgo c hc (.inr (hvy ▸ hy))
      · exact fun hvy => Nat.not_lt_of_le (h.fresh v hne).1 (hvy ▸ hg.body hc hy)
  · rw [e.rename_of_ne hxn]
    rcases hx with hx | ⟨hx, _⟩
    · exact hp x hx
    · exact hpr x hx

theorem give (ha : Alike g g' blocks n e mute strict pre s s')
    (hbo : (g.block s.block).body = pre ++ y :: rest) (hyn : y ≠ n) (hm : ¬ mute y) (v : Value) :
    Alike g g' blocks n e mute strict (pre ++ [y]) (s.give y v) (s'.give y v) := by
  have hy : y ∈ (g.block s.block).body := hbo ▸ mem_append_right _ mem_cons_self
  refine ⟨ha.mem, ha.block, ha.caught, fun x hx => ?_, fun hs x hx hn => ?_, fun x hx => ?_, fun x hx => ?_,
    fun x hx => ?_⟩
  · by_cases hxy : x = y
    · rw [hxy, e.rename_of_ne hyn]
      simp [State.give]
    · have hv := hx.of_concat.resolve_left fun hx' => hxy hx'.1
      have hne := rename_ne h hg hb hl ha.mem hbo hv
      simp only [State.give, set_ne _ _ hxy, set_ne _ _ hne]
      exact ha.values x hv
  · by_cases hxy : x = y
    · simp [State.give, hxy]
    · simp only [State.give, set_ne _ _ hxy]
      exact ha.present hs x (hx.of_concat.resolve_left fun hx' => hxy hx'.1) hn
  · by_cases hxy : x = y
    · exact ⟨s.block, ha.mem, .inr (hxy ▸ hy)⟩
    · simp only [State.give, set_ne _ _ hxy] at hx
      exact ha.kept x hx
  · by_cases hxy : x = y
    · exact ⟨s.block, ha.mem, .inr (hxy ▸ h.mem_new hy hyn)⟩
    · simp only [State.give, set_ne _ _ hxy] at hx
      exact ha.kept' x hx
  · have hxy : x ≠ y := fun hxy => hm (hxy ▸ hx)
    simp only [State.give, set_ne _ _ hxy]
    exact ha.silent x hx

end
end Alike

/-! ## Steps outside of the call -/

/-- The relation between states of the two graphs. -/
def Spliced (g g' : Graph) (blocks : List BlockId) (b : BlockId) (n : NodeId) (before after : List NodeId)
    (e : Expansion) (mute : NodeId → Prop) (strict : Prop) (s s' : State) : Prop :=
  ∃ pre, Alike g g' blocks n e mute strict pre s s' ∧ Rests g b n before e.body after s.block pre s.rest s'.rest

section
variable {w : World} {past : List Event} {s s' : State} {env env' : Store} {caught : Option Value}
  (h : Splice provider limit g g' b n before after args m e) (hg : g.InOrder blocks) (hb : b ∈ blocks)
  (hl : g.LocalUses blocks fun _ => True) (hf : strict → g.Fed blocks mute) (hcal : g.CallsOnly mute)
include h hg hb hl hf hcal

theorem Alike.follow (ha : Alike g g' blocks n e mute strict pre s s') {ed} (hed : g.Leaves s.block pre ed) :
    Spliced g g' blocks b n before after e mute strict (g.follow ed s.env caught)
      (g'.follow (ed.mapArgs (e.rename n)) s'.env caught) := by
  have hm : ed ∈ g.edges s.block := mem_edges.mpr ⟨pre, hed⟩
  have ht := hg.target ha.mem hm
  have har : (ed.args.map (e.rename n)).map s'.env = ed.args.map s.env :=
    ha.reads h hg hb hl fun x hx => .arg hed hx
  have he : (g'.follow (ed.mapArgs (e.rename n)) s'.env caught).env =
      s'.env.setAll (g.block ed.target).params (ed.args.map s.env) := by
    change s'.env.setAll (g'.block ed.target).params ((ed.args.map (e.rename n)).map s'.env) = _
    rw [h.refills.params, har]
  have hle : (g.block ed.target).params.length = (ed.args.map s.env).length := by
    rw [length_map, hg.arity ha.mem hm]
  have hvi : ∀ x, Visible g (g.block ed.target).params [] x → x ∈ (g.block ed.target).params := fun x hx =>
    hx.elim id fun hx => by cases hx.1
  refine ⟨[], ⟨ht, rfl, rfl, fun x hx => ?_, fun hs x hx hn => ?_, fun x hx => ?_, fun x hx => ?_,
    fun x hx => ?_⟩, Rests.start h hg hb ht⟩
  · have hq := hvi x hx
    have hxn : x ≠ n := fun hxn => hg.not_mem_params hb h.mem_body ht (hxn ▸ hq)
    obtain ⟨v, _, hse⟩ := setAll_of_mem hq hle
    rw [he, e.rename_of_ne hxn, hse]
    exact (hse s.env).symm
  · obtain ⟨v, hv, hse⟩ := setAll_of_mem (hvi x hx) hle
    obtain ⟨a, harg, rfl⟩ := mem_map.mp hv
    obtain ⟨hvis, hn⟩ := (hf hs).reads ha.mem (.arg hed harg)
    change s.env.setAll _ _ x ≠ none
    rw [hse]
    exact ha.present hs a hvis hn
  · by_cases hq : x ∈ (g.block ed.target).params
    · exact ⟨ed.target, ht, .inl hq⟩
    · refine ha.kept x ?_
      change s.env.setAll _ _ x ≠ none at hx
      rwa [setAll_of_not_mem _ _ _ hq] at hx
  · by_cases hq : x ∈ (g.block ed.target).params
    · exact ⟨ed.target, ht, .inl (h.refills.params _ ▸ hq)⟩
    · refine ha.kept' x ?_
      rwa [he, setAll_of_not_mem _ _ _ hq] at hx
  · have hq : x ∉ (g.block ed.target).params := fun hq => by
      obtain ⟨i, hi⟩ := (hg.params ht).exists_op hq
      have hc := hcal x hx
      rw [hi] at hc
      cases hc
    rw [he, setAll_of_not_mem _ _ _ hq]
    exact ⟨(setAll_of_not_mem _ _ _ hq).trans (ha.silent x hx).1, (ha.silent x hx).2⟩

/-- Both runs evaluate a node that is not the replaced call. -/
theorem Alike.stepNode (ha : Alike g g' blocks n e mute strict pre ⟨c, rest, env, caught⟩ ⟨c, rest', env', caught⟩)
    (hbo : (g.block c).body = pre ++ y :: rest) (hyn : y ≠ n) (hm : ¬ mute y)
    (hr : Rests g b n before e.body after c (pre ++ [y]) rest rest') :
    Machine.StepsAlike (Spliced g g' blocks b n before after e mute strict)
      (g.stepNode w past ⟨c, rest, env, caught⟩ y) (g'.stepNode w past ⟨c, rest', env', caught⟩ y) := by
  have hy : y ∈ (g.block c).body := hbo ▸ mem_append_right _ mem_cons_self
  exact stepNode_alike (h.node_eq hg ha.mem hy) rfl (fun x hx => ha.read h hg hb hl (.input hbo hx))
    (fun d i hop => absurd hop (hg.op ha.mem hy d i)) (fun hv => ⟨pre ++ [y], ha.skip hv, hr⟩)
    (fun v _ => ⟨pre ++ [y], ha.give h hg hb hl hbo hyn hm v, hr⟩)
    fun ed hed _ _ _ => ha.follow h hg hb hl hf hcal (.catches hbo hed)

theorem Alike.stepCont (ha : Alike g g' blocks n e mute strict (g.block s.block).body s s') :
    Machine.StepsAlike (Spliced g g' blocks b n before after e mute strict) (g.stepCont w s (g.block s.block).cont)
      (g'.stepCont w s' (g'.block s'.block).cont) := by
  rw [ha.block, h.refills.cont, Continuation.mapNodes_eq]
  exact stepCont_alike (fun x hx => ha.read h hg hb hl (.cont hx)) fun ed hed _ _ =>
    ha.follow h hg hb hl hf hcal (.cont hed)

end
end

end Graph
end StackCompiler
