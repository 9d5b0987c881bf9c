/-
Parameters with one value. The value is known on the shortest way to the block,
so it is computed in an earlier block, and the parameter is not known there: as
long as the parameter is known, nothing computes the value again.
-/
import StackCompiler.Proofs.ParamRemoval

namespace StackCompiler

open List

/-! ## Lists without one element -/

section
variable {α β : Type} [DecidableEq α]

theorem filter_ne_eq_eraseIdx {ps : List α} {i} {p} (hn : ps.Nodup) (hp : ps[i]? = some p) :
    ps.filter (fun q => decide (q ≠ p)) = ps.eraseIdx i := by
  obtain ⟨hi, rfl⟩ := List.getElem?_eq_some_iff.mp hp
  rw [← erase_eq_eraseIdx_of_idxOf (hn.idxOf_getElem i hi), hn.erase_eq_filter]
  exact filter_congr fun q _ => by rw [Bool.eq_iff_iff, decide_eq_true_iff, bne_iff_ne]

theorem filter_zip_of_not_mem {ps : List α} {as : List β} {p} (h : p ∉ ps) :
    (ps.zip as).filter (fun qa => decide (qa.1 ≠ p)) = ps.zip as :=
  filter_eq_self.mpr fun _ hqa => decide_eq_true fun heq => h (heq ▸ (of_mem_zip hqa).1)

theorem map_snd_filter_ne : ∀ {ps : List α} {as : List β} {i : Nat} {p : α}, ps.Nodup → ps[i]? = some p →
    as.length = ps.length → ((ps.zip as).filter (fun qa => decide (qa.1 ≠ p))).map Prod.snd = as.eraseIdx i
  | q :: ps, a :: as, 0, p, hn, hp, hl => by
    obtain rfl : q = p := Option.some.inj hp
    obtain ⟨hq, _⟩ := nodup_cons.mp hn
    rw [zip_cons_cons, filter_cons_of_neg (by simp), eraseIdx_cons_zero,
      filter_zip_of_not_mem hq]
    exact map_snd_zip (Nat.le_of_eq (Nat.succ.inj hl))
  | q :: ps, a :: as, i + 1, p, hn, hp, hl => by
    obtain ⟨hq, hn⟩ := nodup_cons.mp hn
    have hp : ps[i]? = some p := hp
    have hne : q ≠ p := fun h => hq (h ▸ mem_of_getElem? hp)
    rw [zip_cons_cons, filter_cons_of_pos (by simp [hne]), map_cons,
      eraseIdx_cons_succ, map_snd_filter_ne hn hp (Nat.succ.inj hl)]

end

namespace Graph

variable {g g' : Graph} {b : BlockId} {index : Nat} {p v : NodeId}

/-! ## Reachable blocks -/

theorem dropArg_target (b : BlockId) (index : Nat) (e : Edge) : (dropArg b index e).target = e.target := by
  rw [dropArg]
  split <;> rfl

theorem withoutParam_handler (g : Graph) (b : BlockId) (index : Nat) (p v m : NodeId) :
    (g.withoutParam b index p v m).handler.map (·.target) = (g.node m).handler.map (·.target) := by
  rw [withoutParam]
  split <;> simp [Node.mapNodes, Node.mapHandler, Edge.mapArgs, Function.comp_def, dropArg_target]

theorem targets_mapEdges {f} (hf : ∀ e, (f e).target = e.target) (k : Continuation) :
    (k.mapEdges f).edges.map (·.target) = k.edges.map (·.target) := by
  cases k with
  | raise _ handler => cases handler <;> simp [Continuation.mapEdges, Continuation.edges, hf]
  | _ => simp [Continuation.mapEdges, Continuation.edges, hf]

theorem targets_mapNodes (f : NodeId → NodeId) (k : Continuation) :
    (k.mapNodes f).edges.map (·.target) = k.edges.map (·.target) := by
  cases k with
  | raise _ handler => cases handler <;> rfl
  | _ => rfl

namespace Removed

theorem handler (h : Removed g g' b index p v) (m : NodeId) :
    (g'.node m).handler.map (·.target) = (g.node m).handler.map (·.target) := by
  rw [← withoutParam_handler g b index p v m]
  by_cases hm : m ∈ (g.block b).params.eraseIdx index
  · obtain ⟨i, hi⟩ := getElem?_of_mem hm
    rw [h.param i m hi]
  · rw [h.node m hm]

theorem successors (h : Removed g g' b index p v) (c : BlockId) : g'.successors c = g.successors c := by
  have hbo : (g'.block c).body = (g.block c).body := by rw [h.block]
  have hc : (g'.block c).cont.edges.map (·.target) = (g.block c).cont.edges.map (·.target) := by
    rw [h.block, targets_mapNodes]
    split
    · exact targets_mapEdges (dropArg_target b index) _
    · rfl
  simp only [Graph.successors, edges, map_append, map_filterMap, hbo, hc, h.handler]

/-- The same blocks can be reached, in the same order. -/
theorem reachable (h : Removed g g' b index p v) : g'.reachable = g.reachable := by
  rw [Graph.reachable, Graph.reachable, h.blocks, funext h.successors]

end Removed

/-! ## The change -/

/-- A value is read in place of a parameter that goes. -/
def Change.drop (p v : NodeId) : Change := ⟨fun _ => true, fun q => decide (q ≠ p), swap p v⟩

section
variable (hp : g.Proper) (hb : b ∈ g.reachable) (hq : (g.block b).params[index]? = some p)
include hp hb hq

variable {c : BlockId}

theorem Change.edge_drop (hc : c ∈ g.reachable) {e} (he : e ∈ g.edges c) :
    (Change.drop p v).edge g e = (dropArg b index e).mapArgs (swap p v) := by
  have ha := hp.arity hc he
  have ht := hp.target_reachable hc he
  have har : (((g.block e.target).params.zip e.args).filter fun qa => decide (qa.1 ≠ p)).map Prod.snd =
      (dropArg b index e).args := by
    rw [dropArg]
    split
    · next heq =>
      rw [heq] at ha ht ⊢
      exact map_snd_filter_ne (hp.params_nodup ht) hq ha
    · next hne =>
      have hn : p ∉ (g.block e.target).params := fun hin =>
        hne (hp.param_block ht hb hin (mem_of_getElem? hq))
      rw [filter_zip_of_not_mem hn]
      exact map_snd_zip (Nat.le_of_eq ha)
  rw [Edge.mapArgs, ← har, map_map, dropArg_target]
  rfl

theorem Change.node_drop (hc : c ∈ g.reachable) {n} (hn : n ∈ (g.block c).body) :
    g.withoutParam b index p v n = (Change.drop p v).node g (g.node n) := by
  have hha : ((g.node n).handler.map (dropArg b index)).map (·.mapArgs (swap p v)) =
      (g.node n).handler.map ((Change.drop p v).edge g) := by
    cases hh : (g.node n).handler with
    | none => rfl
    | some e =>
      obtain ⟨before, after, hbo⟩ := append_of_mem hn
      have he : e ∈ g.edges c := mem_edges.mpr ⟨before, .catches hbo hh⟩
      rw [Option.map_some, Option.map_some, Option.map_some, Change.edge_drop hp hb hq hc he]
  rw [withoutParam, if_pos ⟨c, hc, hn⟩, Node.mapNodes, Node.mapHandler, hha]
  rfl

theorem Change.cont_drop (hc : c ∈ g.reachable) :
    ((g.block c).cont.mapEdges (dropArg b index)).mapNodes (swap p v) =
      (Change.drop p v).cont g (g.block c).cont := by
  have hed : ∀ e ∈ (g.block c).cont.edges,
      (Change.drop p v).edge g e = (dropArg b index e).mapArgs (swap p v) := fun e he =>
    Change.edge_drop hp hb hq hc (mem_edges.mpr ⟨_, .cont he⟩)
  rw [Change.cont, Continuation.mapWith_congr hed]
  cases (g.block c).cont with
  | raise x handler => cases handler <;> rfl
  | _ => rfl

theorem Removed.turns (h : Removed g g' b index p v) (hpl : g.Placed) (hv : v < g.nodes.size)
    (hk : g.EdgesFit g.reachable → g.kindOf v = g.kindOf p) : (Change.drop p v).Turns g g' := by
  have hpa : ∀ {c q}, c ∈ g.reachable → q ∈ (g.block c).params → q ∈ (g.block b).params → c = b :=
    fun hc hqc hqb => hp.param_block hc hb hqc hqb
  have hno : ∀ {c n}, c ∈ g.reachable → n ∈ (g.block c).body → n ∉ (g.block b).params.eraseIdx index := by
    intro c n hc hn hin
    obtain ⟨i, hi⟩ := hp.param_op hb (mem_of_mem_eraseIdx hin)
    exact hpl.op hc hn b i hi
  exact {
    head := h.head
    nodes := h.nodes
    blocks := h.blocks
    kindOf := fun m => by
      have hk : (g.withoutParam b index p v m).kind = (g.node m).kind := by
        rw [withoutParam]
        split <;> rfl
      rw [kindOf, kindOf, ← hk]
      by_cases hm : m ∈ (g.block b).params.eraseIdx index
      · obtain ⟨i, hi⟩ := getElem?_of_mem hm
        rw [h.param i m hi]
      · rw [h.node m hm]
    rename_kind := fun hf x => by
      simp only [Change.drop, swap]
      split
      · next hx => rw [hx, hk hf]
      · rfl
    isHandler := fun c => by rw [h.block]
    rename_lt := fun {x} hx => by
      simp only [Change.drop, swap]
      split
      · exact hv
      · exact hx
    params := fun {c} hc => by
      rw [h.block]
      simp only [Change.drop]
      split
      · next heq =>
        subst heq
        exact (filter_ne_eq_eraseIdx (hp.params_nodup hc) hq).symm
      · next hne =>
        refine (filter_eq_self.mpr fun q hqc => ?_).symm
        have hqp : q ≠ p := fun heq => hne (hpa hc (heq ▸ hqc) (mem_of_getElem? hq))
        exact decide_eq_true hqp
    index := fun {c i q} hc hi => by
      rw [h.block] at hi
      simp only at hi
      split at hi
      · next heq =>
        subst heq
        rw [h.param i q hi]
      · next hne =>
        have ho : q ∉ (g.block b).params.eraseIdx index := fun hin =>
          hne (hpa hc (mem_of_getElem? hi) (mem_of_mem_eraseIdx hin))
        have hop : (g.withoutParam b index p v q).op = (g.node q).op.mapInputs (swap p v) := by
          rw [withoutParam]
          split <;> rfl
        rw [h.node q ho, hop, (hp.params hc).op hi]
        rfl
    body := fun {c} _ => by
      rw [h.block]
      exact (filter_eq_self.mpr fun _ _ => rfl).symm
    node := fun hc hn _ => by
      rw [h.node _ (hno hc hn), Change.node_drop hp hb hq hc hn]
      exact .same (fun _ _ => rfl) fun _ _ _ _ => rfl
    pure := fun _ _ hke => nomatch hke
    cont := fun {c} hc => by
      have hco : (g'.block c).cont = (Change.drop p v).cont g (g.block c).cont := by
        rw [h.block, if_pos hc]
        exact Change.cont_drop hp hb hq hc
      rw [hco]
      exact .same (fun _ _ => rfl) fun _ _ _ _ => rfl }

end

/-! ## Trivial parameters -/

/-- Every edge passes the value or the parameter itself, and one passes the value. -/
structure Trivial (g : Graph) (b : BlockId) (index : Nat) (p v : NodeId) : Prop where
  param : (g.block b).params[index]? = some p
  ne : v ≠ p
  arg : ∀ {c e a}, c ∈ g.reachable → e ∈ g.edges c → (p, a) ∈ (g.block e.target).params.zip e.args →
    a = p ∨ a = v
  passed : ∃ c ∈ g.reachable, ∃ e ∈ g.edges c, (p, v) ∈ (g.block e.target).params.zip e.args

theorem soleValue?_eq_some {args} (h : soleValue? p args = some v) :
    v ∈ args ∧ v ≠ p ∧ ∀ a ∈ args, a = p ∨ a = v := by
  rw [soleValue?] at h
  split at h
  · cases h
  · next u rest hf =>
    split at h
    · next hal =>
      obtain rfl : u = v := Option.some.inj h
      have hu : u ∈ args.filter (· ≠ p) := hf ▸ mem_cons_self
      obtain ⟨hm, hne⟩ := mem_filter.mp hu
      refine ⟨hm, of_decide_eq_true hne, fun a ha => ?_⟩
      by_cases hap : a = p
      · exact .inl hap
      · have ha : a ∈ args.filter (· ≠ p) := mem_filter.mpr ⟨ha, by simp [hap]⟩
        rw [hf] at ha
        rcases mem_cons.mp ha with ha | ha
        · exact .inr ha
        · exact .inr (of_decide_eq_true (all_eq_true.mp hal a ha))
    · cases h

theorem mem_zip_params (hp : g.Proper) (hb : b ∈ g.reachable) (hq : (g.block b).params[index]? = some p) {c}
    (hc : c ∈ g.reachable) {e} (he : e ∈ g.edges c) {a} :
    (p, a) ∈ (g.block e.target).params.zip e.args ↔ e.target = b ∧ e.args.getD index 0 = a := by
  obtain ⟨hi, hg⟩ := List.getElem?_eq_some_iff.mp hq
  have har := hp.arity hc he
  constructor
  · intro hm
    have ht : e.target = b :=
      hp.param_block (hp.target_reachable hc he) hb (of_mem_zip hm).1 (mem_of_getElem? hq)
    refine ⟨ht, ?_⟩
    rw [ht] at hm har
    obtain ⟨j, hj, hja⟩ := getElem_of_mem hm
    rw [getElem_zip, Prod.mk.injEq] at hja
    have hji : j = index := (getElem_inj (hp.params_nodup hb)).mp (hja.1.trans hg.symm)
    subst hji
    rw [getD_eq_getElem?_getD, getElem?_eq_getElem (har ▸ hi), Option.getD_some]
    exact hja.2
  · rintro ⟨rfl, ha⟩
    have hi' : index < e.args.length := har ▸ hi
    rw [getD_eq_getElem?_getD, getElem?_eq_getElem hi', Option.getD_some] at ha
    refine mem_iff_getElem.mpr ⟨index, ?_, ?_⟩
    · rw [length_zip]
      omega
    · rw [getElem_zip, hg, ha]

theorem trivial_of_trivialValue? (hp : g.Proper) (hb : b ∈ g.reachable)
    (hi : index < (g.block b).params.length) (h : g.trivialValue? g.reachable b index = some v) :
    Trivial g b index ((g.block b).params.getD index 0) v := by
  have hq : (g.block b).params[index]? = some ((g.block b).params.getD index 0) := by
    rw [getD_eq_getElem?_getD, getElem?_eq_getElem hi, Option.getD_some]
  obtain ⟨hm, hne, hal⟩ := soleValue?_eq_some h
  refine ⟨hq, hne, fun hc he ha => ?_, ?_⟩
  · obtain ⟨ht, rfl⟩ := (mem_zip_params hp hb hq hc he).mp ha
    refine hal _ (mem_map.mpr ⟨_, mem_filter.mpr ⟨?_, decide_eq_true ht⟩, rfl⟩)
    exact mem_flatMap.mpr ⟨_, hc, he⟩
  · obtain ⟨e, he, hv⟩ := mem_map.mp hm
    obtain ⟨he, ht⟩ := mem_filter.mp he
    obtain ⟨c, hc, he⟩ := mem_flatMap.mp he
    exact ⟨c, hc, e, he, (mem_zip_params hp hb hq hc he).mpr ⟨of_decide_eq_true ht, hv⟩⟩

theorem Way.exists_shortest (h : b ∈ g.reachable) : ∃ n, g.Way n b ∧ ∀ k, k < n → ¬ g.Way k b := by
  obtain ⟨n, hn⟩ := Way.of_reachable h
  induction n using Nat.strongRecOn with
  | ind n ih =>
    by_cases hk : ∃ k, k < n ∧ g.Way k b
    · obtain ⟨k, hlt, hw⟩ := hk
      exact ih k hlt hw
    · exact ⟨n, hn, fun k hlt hw => hk ⟨k, hlt, hw⟩⟩

namespace Trivial

variable {scope : BlockId → NodeId → Prop}

section
variable (h : Trivial g b index p v) (hp : g.Proper) (hpl : g.Placed) (hs : g.Scoped scope)
  (hb : b ∈ g.reachable) (hen : b ≠ entry)
include h hp hpl hs hb hen

theorem exists_defines : ∃ k d, g.Way k d ∧ g.Defines d v ∧ ∀ j, j ≤ k → ¬ g.Way j b := by
  obtain ⟨n, hw, hle⟩ := Way.exists_shortest hb
  have hpb : p ∈ (g.block b).params := mem_of_getElem? h.param
  cases hw with
  | entry => exact absurd rfl hen
  | @step n c _ hw hc =>
    have hcr := hw.reachable hp
    obtain ⟨e, he, rfl⟩ := mem_map.mp hc
    obtain ⟨a, hpa⟩ := hp.exists_arg hcr he hpb
    obtain ⟨before, hl⟩ := mem_edges.mp he
    have hkn := hs.edge hcr hl a (.inl (of_mem_zip hpa).2)
    obtain ⟨k, d, hk, hd, hde⟩ := hs.defined_by hp hw hl.subset_body hkn
    rcases h.arg hcr he hpa with rfl | rfl
    · -- The parameter is not known on the shortest way to its own block.
      have hdb := hpl.defines_unique hp (hd.reachable hp) hb hde (.inl hpb)
      exact absurd (hdb ▸ hd) (hle k (Nat.lt_succ_of_le hk))
    · exact ⟨k, d, hd, hde, fun j hj => hle j (Nat.lt_succ_of_le (Nat.le_trans hj hk))⟩

theorem not_defines {c} (hc : c ∈ g.reachable) {before} (hbe : ∀ n ∈ before, n ∈ (g.block c).body)
    (hk : g.Known scope c before p) :
    ¬ g.Defines c v := by
  intro hde
  obtain ⟨k, d, hw, hd, hl⟩ := h.exists_defines hp hpl hs hb hen
  obtain rfl := hpl.defines_unique hp (hw.reachable hp) hc hd hde
  obtain ⟨j, d', hj, hw', hd'⟩ := hs.defined_by hp hw hbe hk
  have hdb := hpl.defines_unique hp (hw'.reachable hp) hb hd'
    (.inl (mem_of_getElem? h.param))
  exact hl j hj (hdb ▸ hw')

theorem faithful : (Change.drop p v).Faithful g scope where
  param {c q} _ _ hst := if_neg (of_decide_eq_true hst)
  gone {c e q a} hc he hqa hst := by
    obtain rfl : q = p := Decidable.not_not.mp (of_decide_eq_false hst)
    simp only [Change.drop, swap, if_true]
    rcases h.arg hc he hqa with rfl | rfl
    · rw [if_pos rfl]
    · rw [if_neg h.ne]
  outside {c x} hc hx hno := by
    simp only [Change.drop, swap]
    split
    · next hxp =>
      rw [hxp] at hx
      exact fun hin => h.not_defines hp hpl hs hb hen hc (by simp) hx (.inl hin)
    · next hxp => exact fun hin => hno ⟨hin, decide_eq_true hxp⟩
  body {c n} hc hn := by
    have hne : n ≠ p := by
      rintro rfl
      exact hpl.op hc hn _ _ ((hp.params hb).op h.param)
    exact if_neg hne
  apart {c before n after x} hc hbo hx heq := by
    simp only [Change.drop, swap] at heq
    split at heq
    · next hxp =>
      rw [hxp] at hx
      subst heq
      have hv : v ∈ (g.block c).body := hbo ▸ mem_append_right _ mem_cons_self
      have hbe : ∀ m ∈ before, m ∈ (g.block c).body := fun m hm => hbo ▸ mem_append_left _ hm
      exact absurd (.inr hv) (h.not_defines hp hpl hs hb hen hc hbe hx)
    · exact heq

end

end Trivial

/-! ## Sweeps -/

/-- What a sweep keeps: it comes from `g` by changes, and the same blocks can be reached. -/
structure Swept (g : Graph) (g' : Graph) : Prop where
  cleaned : Cleaned g g'
  reachable : g'.reachable = g.reachable

section
variable (hp : g.Proper) (hpl : g.Placed)
include hp hpl

theorem Swept.removeParam (h : Swept g g') (hb : b ∈ g.reachable) (hen : b ≠ entry)
    (hi : index < (g'.block b).params.length) (hv : g'.trivialValue? g.reachable b index = some v) :
    Swept g (g'.removeParam g.reachable b index v) ∧
      index ≤ ((g'.removeParam g.reachable b index v).block b).params.length := by
  obtain ⟨hp', hpl'⟩ := h.cleaned.ordered hp hpl
  rw [← h.reachable] at hb hv ⊢
  have ht := trivial_of_trivialValue? hp' hb hi hv
  have hr := removeParam_removed hp' hpl' hb index v
  obtain ⟨c, hc, e, he, hpv⟩ := ht.passed
  have htu := hr.turns hp' hb ht.param hpl' (hp'.args hc he (of_mem_zip hpv).2) fun hf =>
    (hf.kindOf_eq hc he hpv).symm
  refine ⟨⟨h.cleaned.change htu fun hs => ht.faithful hp' hpl' hs hb hen, ?_⟩, ?_⟩
  · exact hr.reachable.trans h.reachable
  · rw [hr.block]
    simp only [if_true, length_eraseIdx_of_lt hi]
    omega

theorem sweepParams_swept (hb : b ∈ g.reachable) (hen : b ≠ entry) :
    ∀ (count : Nat) (s : Graph × Nat), Swept g s.1 → count ≤ (s.1.block b).params.length →
      Swept g (sweepParams g.reachable b count s).1
  | 0, _, h, _ => h
  | index + 1, s, h, hc => by
    rw [sweepParams]
    split
    · next v hv =>
      obtain ⟨hn, hle⟩ := h.removeParam hp hpl hb hen hc hv
      exact sweepParams_swept hb hen index _ hn hle
    · exact sweepParams_swept hb hen index s h (Nat.le_of_succ_le hc)

theorem sweepBlocks_swept (s : Graph × Nat) (h : Swept g s.1) : Swept g (sweepBlocks g.reachable s).1 := by
  refine List.foldlRecOn (motive := fun (s : Graph × Nat) => Swept g s.1) _ _ h fun s h b hb => ?_
  by_cases hen : b = entry
  · rw [if_pos hen]
    exact h
  · rw [if_neg hen]
    exact sweepParams_swept hp hpl hb hen _ s h (Nat.le_refl _)

theorem sweepAll_swept : ∀ (fuel : Nat) (s : Graph × Nat), Swept g s.1 → Swept g (sweepAll g.reachable fuel s).1
  | 0, _, h => h
  | fuel + 1, s, h => by
    have hn := sweepBlocks_swept hp hpl s h
    rw [sweepAll]
    split
    · exact hn
    · exact sweepAll_swept fuel _ hn

theorem removeTrivialParams_cleaned : Cleaned g g.removeTrivialParams.1 :=
  (sweepAll_swept hp hpl _ (g, 0) ⟨.refl, rfl⟩).cleaned

end

end Graph
end StackCompiler
