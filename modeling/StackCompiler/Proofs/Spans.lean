/-
The interval of a variable reaches over every point at which it is held, and over
each of its assignments.
-/
import Mathlib.Data.List.Nodup
import StackCompiler.Proofs.LiveSets

namespace StackCompiler.Interval
open Linear Liveness List

/-! ## Tables of intervals -/

/-- The interval of a variable in a table reaches over a point. -/
def Reaches (t : Table) (v : Var) (p : Nat) : Prop :=
  ∃ i, t[v]? = some (some i) ∧ i.start ≤ p ∧ p ≤ i.stop

/-- An interval is a hull. -/
theorem Reaches.between {t v p q r} (hp : Reaches t v p) (hr : Reaches t v r) (hpq : p ≤ q) (hqr : q ≤ r) :
    Reaches t v q := by
  obtain ⟨i, hi, hs, -⟩ := hp
  obtain ⟨j, hj, -, hst⟩ := hr
  cases hi.symm.trans hj
  exact ⟨i, hi, by omega, by omega⟩

/-- The intervals stand in the places of their variables, and none is empty. -/
def Proper (t : Table) : Prop :=
  ∀ (v : Var) (i : Interval), t[v]? = some (some i) → i.var = v ∧ i.start ≤ i.stop

/-- A table that comes from another by extending intervals. -/
structure Extends (t t' : Table) : Prop where
  size : t'.size = t.size
  reaches : ∀ {v p}, Reaches t v p → Reaches t' v p
  proper : Proper t → Proper t'

theorem Extends.refl (t : Table) : Extends t t := ⟨rfl, fun h => h, fun h => h⟩

theorem Extends.trans {t t' t''} (h : Extends t t') (h' : Extends t' t'') : Extends t t'' :=
  ⟨h'.size.trans h.size, fun hp => h'.reaches (h.reaches hp), fun hp => h'.proper (h.proper hp)⟩

/-- The interval of a variable that was extended to a point. -/
def extended (v : Var) (p : Nat) : Option Interval → Interval
  | some i => i.cover p
  | none => ⟨v, p, p⟩

theorem getElem?_touch (t : Table) (v : Var) (p : Nat) (w : Var) :
    (touch t v p)[w]? = if v = w ∧ v < t.size then some (some (extended v p (t[v]?).join)) else t[w]? := by
  have hs : touch t v p = t.setIfInBounds v (some (extended v p (t[v]?).join)) := by
    unfold touch
    rcases t[v]? with _ | _ | i <;> rfl
  rw [hs, Array.getElem?_setIfInBounds]
  by_cases hvw : v = w
  · subst hvw
    by_cases hlt : v < t.size
    · simp [hlt]
    · simp [hlt]
  · simp [hvw]

theorem reaches_touch {t v} (p : Nat) (hv : v < t.size) : Reaches (touch t v p) v p := by
  refine ⟨extended v p (t[v]?).join, ?_, ?_⟩
  · rw [getElem?_touch, if_pos ⟨rfl, hv⟩]
  · cases (t[v]?).join with
    | none => exact ⟨Nat.le_refl p, Nat.le_refl p⟩
    | some i => exact ⟨Nat.min_le_right i.start p, Nat.le_max_right i.stop p⟩

theorem extends_touch (t : Table) (v : Var) (p : Nat) : Extends t (touch t v p) where
  size := by
    unfold touch
    split <;> exact Array.size_setIfInBounds
  reaches := by
    rintro w q ⟨i, hi, hs, hst⟩
    by_cases h : v = w ∧ v < t.size
    · obtain ⟨rfl, hlt⟩ := h
      refine ⟨i.cover p, ?_, ?_⟩
      · rw [getElem?_touch, if_pos ⟨rfl, hlt⟩, hi]
        rfl
      · exact ⟨Nat.le_trans (Nat.min_le_left i.start p) hs,
          Nat.le_trans hst (Nat.le_max_left i.stop p)⟩
    · refine ⟨i, ?_, hs, hst⟩
      rw [getElem?_touch, if_neg h, hi]
  proper := by
    intro ht w i hi
    rw [getElem?_touch] at hi
    split at hi
    next h =>
      obtain ⟨rfl, -⟩ := h
      cases hi
      cases hj : t[v]? with
      | none => exact ⟨rfl, Nat.le_refl p⟩
      | some j =>
        cases j with
        | none => exact ⟨rfl, Nat.le_refl p⟩
        | some j =>
          obtain ⟨hv, hle⟩ := ht v j hj
          refine ⟨hv, ?_⟩
          show min j.start p ≤ max j.stop p
          omega
    next => exact ht w i hi

theorem touchAll_spec (p : Nat) : ∀ (vs : List Var) (t : Table), Extends t (touchAll t vs p) ∧
    ∀ v ∈ vs, v < t.size → Reaches (touchAll t vs p) v p
  | [], t => ⟨.refl t, fun _ hv => absurd hv not_mem_nil⟩
  | w :: vs, t => by
    have hw := extends_touch t w p
    obtain ⟨he, hr⟩ := touchAll_spec p vs (touch t w p)
    refine ⟨hw.trans he, fun v hv hlt => ?_⟩
    rcases mem_cons.mp hv with rfl | hv
    · exact he.reaches (reaches_touch p hlt)
    · exact hr v hv (by rw [hw.size]; exact hlt)

theorem extends_touchInsns : ∀ (insns : List Insn) (point : Nat) (t : Table),
    Extends t (touchInsns point insns t)
  | [], _, t => .refl t
  | insn :: rest, point, t =>
    ((touchAll_spec point insn.uses t).1.trans (touchAll_spec (point + 1) insn.def?.toList _).1).trans
      (extends_touchInsns rest (point + 2) _)

/-- The points to which a block, and what is live at its ends, extend the interval of a variable. -/
inductive Touches (l : Liveness) (id : Nat) (b : Linear.Block) (base : Nat) (v : Var) : Nat → Prop
  | use {pre post insn} (h : b.insns = pre ++ insn :: post)
      (hv : v ∈ insn.uses) : Touches l id b base v (base + 2 * pre.length)
  | assign {pre post insn} (h : b.insns = pre ++ insn :: post)
      (hv : insn.def? = some v) : Touches l id b base v (base + 2 * pre.length + 1)
  | term (hv : v ∈ b.term.uses) : Touches l id b base v (base + 2 * b.insns.length)
  | start (hv : v ∈ l.liveIn id) : Touches l id b base v base
  | stop (hv : v ∈ l.liveOut id) : Touches l id b base v (base + 2 * b.insns.length + 1)

theorem touchInsns_reaches {insn post v} : ∀ {pre : List Insn} {point : Nat}
    {t : Table}, v < t.size →
    (v ∈ insn.uses → Reaches (touchInsns point (pre ++ insn :: post) t) v (point + 2 * pre.length)) ∧
    (insn.def? = some v →
      Reaches (touchInsns point (pre ++ insn :: post) t) v (point + 2 * pre.length + 1))
  | [], point, t, hlt => by
    obtain ⟨hu, hre⟩ := touchAll_spec point insn.uses t
    obtain ⟨hd, hw⟩ := touchAll_spec (point + 1) insn.def?.toList (touchAll t insn.uses point)
    have hr := extends_touchInsns post (point + 2)
      (touchAll (touchAll t insn.uses point) insn.def?.toList (point + 1))
    constructor
    · intro hv
      exact hr.reaches (hd.reaches (hre v hv hlt))
    · intro hv
      refine hr.reaches (hw v (Option.mem_toList.mpr hv) ?_)
      rw [hu.size]
      exact hlt
  | other :: pre, point, t, hlt => by
    have hs : v < (touchAll (touchAll t other.uses point) other.def?.toList (point + 1)).size := by
      rw [(touchAll_spec _ _ _).1.size, (touchAll_spec _ _ _).1.size]
      exact hlt
    have ih := @touchInsns_reaches insn post v pre (point + 2) _ hs
    have hp : point + 2 * (other :: pre).length = point + 2 + 2 * pre.length := by
      rw [length_cons]
      omega
    rw [hp]
    exact ih

theorem extends_touchBlock (l : Liveness) (id : Nat) (b : Linear.Block) (base : Nat) (t : Table) :
    Extends t (touchBlock l id b base t) :=
  (((extends_touchInsns b.insns base t).trans (touchAll_spec _ b.term.uses _).1).trans
    (touchAll_spec base _ _).1).trans (touchAll_spec _ _ _).1

theorem touchBlock_reaches {l id b base v p} (h : Touches l id b base v p) {t} (hlt : v < t.size) :
    Reaches (touchBlock l id b base t) v p := by
  have hi := extends_touchInsns b.insns base t
  obtain ⟨ht, ht'⟩ := touchAll_spec (base + 2 * b.insns.length) b.term.uses
    (touchInsns base b.insns t)
  obtain ⟨hin, hi'⟩ := touchAll_spec base (l.liveIn id).toList
    (touchAll (touchInsns base b.insns t) b.term.uses (base + 2 * b.insns.length))
  obtain ⟨ho, ho'⟩ := touchAll_spec (base + 2 * b.insns.length + 1) (l.liveOut id).toList
    (touchAll (touchAll (touchInsns base b.insns t) b.term.uses (base + 2 * b.insns.length))
      (l.liveIn id).toList base)
  have hl₁ : v < (touchInsns base b.insns t).size := hi.size ▸ hlt
  have hl₂ := ht.size ▸ hl₁
  have hl₃ := hin.size ▸ hl₂
  cases h with
  | use h hv =>
    refine ho.reaches (hin.reaches (ht.reaches ?_))
    rw [h]
    exact (touchInsns_reaches hlt).1 hv
  | assign h hv =>
    refine ho.reaches (hin.reaches (ht.reaches ?_))
    rw [h]
    exact (touchInsns_reaches hlt).2 hv
  | term hv => exact ho.reaches (hin.reaches (ht' v hv hl₁))
  | start hv => exact ho.reaches (hi' v (VarSet.mem_toList.mpr hv) hl₂)
  | stop hv => exact ho' v (VarSet.mem_toList.mpr hv) hl₃

theorem extends_touchBlocks (l : Liveness) : ∀ (blocks : List Linear.Block) (id base : Nat) (t : Table),
    Extends t (touchBlocks l id base blocks t)
  | [], _, _, t => .refl t
  | b :: blocks, id, base, t =>
    (extends_touchBlock l id b base t).trans (extends_touchBlocks l blocks (id + 1) _ _)

/-- The first point of a block. -/
def base : List Linear.Block → Nat → Nat
  | b :: blocks, k + 1 => 2 * b.insns.length + 2 + base blocks k
  | _, _ => 0

theorem touchBlocks_reaches {l b v p} :
    ∀ {blocks : List Linear.Block} {k id point : Nat} {t : Table}, blocks[k]? = some b →
      Touches l (id + k) b (point + base blocks k) v p → v < t.size →
        Reaches (touchBlocks l id point blocks t) v p
  | [], k, _, _, _, hb, _, _ => by simp at hb
  | b' :: blocks, 0, id, point, t, hb, h, hlt => by
    cases hb
    exact (extends_touchBlocks l blocks (id + 1) _ _).reaches (touchBlock_reaches h hlt)
  | b' :: blocks, k + 1, id, point, t, hb, h, hlt => by
    have hid : id + (k + 1) = id + 1 + k := by omega
    have hp : point + base (b' :: blocks) (k + 1) =
        point + 2 * b'.insns.length + 2 + base blocks k := by
      rw [base]
      omega
    rw [hid, hp] at h
    refine @touchBlocks_reaches l b v p blocks k (id + 1) _ _ hb h ?_
    rw [(extends_touchBlock l id b' point t).size]
    exact hlt

/-! ## The table of a method -/

/-- The table of a method, with the computed live sets. -/
def table (m : Linear.Method) : Table :=
  touchBlocks (compute m) 0 0 m.blocks.toList (Array.replicate m.varBound none)

theorem ofMethod_eq (m : Linear.Method) :
    ofMethod m (compute m) = (table m).toList.filterMap id := rfl

theorem table_size (m : Linear.Method) : (table m).size = m.varBound := by
  rw [table, (extends_touchBlocks _ _ _ _ _).size, Array.size_replicate]

theorem table_proper (m : Linear.Method) : Proper (table m) := by
  refine (extends_touchBlocks _ _ _ _ _).proper fun v i hi => ?_
  rw [Array.getElem?_replicate] at hi
  split at hi <;> simp at hi

theorem mem_ofMethod {m i} :
    i ∈ ofMethod m (compute m) ↔ (table m)[i.var]? = some (some i) := by
  rw [ofMethod_eq, mem_filterMap]
  constructor
  · rintro ⟨o, ho, hoi⟩
    obtain ⟨v, hv⟩ := getElem?_of_mem ho
    rw [Array.getElem?_toList, show o = some i from hoi] at hv
    rw [(table_proper m v i hv).1, hv]
  · intro h
    exact ⟨some i, mem_of_getElem? ((Array.getElem?_toList).trans h), rfl⟩

theorem nodup_ofMethod (m : Linear.Method) :
    ((ofMethod m (compute m)).map (·.var)).Nodup := by
  have hs : ∀ (entries : List (Option Interval)) (n : Nat),
      (∀ k i, entries[k]? = some (some i) → i.var = n + k) →
      (∀ v ∈ (entries.filterMap id).map (·.var), n ≤ v) ∧ ((entries.filterMap id).map (·.var)).Nodup := by
    intro entries
    induction entries with
    | nil => exact fun _ _ => ⟨fun _ hv => absurd hv not_mem_nil, nodup_nil⟩
    | cons entry entries ih =>
      intro n hva
      obtain ⟨hge, hn⟩ := ih (n + 1) fun k i hi => by
        have := hva (k + 1) i hi
        omega
      have hg' : ∀ v ∈ (entries.filterMap id).map (·.var), n + 1 ≤ v := hge
      cases entry with
      | none => exact ⟨fun v hv => Nat.le_of_succ_le (hg' v hv), hn⟩
      | some i =>
        have hi : i.var = n := hva 0 i rfl
        rw [show (some i :: entries).filterMap id = i :: entries.filterMap id from rfl, map_cons,
          nodup_cons]
        refine ⟨fun v hv => ?_, fun hm => ?_, hn⟩
        · rcases mem_cons.mp hv with rfl | hv
          · exact Nat.le_of_eq hi.symm
          · exact Nat.le_of_succ_le (hg' v hv)
        · exact absurd (hg' _ hm) (by rw [hi]; exact Nat.not_succ_le_self n)
  refine (hs (table m).toList 0 fun v i hi => ?_).2
  rw [Array.getElem?_toList] at hi
  rw [(table_proper m v i hi).1, Nat.zero_add]

section
variable {m : Linear.Method} {id : Nat} {b : Linear.Block} {v : Var}

theorem Touches.lt_varBound (hb : m.blocks[id]? = some b) {p base} (h : Touches (compute m) id b base v p) :
    v < m.varBound := by
  have hr := compute_rising m
  generalize compute m = l at h hr
  have ofInsn : ∀ {pre post : List Insn} {insn : Insn}, b.insns = pre ++ insn :: post →
      v ∈ insn.vars → v < m.varBound := by
    intro pre post insn h hv
    apply Linear.Method.lt_varBound hb
    rw [Linear.Block.vars, h]
    simp only [flatMap_append, flatMap_cons, mem_append]
    exact .inl (.inr (.inl hv))
  cases h with
  | use h hv => exact ofInsn h (mem_append_left _ hv)
  | assign h hv => exact ofInsn h (mem_append_right _ (Option.mem_toList.mpr hv))
  | term hv => exact Linear.Method.lt_varBound hb (mem_append_right _ hv)
  | start hv => exact hr.lt_varBound true hb hv
  | stop hv => exact hr.lt_varBound false hb hv

theorem table_reaches (hb : m.blocks[id]? = some b) {p}
    (h : Touches (compute m) id b (base m.blocks.toList id) v p) : Reaches (table m) v p := by
  refine touchBlocks_reaches (Array.getElem?_toList.trans hb) ?_ ?_
  · rw [Nat.zero_add, Nat.zero_add]
    exact h
  · rw [Array.size_replicate]
    exact h.lt_varBound hb

theorem touches_behind (hb : m.blocks[id]? = some b) (point : Nat) :
    ∀ {rest pre : List Insn}, b.insns = pre ++ rest → v ∈ before m b rest →
      ∃ q, Touches (compute m) id b point v q ∧ point + 2 * pre.length ≤ q
  | [], pre, hi, hv => by
    rw [append_nil] at hi
    rcases Liveness.mem_afterInsns.mp hv with hv | hv
    · exact ⟨_, .term hv, by rw [hi]⟩
    · rw [← liveOut_compute hb] at hv
      exact ⟨_, .stop hv, by rw [hi]; exact Nat.le_succ _⟩
  | insn :: rest, pre, hi, hv => by
    rcases Insn.mem_liveBefore.mp hv with hv | hv
    · exact ⟨_, .use hi hv, Nat.le_refl _⟩
    · rcases Insn.mem_liveAt.mp hv with ⟨-, hv⟩ | ⟨-, hv⟩
      · obtain ⟨q, hq, hle⟩ := touches_behind hb point (hi.trans (append_cons pre insn rest)) hv
        refine ⟨q, hq, ?_⟩
        rw [length_append, length_singleton] at hle
        omega
      · -- the handler is a successor, so what it needs is live at the end of the block
        have ho := mem_blockOut_of_handlerIn hv
        rw [← liveOut_compute hb] at ho
        refine ⟨_, .stop ho, ?_⟩
        rw [hi, length_append]
        omega

/-- Before a point, the last assignment to a held variable, or the start of the block. -/
theorem touches_before (hb : m.blocks[id]? = some b) (point : Nat) {pre} :
    ∀ {rest : List Insn}, b.insns = pre ++ rest → v ∈ before m b rest →
      ∃ q, Touches (compute m) id b point v q ∧ q ≤ point + 2 * pre.length := by
  induction pre using List.reverseRecOn with
  | nil =>
    intro rest hi hv
    rw [nil_append] at hi
    subst hi
    rw [← liveIn_eq_before hb] at hv
    exact ⟨_, .start hv, Nat.le_add_right _ _⟩
  | append_singleton pre insn ih =>
    intro rest hi hv
    have hi' : b.insns = pre ++ insn :: rest := by simp [hi]
    rw [length_append, length_singleton]
    by_cases hd : insn.def? = some v
    · exact ⟨_, .assign hi' hd, by omega⟩
    · obtain ⟨q, hq, hle⟩ := ih hi'
        (Insn.mem_liveBefore.mpr (.inr (Insn.mem_liveAt.mpr (.inl ⟨hd, hv⟩))))
      exact ⟨q, hq, by omega⟩

theorem reaches_held (hb : m.blocks[id]? = some b) {pre rest} (hi : b.insns = pre ++ rest)
    (hv : HeldAt m v b.handler rest b.term) :
    Reaches (table m) v (base m.blocks.toList id + 2 * pre.length) := by
  rw [← mem_before_iff] at hv
  obtain ⟨q, hq, hle⟩ := touches_before hb (base m.blocks.toList id) hi hv
  obtain ⟨r, hr, hge⟩ := touches_behind hb (base m.blocks.toList id) hi hv
  exact (table_reaches hb hq).between (table_reaches hb hr) hle hge

/-- A variable that is held across an instruction has an interval over the point where it writes. -/
theorem reaches_across (hb : m.blocks[id]? = some b) {pre rest insn} (hi : b.insns = pre ++ insn :: rest)
    (hv : HeldAcross m b insn rest v) :
    Reaches (table m) v (base m.blocks.toList id + 2 * pre.length + 1) := by
  have hbe := reaches_held hb hi hv.before
  rw [← mem_liveAt_iff, Insn.mem_liveAt] at hv
  rcases hv with ⟨-, hv⟩ | ⟨-, hv⟩
  · have hbeh := reaches_held hb (hi.trans (append_cons pre insn rest))
      (Liveness.mem_before_iff.mp hv)
    rw [length_append, length_singleton] at hbeh
    exact hbe.between hbeh (by omega) (by omega)
  · have ho := mem_blockOut_of_handlerIn hv
    rw [← liveOut_compute hb] at ho
    have he := table_reaches hb (.stop ho)
    rw [hi, length_append] at he
    exact hbe.between he (by omega) (by omega)

end
end StackCompiler.Interval
