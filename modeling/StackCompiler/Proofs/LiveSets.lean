/-
The live sets of the register allocator, told apart from how they are computed. A
variable is held at a point if a path leads from there to a use of it; such a
path may also leave the end of a protected block for the handler.
-/
import Mathlib.Data.Finset.Card
import Mathlib.Data.Finset.Prod
import Mathlib.Data.Fintype.Card
import StackCompiler.Proofs.LivePaths

namespace StackCompiler

open List

/-! ## Sets of variables -/

namespace VarSet

variable {s : VarSet} {v : Var}

theorem mem_def : v ∈ s ↔ s.bits.testBit v = true := Iff.rfl

@[simp] theorem not_mem_empty (v : Var) : ¬ v ∈ empty := by
  simp [mem_def, empty]

theorem testBit_one_shiftLeft (v w : Var) : (1 <<< w).testBit v = decide (v = w) := by
  rw [Nat.one_shiftLeft, Nat.testBit_two_pow]
  exact decide_eq_decide.mpr eq_comm

@[simp] theorem mem_insert {w} : v ∈ s.insert w ↔ v = w ∨ v ∈ s := by
  simp only [mem_def, insert, Nat.testBit_or, testBit_one_shiftLeft, Bool.or_eq_true,
    decide_eq_true_eq, or_comm]

@[simp] theorem mem_erase {w} : v ∈ s.erase w ↔ v ≠ w ∧ v ∈ s := by
  unfold erase contains
  by_cases hw : s.bits.testBit w = true
  · rw [if_pos hw, mem_def, Nat.testBit_xor, testBit_one_shiftLeft]
    by_cases hv : v = w
    · simp [hv, hw]
    · simp [hv, mem_def]
  · rw [if_neg hw]
    refine ⟨fun h => ⟨fun hv => hw (hv ▸ h), h⟩, fun h => h.2⟩

@[simp] theorem mem_union {t} : v ∈ s.union t ↔ v ∈ s ∨ v ∈ t := by
  simp [mem_def, union]

@[simp] theorem mem_insertAll {vs} : v ∈ s.insertAll vs ↔ v ∈ vs ∨ v ∈ s := by
  unfold insertAll
  induction vs generalizing s with
  | nil => simp
  | cons w vs ih =>
    rw [foldl_cons, ih, mem_insert, mem_cons]
    tauto

@[simp] theorem mem_toList : v ∈ s.toList ↔ v ∈ s := by
  unfold toList
  rw [mem_filter, mem_range]
  refine ⟨fun h => h.2, fun h => ⟨?_, h⟩⟩
  have hle : 2 ^ v ≤ s.bits := Nat.ge_two_pow_of_testBit h
  have hne : s.bits ≠ 0 := by
    intro h0
    rw [h0] at hle
    exact absurd hle (Nat.not_le.mpr (Nat.two_pow_pos v))
  exact Nat.lt_succ_of_le ((Nat.le_log2 hne).mpr hle)

theorem ext {t} (h : ∀ v, v ∈ s ↔ v ∈ t) : s = t := by
  obtain ⟨s⟩ := s
  obtain ⟨t⟩ := t
  congr 1
  apply Nat.eq_of_testBit_eq
  intro v
  exact Bool.eq_iff_iff.mpr (h v)

theorem mem_foldl_union {α : Type} {f : α → VarSet} {items : List α} :
    v ∈ items.foldl (fun s a => s.union (f a)) s ↔ v ∈ s ∨ ∃ a ∈ items, v ∈ f a := by
  induction items generalizing s with
  | nil => simp
  | cons a items ih =>
    rw [foldl_cons, ih, mem_union, exists_mem_cons_iff, or_assoc]

end VarSet

namespace Linear

/-! ## The transfer of a point -/

variable {v : Var} {M : Method} {insn : Insn} {rest : List Insn} {b : Block}
  {after handlerIn : VarSet}

theorem Insn.mem_liveAt :
    v ∈ insn.liveAt handlerIn after ↔
      insn.def? ≠ some v ∧ v ∈ after ∨ insn.isCall = true ∧ v ∈ handlerIn := by
  unfold liveAt
  cases insn.def? with
  | none | some => by_cases hc : insn.isCall = true <;> simp [hc, eq_comm]

theorem Insn.mem_liveBefore :
    v ∈ insn.liveBefore handlerIn after ↔ v ∈ insn.uses ∨ v ∈ insn.liveAt handlerIn after :=
  VarSet.mem_insertAll

theorem liveBefore_cons (handlerIn after : VarSet) (insn : Insn) (rest : List Insn) :
    liveBefore handlerIn (insn :: rest) after =
      insn.liveBefore handlerIn (liveBefore handlerIn rest after) := rfl

theorem liveBefore_mono {ha' after'} (hh : ∀ v, v ∈ handlerIn → v ∈ ha')
    (ha : ∀ v, v ∈ after → v ∈ after') {insns} (h : v ∈ liveBefore handlerIn insns after) :
    v ∈ liveBefore ha' insns after' := by
  induction insns generalizing v with
  | nil => exact ha v h
  | cons insn rest ih =>
    rw [liveBefore_cons, Insn.mem_liveBefore, Insn.mem_liveAt] at h ⊢
    rcases h with h | ⟨hd, h⟩ | ⟨hc, h⟩
    · exact .inl h
    · exact .inr (.inl ⟨hd, ih h⟩)
    · exact .inr (.inr ⟨hc, hh v h⟩)

/-! ## Held variables -/

/-- From a point a path leads to a use of `v`, and `v` is not assigned on the way, where the end
of a block leads also to the block's handler. -/
inductive HeldAt (M : Method) (v : Var) : Option Nat → List Insn → Terminator → Prop
  | use {handler : Option Nat} {insn : Insn} {rest : List Insn} {term : Terminator}
      (h : v ∈ insn.uses) : HeldAt M v handler (insn :: rest) term
  | step {handler : Option Nat} {insn : Insn} {rest : List Insn} {term : Terminator}
      (hdef : insn.def? ≠ some v) (h : HeldAt M v handler rest term) :
      HeldAt M v handler (insn :: rest) term
  | throw {i : Nat} {blk : Block} {insn : Insn} {rest : List Insn} {term : Terminator}
      (hcall : insn.isCall = true) (hblk : M.blocks[i]? = some blk)
      (h : HeldAt M v blk.handler blk.insns blk.term) : HeldAt M v (some i) (insn :: rest) term
  | termUse {handler : Option Nat} {term : Terminator} (h : v ∈ term.uses) :
      HeldAt M v handler [] term
  | goes {handler : Option Nat} {term : Terminator} {i : Nat} {blk : Block}
      (hi : i ∈ term.successors) (hblk : M.blocks[i]? = some blk)
      (h : HeldAt M v blk.handler blk.insns blk.term) : HeldAt M v handler [] term
  | leaves {term : Terminator} {i : Nat} {blk : Block} (hblk : M.blocks[i]? = some blk)
      (h : HeldAt M v blk.handler blk.insns blk.term) : HeldAt M v (some i) [] term

theorem LiveAt.held {handler term} (h : LiveAt M v handler rest term) :
    HeldAt M v handler rest term := by
  induction h with
  | use h => exact .use h
  | step hd _ ih => exact .step hd ih
  | throw hc hbl _ ih => exact .throw hc hbl ih
  | termUse h => exact .termUse h
  | goes hi hbl _ ih => exact .goes hi hbl ih

theorem HeldAt.of_successor {i blk} (hi : i ∈ b.successors) (hbl : M.blocks[i]? = some blk)
    (h : HeldAt M v blk.handler blk.insns blk.term) :
    HeldAt M v b.handler [] b.term := by
  rcases mem_append.mp hi with hi | hi
  · exact .goes hi hbl h
  · rw [Option.mem_toList.mp hi]
    exact .leaves hbl h

theorem Method.lt_foldl_max {vs : List Nat} {v n} (h : v < n ∨ v ∈ vs) :
    v < vs.foldl (fun n v => max n (v + 1)) n := by
  induction vs generalizing n with
  | nil => simpa using h
  | cons w vs ih =>
    rw [foldl_cons]
    apply ih
    rcases h with h | h
    · left; omega
    · rcases mem_cons.mp h with rfl | h
      · left; omega
      · exact .inr h

theorem Method.lt_varBound {i : Nat} (hb : M.blocks[i]? = some b) (hv : v ∈ b.vars) :
    v < M.varBound := by
  apply Method.lt_foldl_max
  right
  obtain ⟨hi, rfl⟩ := Array.getElem?_eq_some_iff.mp hb
  exact mem_flatMap.mpr ⟨_, Array.getElem_mem_toList hi, hv⟩

theorem HeldAt.mentioned {handler term} (h : HeldAt M v handler rest term) :
    v ∈ rest.flatMap Insn.vars ++ term.uses ∨ v < M.varBound := by
  have inBlock : ∀ {i : Nat} {blk : Block}, M.blocks[i]? = some blk →
      v ∈ blk.insns.flatMap Insn.vars ++ blk.term.uses ∨ v < M.varBound → v < M.varBound := by
    intro i blk hbl h
    exact h.elim (fun h => Method.lt_varBound hbl h) fun h => h
  induction h with
  | use h =>
    left
    simp [Insn.vars, h]
  | step _ _ ih =>
    refine ih.imp_left fun h => ?_
    rw [flatMap_cons, append_assoc]
    exact mem_append_right _ h
  | throw _ hbl _ ih => exact .inr (inBlock hbl ih)
  | termUse h => exact .inl h
  | goes _ hbl _ ih => exact .inr (inBlock hbl ih)
  | leaves hbl _ ih => exact .inr (inBlock hbl ih)

theorem HeldAt.lt_varBound {i : Nat} (hb : M.blocks[i]? = some b) {pre}
    (hi : b.insns = pre ++ rest) (h : HeldAt M v b.handler rest b.term) : v < M.varBound := by
  refine h.mentioned.elim (fun hv => Method.lt_varBound hb ?_) fun hv => hv
  rw [Block.vars, hi, flatMap_append, append_assoc]
  exact mem_append_right _ hv

/-! ## What an instruction leaves alone -/

/-- A variable is live at the start of the handler of a block. -/
def LiveInHandler (M : Method) (b : Block) (v : Var) : Prop :=
  ∃ i blk, b.handler = some i ∧ M.blocks[i]? = some blk ∧ LiveAt M v blk.handler blk.insns blk.term

/-- The value that a variable has while an instruction runs may be read behind it, or in the handler
if a call throws. Its result is written only then. -/
def LiveAcross (M : Method) (b : Block) (insn : Insn) (rest : List Insn) (v : Var) : Prop :=
  insn.def? ≠ some v ∧ LiveAt M v b.handler rest b.term ∨ insn.isCall = true ∧ LiveInHandler M b v

/-- The same for held variables. -/
def HeldAcross (M : Method) (b : Block) (insn : Insn) (rest : List Insn) (v : Var) : Prop :=
  insn.def? ≠ some v ∧ HeldAt M v b.handler rest b.term ∨ insn.isCall = true ∧
    ∃ i blk, b.handler = some i ∧ M.blocks[i]? = some blk ∧ HeldAt M v blk.handler blk.insns blk.term

theorem LiveAcross.held (h : LiveAcross M b insn rest v) : HeldAcross M b insn rest v := by
  rcases h with ⟨hd, h⟩ | ⟨hc, i, blk, hi, hbl, h⟩
  · exact .inl ⟨hd, h.held⟩
  · exact .inr ⟨hc, i, blk, hi, hbl, h.held⟩

/-- What is held across an instruction is held before it. -/
theorem HeldAcross.before (h : HeldAcross M b insn rest v) :
    HeldAt M v b.handler (insn :: rest) b.term := by
  rcases h with ⟨hd, h⟩ | ⟨hc, i, blk, hi, hbl, h⟩
  · exact .step hd h
  · rw [hi]
    exact .throw hc hbl h

theorem Insn.isStop_of_isCall (h : insn.isCall = true) : insn.isStop = true := by
  cases insn with
  | call => rfl
  | _ => cases h

theorem mem_livePoints {point} : ∀ {insns : List Insn} {n : Nat},
    point ∈ (livePoints handlerIn after n insns).2 ↔ ∃ pre insn rest, insns = pre ++ insn :: rest ∧
      insn.isStop = true ∧
      point = ⟨n + pre.length, insn.isCall, insn.liveAt handlerIn (liveBefore handlerIn rest after)⟩ := by
  have hf : ∀ (insns : List Insn) (n : Nat),
      (livePoints handlerIn after n insns).1 = liveBefore handlerIn insns after := by
    intro insns
    induction insns with
    | nil => exact fun _ => rfl
    | cons insn rest ih =>
      intro n
      rw [livePoints, liveBefore_cons, ← ih (n + 1)]
      rfl
  intro insns
  induction insns with
  | nil => simp [livePoints]
  | cons insn rest ih =>
    intro n
    -- a point is the one of the first instruction, or one of the rest
    have hsp : point ∈ (livePoints handlerIn after n (insn :: rest)).2 ↔
        (insn.isStop = true ∧
          point = ⟨n, insn.isCall, insn.liveAt handlerIn (liveBefore handlerIn rest after)⟩) ∨
        point ∈ (livePoints handlerIn after (n + 1) rest).2 := by
      rw [livePoints, ← hf rest (n + 1)]
      by_cases hs : insn.isStop = true <;> simp [hs]
    rw [hsp, ih]
    constructor
    · rintro (⟨hs, rfl⟩ | ⟨pre, insn', rest', rfl, hs, rfl⟩)
      · exact ⟨[], insn, rest, rfl, hs, rfl⟩
      · exact ⟨insn :: pre, insn', rest', rfl, hs, by simp [Nat.add_comm, Nat.add_left_comm]⟩
    · rintro ⟨pre, insn', rest', heq, hs, rfl⟩
      cases pre with
      | nil =>
        obtain ⟨rfl, rfl⟩ := List.cons.inj heq
        exact .inl ⟨hs, rfl⟩
      | cons _ pre =>
        obtain ⟨rfl, rfl⟩ := List.cons.inj heq
        exact .inr ⟨pre, insn', rest', rfl, hs, by simp [Nat.add_comm, Nat.add_left_comm]⟩

end Linear

/-! ## The rounds -/

namespace Liveness
open Linear

section
variable {m : Linear.Method} {l l' : Liveness} {id : Nat} {b : Linear.Block} {v : Var}

theorem mem_handlerIn : v ∈ l.handlerIn b ↔ ∃ i, b.handler = some i ∧ v ∈ l.liveIn i := by
  unfold handlerIn
  cases b.handler with
  | none => simp
  | some i => simp

theorem mem_blockOut : v ∈ l.blockOut b ↔ ∃ i ∈ b.successors, v ∈ l.liveIn i := by
  rw [blockOut, VarSet.mem_foldl_union]
  simp

theorem mem_afterInsns {out} : v ∈ afterInsns b out ↔ v ∈ b.term.uses ∨ v ∈ out :=
  VarSet.mem_insertAll

theorem mem_blockOut_of_handlerIn (h : v ∈ l.handlerIn b) : v ∈ l.blockOut b := by
  obtain ⟨i, hi, hv⟩ := mem_handlerIn.mp h
  refine mem_blockOut.mpr ⟨i, ?_, hv⟩
  exact mem_append_right _ (Option.mem_toList.mpr hi)

/-- The sets at the starts of the blocks, or those at their ends. -/
def sets (l : Liveness) (starts : Bool) : Array VarSet := bif starts then l.ins else l.outs

def set (l : Liveness) (starts : Bool) (id : Nat) : VarSet := (l.sets starts).getD id .empty

/-- What a new look at a block gives. -/
def look (l : Liveness) (starts : Bool) (b : Linear.Block) : VarSet :=
  bif starts then l.blockIn b (l.blockOut b) else l.blockOut b

/-- Every set of one solution is in the set of another. -/
def Le (l l' : Liveness) : Prop := ∀ starts id v, v ∈ l.set starts id → v ∈ l'.set starts id

theorem Le.refl (l : Liveness) : l.Le l := fun _ _ _ h => h

theorem Le.trans {l''} (h : l.Le l') (h' : l'.Le l'') : l.Le l'' := fun starts id v hv =>
  h' starts id v (h starts id v hv)

theorem Le.blockOut (h : l.Le l') (hv : v ∈ l.blockOut b) : v ∈ l'.blockOut b := by
  obtain ⟨i, hi, hv⟩ := mem_blockOut.mp hv
  exact mem_blockOut.mpr ⟨i, hi, h true i v hv⟩

theorem Le.look {starts} (h : l.Le l') (hv : v ∈ l.look starts b) : v ∈ l'.look starts b := by
  cases starts with
  | false => exact h.blockOut hv
  | true =>
    refine liveBefore_mono (fun w hw => ?_) (fun w hw => ?_) hv
    · obtain ⟨i, hi, hw⟩ := mem_handlerIn.mp hw
      exact mem_handlerIn.mpr ⟨i, hi, h true i w hw⟩
    · exact mem_afterInsns.mpr ((mem_afterInsns.mp hw).imp_right h.blockOut)

/-- Each member of the sets has a path to a use, and each set is in what a new look at its block gives. -/
structure Rising (m : Linear.Method) (l : Liveness) : Prop where
  size : ∀ starts, (l.sets starts).size = m.blocks.size
  held : ∀ starts {id v b}, m.blocks[id]? = some b → v ∈ l.set starts id →
    HeldAt m v b.handler (bif starts then b.insns else []) b.term
  le : ∀ starts {id v b}, m.blocks[id]? = some b → v ∈ l.set starts id → v ∈ l.look starts b

theorem sets_empty (n : Nat) (starts : Bool) : (empty n).sets starts = Array.replicate n .empty := by
  cases starts <;> rfl

theorem set_empty (n : Nat) (starts : Bool) (id : Nat) : (empty n).set starts id = .empty := by
  simp only [set, sets_empty, Array.getD_eq_getD_getElem?, Array.getElem?_replicate]
  split <;> rfl

theorem Rising.empty (m : Linear.Method) : Rising m (empty m.blocks.size) where
  size := by simp [sets_empty]
  held := by simp [set_empty]
  le := by simp [set_empty]

theorem sets_update (l : Liveness) (hb : m.blocks[id]? = some b) (starts : Bool) :
    (update m id l).sets starts = (l.sets starts).setIfInBounds id (l.look starts b) := by
  rw [update, Array.getD_eq_getD_getElem?, hb]
  cases starts <;> rfl

namespace Rising

theorem exists_block {starts} (h : Rising m l) (hv : v ∈ l.set starts id) : ∃ b, m.blocks[id]? = some b := by
  by_cases hid : id < m.blocks.size
  · exact ⟨_, Array.getElem?_eq_getElem hid⟩
  · rw [set, Array.getD_eq_getD_getElem?, Array.getElem?_eq_none (by rw [h.size]; omega)] at hv
    exact absurd hv (VarSet.not_mem_empty v)

theorem lt_varBound (h : Rising m l) (starts : Bool) (hb : m.blocks[id]? = some b) (hv : v ∈ l.set starts id) :
    v < m.varBound := by
  have hh := h.held starts hb hv
  cases starts with
  | false => exact hh.lt_varBound hb (append_nil _).symm
  | true => exact hh.lt_varBound hb (nil_append _).symm

theorem held_of_successor (h : Rising m l) {i} (hv : v ∈ l.liveIn i) :
    ∃ blk, m.blocks[i]? = some blk ∧ HeldAt m v blk.handler blk.insns blk.term := by
  have hv : v ∈ l.set true i := hv
  obtain ⟨blk, hbl⟩ := h.exists_block hv
  exact ⟨blk, hbl, h.held true hbl hv⟩

theorem held_of_blockOut (h : Rising m l) (hv : v ∈ l.blockOut b) : HeldAt m v b.handler [] b.term := by
  obtain ⟨i, hi, hv⟩ := mem_blockOut.mp hv
  obtain ⟨blk, hbl, hh⟩ := h.held_of_successor hv
  exact .of_successor hi hbl hh

theorem held_of_before (h : Rising m l) {rest}
    (hv : v ∈ liveBefore (l.handlerIn b) rest (afterInsns b (l.blockOut b))) :
    HeldAt m v b.handler rest b.term := by
  induction rest with
  | nil =>
    rcases mem_afterInsns.mp hv with hv | hv
    · exact .termUse hv
    · exact h.held_of_blockOut hv
  | cons insn rest ih =>
    rw [liveBefore_cons, Insn.mem_liveBefore, Insn.mem_liveAt] at hv
    rcases hv with hv | ⟨hd, hv⟩ | ⟨hc, hv⟩
    · exact .use hv
    · exact .step hd (ih hv)
    · obtain ⟨i, hi, hv⟩ := mem_handlerIn.mp hv
      obtain ⟨blk, hbl, hh⟩ := h.held_of_successor hv
      rw [hi]
      exact .throw hc hbl hh

section
variable (h : Rising m l) (hb : m.blocks[id]? = some b)
include h hb

theorem set_update (starts : Bool) (j : Nat) :
    (update m id l).set starts j = if j = id then l.look starts b else l.set starts j := by
  have hid : id < (l.sets starts).size := by
    rw [h.size]
    exact (Array.getElem?_eq_some_iff.mp hb).1
  rw [set, sets_update l hb, getD_setIfInBounds]
  simp [hid, eq_comm, set]

theorem le_update : l.Le (update m id l) := by
  intro starts j v hv
  rw [h.set_update hb]
  split
  · subst j
    exact h.le starts hb hv
  · exact hv

/-- A set that was looked at is what its block gives, and the others were in that already. -/
theorem mem_look {starts j v b'} (hb' : m.blocks[j]? = some b') (hv : v ∈ (update m id l).set starts j) :
    v ∈ l.look starts b' := by
  rw [h.set_update hb] at hv
  split at hv
  · subst j
    cases hb.symm.trans hb'
    exact hv
  · exact h.le starts hb' hv

theorem update : Rising m (update m id l) where
  size starts := by rw [sets_update l hb, Array.size_setIfInBounds, h.size]
  held starts _ _ _ hb' hv := by
    have hl := h.mem_look hb hb' hv
    cases starts with
    | false => exact h.held_of_blockOut hl
    | true => exact h.held_of_before hl
  le _ _ _ _ hb' hv := (h.le_update hb).look (h.mem_look hb hb' hv)

end

theorem updates (h : Rising m l) :
    ∀ {ids : List Nat}, (∀ id ∈ ids, id < m.blocks.size) →
      Rising m (ids.foldr (Liveness.update m) l) ∧ l.Le (ids.foldr (Liveness.update m) l)
  | [], _ => ⟨h, .refl l⟩
  | id :: ids, hi => by
    obtain ⟨hr, hle⟩ := h.updates fun j hj => hi j (mem_cons_of_mem _ hj)
    have hb := Array.getElem?_eq_getElem (hi id mem_cons_self)
    exact ⟨hr.update hb, hle.trans (hr.le_update hb)⟩

theorem round (h : Rising m l) : Rising m (round m l) ∧ l.Le (Liveness.round m l) :=
  h.updates fun _ hid => mem_range.mp hid

theorem eq_of_le (h : Rising m l) (h' : Rising m l') (hle : l.Le l') (hge : l'.Le l) : l = l' := by
  have hs : ∀ starts, l.sets starts = l'.sets starts := by
    intro starts
    apply Array.ext ((h.size starts).trans (h'.size starts).symm)
    intro i hi hi'
    have heq : l.set starts i = l'.set starts i := VarSet.ext fun v => ⟨hle starts i v, hge starts i v⟩
    simpa [set, hi, hi'] using heq
  obtain ⟨ins, outs⟩ := l
  obtain ⟨ins', outs'⟩ := l'
  rw [show ins = ins' from hs true, show outs = outs' from hs false]

theorem update_eq_of_updates_eq (h : Rising m l) :
    ∀ {ids : List Nat}, (∀ id ∈ ids, id < m.blocks.size) → ids.foldr (Liveness.update m) l = l →
      ∀ id ∈ ids, Liveness.update m id l = l
  | [], _, _, id, hid => absurd hid not_mem_nil
  | j :: ids, hids, heq, id, hid => by
    have hi' : ∀ id ∈ ids, id < m.blocks.size := fun i hi => hids i (mem_cons_of_mem _ hi)
    have hj := Array.getElem?_eq_getElem (hids j mem_cons_self)
    obtain ⟨hr, hle⟩ := h.updates hi'
    rw [foldr_cons] at heq
    -- the sets between the looks lie between `l` and `l`
    have hm : ids.foldr (Liveness.update m) l = l := by
      have hge := hr.le_update hj
      rw [heq] at hge
      exact hr.eq_of_le h hge hle
    rw [hm] at heq
    rcases mem_cons.mp hid with rfl | hid
    · exact heq
    · exact h.update_eq_of_updates_eq hi' hm id hid

/-! ### There are rounds enough -/

/-- All members, with the side and the block of their set. -/
def members (m : Linear.Method) (l : Liveness) : Finset (Bool × Nat × Nat) :=
  (Finset.univ ×ˢ Finset.range m.blocks.size ×ˢ Finset.range m.varBound).filter fun p =>
    p.2.2 ∈ l.set p.1 p.2.1

theorem card_members_le (m : Linear.Method) (l : Liveness) :
    (members m l).card ≤ 2 * m.blocks.size * m.varBound := by
  refine (Finset.card_filter_le _ _).trans ?_
  rw [Finset.card_product, Finset.card_product, Finset.card_range, Finset.card_range,
    Finset.card_univ, Fintype.card_bool, Nat.mul_assoc]

theorem card_members_lt (h : Rising m l) (h' : Rising m l') (hle : l.Le l') (hne : l' ≠ l) :
    (members m l).card < (members m l').card := by
  apply Finset.card_lt_card
  refine Finset.ssubset_iff_subset_ne.mpr ⟨?_, fun heq => ?_⟩
  · intro p hp
    rw [members, Finset.mem_filter] at hp ⊢
    exact ⟨hp.1, hle _ _ _ hp.2⟩
  · refine hne (h'.eq_of_le h (fun starts id v hv => ?_) hle)
    -- a member of `l'` is a variable of the method, so it is counted, and then it is one of `l`
    obtain ⟨b, hb⟩ := h'.exists_block hv
    have hm : (starts, id, v) ∈ members m l' := by
      simp only [members, Finset.mem_filter, Finset.mem_product, Finset.mem_univ, Finset.mem_range, true_and]
      exact ⟨⟨(Array.getElem?_eq_some_iff.mp hb).1, h'.lt_varBound starts hb hv⟩, hv⟩
    rw [← heq, members, Finset.mem_filter] at hm
    exact hm.2

theorem iterate : ∀ {fuel : Nat} {l : Liveness}, Rising m l →
    2 * m.blocks.size * m.varBound < fuel + (members m l).card →
      Rising m (iterate m fuel l) ∧
        Liveness.round m (Liveness.iterate m fuel l) = Liveness.iterate m fuel l
  | 0, l, h, hf => by
    have := card_members_le m l
    omega
  | fuel + 1, l, h, hf => by
    unfold Liveness.iterate
    by_cases heq : Liveness.round m l = l
    · rw [if_pos heq]
      exact ⟨h, heq⟩
    · rw [if_neg heq]
      obtain ⟨hr, hle⟩ := h.round
      have := h.card_members_lt hr hle heq
      exact iterate hr (by omega)

end Rising

theorem compute_rising (m : Linear.Method) : Rising m (compute m) :=
  (Rising.iterate (Rising.empty m) (by omega)).1

theorem round_compute (m : Linear.Method) : round m (compute m) = compute m :=
  (Rising.iterate (Rising.empty m) (by omega)).2

theorem update_compute (m : Linear.Method) (hid : id < m.blocks.size) : update m id (compute m) = compute m :=
  (compute_rising m).update_eq_of_updates_eq (fun _ h => mem_range.mp h) (round_compute m) id (mem_range.mpr hid)

theorem set_compute (hb : m.blocks[id]? = some b) (starts : Bool) :
    (compute m).set starts id = (compute m).look starts b := by
  have h := (compute_rising m).set_update hb starts id
  rwa [if_pos rfl, update_compute m (Array.getElem?_eq_some_iff.mp hb).1] at h

theorem liveOut_compute (hb : m.blocks[id]? = some b) :
    (compute m).liveOut id = (compute m).blockOut b := set_compute hb false

/-- Each set is what the sets of the successors give, with the handler among them. -/
def Solves (m : Linear.Method) (l : Liveness) : Prop := ∀ (id : Nat) (b : Linear.Block), m.blocks[id]? = some b →
  l.liveOut id = l.blockOut b ∧ l.liveIn id = l.blockIn b (l.blockOut b)

theorem solves_compute (m : Linear.Method) : Solves m (compute m) := fun _ _ hb =>
  ⟨liveOut_compute hb, set_compute hb true⟩

theorem Solves.mem_of_held (hs : Solves m l) {rest} (h : HeldAt m v b.handler rest b.term) :
    v ∈ liveBefore (l.handlerIn b) rest (afterInsns b (l.blockOut b)) := by
  -- for every block with this handler and this terminator, whatever its instructions
  suffices ha : ∀ {handler rest term}, HeldAt m v handler rest term → ∀ b : Linear.Block, b.handler = handler →
      b.term = term → v ∈ liveBefore (l.handlerIn b) rest (afterInsns b (l.blockOut b)) from ha h b rfl rfl
  intro handler rest term h
  induction h with
  | use hv =>
    intro b _ _
    exact Insn.mem_liveBefore.mpr (.inl hv)
  | step hd _ ih =>
    intro b hh ht
    exact Insn.mem_liveBefore.mpr (.inr (Insn.mem_liveAt.mpr (.inl ⟨hd, ih b hh ht⟩)))
  | @throw i blk _ _ _ hc hbl _ ih =>
    intro b hh _
    refine Insn.mem_liveBefore.mpr (.inr (Insn.mem_liveAt.mpr (.inr ⟨hc, ?_⟩)))
    refine mem_handlerIn.mpr ⟨i, hh, ?_⟩
    rw [(hs _ _ hbl).2]
    exact ih blk rfl rfl
  | termUse hv =>
    intro b _ ht
    exact mem_afterInsns.mpr (.inl (ht ▸ hv))
  | @goes _ _ i blk hi hbl _ ih =>
    intro b _ ht
    refine mem_afterInsns.mpr (.inr (mem_blockOut.mpr ⟨i, ?_, ?_⟩))
    · exact mem_append_left _ (ht ▸ hi)
    · rw [(hs _ _ hbl).2]
      exact ih blk rfl rfl
  | @leaves _ i blk hbl _ ih =>
    intro b hh _
    refine mem_afterInsns.mpr (.inr (mem_blockOut.mpr ⟨i, ?_, ?_⟩))
    · exact mem_append_right _ (Option.mem_toList.mpr hh)
    · rw [(hs _ _ hbl).2]
      exact ih blk rfl rfl

/-- What is live before some instructions of a block, in the solution. -/
def before (m : Linear.Method) (b : Linear.Block) (rest : List Insn) : VarSet :=
  liveBefore ((compute m).handlerIn b) rest (afterInsns b ((compute m).blockOut b))

theorem liveIn_eq_before (hb : m.blocks[id]? = some b) :
    (compute m).liveIn id = before m b b.insns := set_compute hb true

/-- The computed sets have exactly the variables that are held. -/
theorem mem_before_iff {rest} : v ∈ before m b rest ↔ HeldAt m v b.handler rest b.term :=
  ⟨(compute_rising m).held_of_before, (solves_compute m).mem_of_held⟩

theorem exists_iterate (m : Linear.Method) : ∀ (fuel : Nat) (l : Liveness),
    ∃ n ≤ fuel, iterate m fuel l = (round m)^[n] l
  | 0, l => ⟨0, Nat.le_refl 0, rfl⟩
  | fuel + 1, l => by
    by_cases hl : round m l = l
    · exact ⟨0, Nat.zero_le _, if_pos hl⟩
    · obtain ⟨n, hn, h⟩ := exists_iterate m fuel (round m l)
      exact ⟨n + 1, Nat.succ_le_succ hn, (if_neg hl).trans h⟩

theorem Solves.liveIn_le (hs : Solves m l) (hv : v ∈ (compute m).liveIn id) : v ∈ l.liveIn id := by
  obtain ⟨b, hb, hh⟩ := (compute_rising m).held_of_successor hv
  rw [(hs id b hb).2]
  exact hs.mem_of_held hh

/-- **Liveness ends with the least solution.** After at most `2 * blocks * variables + 1` rounds a
round changes nothing. The sets then solve the equations of the blocks and are contained in those of
every solution. A variable is live at the start of a block exactly if a path leads from there to a
use of it before an assignment. -/
theorem compute_is_least_solution (m : Linear.Method) :
    (∃ n ≤ 2 * m.blocks.size * m.varBound + 1, compute m = (round m)^[n] (empty m.blocks.size) ∧
      round m (compute m) = compute m) ∧
    Solves m (compute m) ∧
    (∀ l, Solves m l → ∀ id b, m.blocks[id]? = some b → ∀ v,
      (v ∈ (compute m).liveIn id → v ∈ l.liveIn id) ∧ (v ∈ (compute m).liveOut id → v ∈ l.liveOut id)) ∧
    ∀ id b, m.blocks[id]? = some b → ∀ v, v ∈ (compute m).liveIn id ↔ HeldAt m v b.handler b.insns b.term := by
  obtain ⟨n, hn, he⟩ := exists_iterate m (2 * m.blocks.size * m.varBound + 1) (empty m.blocks.size)
  refine ⟨⟨n, hn, he, round_compute m⟩, solves_compute m, fun l hs id b hb v => ⟨fun hv => ?_, fun hv => ?_⟩, ?_⟩
  · exact hs.liveIn_le hv
  · rw [liveOut_compute hb] at hv
    obtain ⟨i, hi, hv⟩ := mem_blockOut.mp hv
    rw [(hs id b hb).1]
    exact mem_blockOut.mpr ⟨i, hi, hs.liveIn_le hv⟩
  · intro id b hb v
    rw [liveIn_eq_before hb, mem_before_iff]

theorem mem_liveAt_iff {insn rest} :
    v ∈ insn.liveAt ((compute m).handlerIn b) (before m b rest) ↔ HeldAcross m b insn rest v := by
  have hh : v ∈ (compute m).handlerIn b ↔
      ∃ i blk, b.handler = some i ∧ m.blocks[i]? = some blk ∧
        HeldAt m v blk.handler blk.insns blk.term := by
    rw [mem_handlerIn]
    constructor
    · rintro ⟨i, hi, hv⟩
      obtain ⟨blk, hbl, hh⟩ := (compute_rising m).held_of_successor hv
      exact ⟨i, blk, hi, hbl, hh⟩
    · rintro ⟨i, blk, hi, hbl, hv⟩
      rw [← mem_before_iff, ← liveIn_eq_before hbl] at hv
      exact ⟨i, hi, hv⟩
  rw [Insn.mem_liveAt, mem_before_iff, hh]
  rfl

theorem mem_stops_compute (hb : m.blocks[id]? = some b) {point} :
    point ∈ (compute m).stops b id ↔ ∃ pre insn rest, b.insns = pre ++ insn :: rest ∧
      insn.isStop = true ∧ point =
        ⟨pre.length, insn.isCall, insn.liveAt ((compute m).handlerIn b) (before m b rest)⟩ := by
  unfold stops
  rw [mem_livePoints, liveOut_compute hb]
  simp only [Nat.zero_add]
  rfl

theorem mem_acrossCalls : v ∈ acrossCalls ((compute m).allStops m) ↔
    ∃ (id : Nat) (b : Linear.Block) (pre : List Insn) (insn : Insn) (rest : List Insn),
      m.blocks[id]? = some b ∧ b.insns = pre ++ insn :: rest ∧ insn.isCall = true ∧
        HeldAcross m b insn rest v := by
  rw [acrossCalls, VarSet.mem_foldl_union, allStops, Array.toList_mapIdx]
  simp only [VarSet.not_mem_empty, false_or, mem_filter, mem_flatten, mem_mapIdx]
  constructor
  · rintro ⟨point, ⟨⟨points, ⟨id, hid, rfl⟩, hp⟩, hc⟩, hv⟩
    have hb := Array.getElem?_eq_getElem (by simpa using hid)
    obtain ⟨pre, insn, rest, hi, -, rfl⟩ := (mem_stops_compute hb).mp hp
    exact ⟨id, _, pre, insn, rest, hb, hi, hc, mem_liveAt_iff.mp hv⟩
  · rintro ⟨id, b, pre, insn, rest, hb, hi, hc, hv⟩
    obtain ⟨hid, rfl⟩ := Array.getElem?_eq_some_iff.mp hb
    have hp := (mem_stops_compute hb).mpr
      ⟨pre, insn, rest, hi, Insn.isStop_of_isCall hc, rfl⟩
    exact ⟨_, ⟨⟨_, ⟨id, by simpa using hid, rfl⟩, hp⟩, hc⟩, mem_liveAt_iff.mpr hv⟩

end
end Liveness
end StackCompiler
