/-
The call sites of compiled methods. Stops have different positions, and the word
at a direct call is a call that is not linked yet.
-/
import StackCompiler.Proofs.EmittedCode

namespace StackCompiler

open List Emission CompiledMethod StackCompiler.Bundle CodeCache

namespace Emission
open Linear

/-! ## Marks -/

/-- Lines in which every mark of a stop stands before the instruction of the stop. -/
inductive Marked : List Line → Prop
  | nil : Marked []
  | line {line rest} (hline : ∀ position, line.stopAt? position = none)
      (hrest : Marked rest) : Marked (line :: rest)
  | stop {kind bci slots registers rest} (hrest : Marked rest) :
      Marked (.stop kind bci slots registers :: .insn (stopOpcode kind) (stopOperands kind) :: rest)

theorem Marked.append {xs ys} (hx : Marked xs) (hy : Marked ys) : Marked (xs ++ ys) := by
  induction hx with
  | nil => exact hy
  | line hl _ ih => exact .line hl ih
  | stop _ ih => exact .stop ih

theorem Marked.flatMap {α : Type} {items : List α} {f} (h : ∀ x ∈ items, Marked (f x)) :
    Marked (items.flatMap f) := by
  induction items with
  | nil => exact .nil
  | cons x items ih =>
    rw [forall_mem_cons] at h
    exact h.1.append (ih h.2)

theorem Plain.marked {lines} (h : Plain lines) : Marked lines := by
  induction lines with
  | nil => exact .nil
  | cons line rest ih =>
    rw [plain_cons] at h
    exact .line (Line.stopAt?_of_isInsn h.1) (ih h.2)

theorem marked_trapBehind (i : Insn) : Marked (trapBehind i) := by
  unfold trapBehind
  split
  · exact .line (fun _ => rfl) .nil
  · exact .nil

section
variable {m : Linear.Method} {a : Allocation}

theorem marked_insn {id index i} (ha : ∀ what, Line.refuse what ∉ insn m a id index i) :
    Marked (insn m a id index i) := by
  cases hs : i.stop? with
  | none => exact (plain_insn a m id index hs).marked
  | some p =>
    obtain ⟨before, after, heq, hb, haf⟩ := insn_of_stop a m id index hs ha
    rw [heq]
    exact hb.marked.append (.stop (haf.marked.append (marked_trapBehind i)))

/-- Every stop is marked right before its instruction. -/
theorem marked_lines (ha : ∀ what, Line.refuse what ∉ lines m a) : Marked (lines m a) := by
  rw [lines_eq] at ha ⊢
  refine (plain_prologue _).marked.append (.flatMap fun p hp => ?_)
  have hb : ∀ what, Line.refuse what ∉ block m a p.2 p.1 := fun what hm =>
    ha what (mem_append_right _ (mem_flatMap.mpr ⟨p, hp, hm⟩))
  rw [block_eq] at hb ⊢
  refine .line (fun _ => rfl) (.append (.flatMap fun q hq => marked_insn fun what hm => ?_)
    (plain_terminator a _ _).marked)
  exact hb what (mem_cons_of_mem _ (mem_append_left _ (mem_flatMap.mpr ⟨q, hq, hm⟩)))

end

/-- Stops have rising positions, and the word at each of them is its instruction. -/
theorem Marked.stops {lines} (h : Marked lines) : ∀ {words : List (BitVec 32)} {position : Nat},
    Coded lines words → (stopsFrom position lines).Pairwise (fun x y => x.position < y.position) ∧
      ∀ stop ∈ stopsFrom position lines, ∃ k w, stop.position = position + 4 * k ∧ words[k]? = some w ∧
        (stopOpcode stop.kind).assemble (stopOperands stop.kind) = .ok w := by
  induction h with
  | nil => exact fun _ => ⟨.nil, fun _ h => absurd h not_mem_nil⟩
  | @line line rest hl _ ih =>
    intro words position hc
    cases hc with
    | @cons _ _ ws words hen hre =>
      obtain ⟨hr, hwo⟩ := @ih _ (position + line.size) hre
      have hst : stopsFrom position (line :: rest) = stopsFrom (position + line.size) rest := by
        rw [stopsFrom, hl]
        rfl
      rw [hst]
      refine ⟨hr, fun stop hs => ?_⟩
      obtain ⟨k, w, hp, hw, ha⟩ := hwo stop hs
      refine ⟨ws.length + k, w, ?_, ?_, ha⟩
      · rw [hp, hen.size]
        omega
      · rw [getElem?_append_right (Nat.le_add_right _ _), Nat.add_sub_cancel_left, hw]
  | @stop kind bci slots registers rest _ ih =>
    intro words position hc
    cases hc with
    | cons hm hc =>
      cases hm
      cases hc with
      | cons hi hre =>
        cases hi with
        | @insn _ _ w ha =>
          obtain ⟨hr, hwo⟩ := @ih _ (position + 4) hre
          have hst : stopsFrom position (.stop kind bci slots registers ::
              .insn (stopOpcode kind) (stopOperands kind) :: rest) =
                ⟨kind, position, bci, slots, registers⟩ :: stopsFrom (position + 4) rest := rfl
          rw [hst]
          constructor
          · refine pairwise_cons.mpr ⟨fun stop hs => ?_, hr⟩
            obtain ⟨k, w, hp, -⟩ := hwo stop hs
            show position < stop.position
            omega
          · refine forall_mem_cons.mpr ⟨⟨0, w, rfl, rfl, ha⟩, fun stop hs => ?_⟩
            obtain ⟨k, w', hp, hw, ha'⟩ := hwo stop hs
            exact ⟨k + 1, w', by omega, hw, ha'⟩

end Emission

/-! ## Call sites -/

namespace Bundle

/-- The position of a stop, with the mark of a call of a native function. -/
def markedPosition (s : Stop) : Nat :=
  match s.kind with
  | .direct _ true => s.position ||| nativeBit
  | _ => s.position

/-- A position that no stop behind has leads to its own stop. -/
theorem markNative_at {done rest} {s} (hs : ∀ t ∈ rest, s.position ≠ t.position)
    (marked behind : List Nat) (hm : marked.length = done.length) :
    markNative ((done ++ s :: rest).map (·.position)) (marked ++ s.position :: behind) s =
      marked ++ markedPosition s :: behind := by
  have hl : ((done ++ s :: rest).map (·.position)).zipIdx.reverse.lookup s.position = some done.length := by
    refine lookup_eq_some_iff.mpr ⟨((rest.map (·.position)).zipIdx (done.length + 1)).reverse,
      (done.map (·.position)).zipIdx.reverse, ?_, fun p hp => ?_⟩
    · simp [zipIdx_append]
    · obtain ⟨t, ht, hp⟩ := mem_map.mp (fst_mem_of_mem_zipIdx (mem_reverse.mp hp))
      simp [← hp, hs t ht]
  unfold markNative markedPosition
  rw [hl]
  split
  next callee i hk hi =>
    cases hi
    rw [hk, modify_eq_take_drop, ← hm, take_left, drop_left]
    rfl
  next hn =>
    split
    next callee hk => exact absurd rfl (hn callee _ hk)
    next => rfl

theorem stopPositionsOf_eq {stops} (h : stops.Pairwise fun x y => x.position ≠ y.position) :
    stopPositionsOf stops = stops.map markedPosition := by
  -- the stops before are marked already
  have hf : ∀ {xs done : List Stop}, stops = done ++ xs →
      xs.foldl (markNative (stops.map (·.position))) (done.map markedPosition ++ xs.map (·.position)) =
        stops.map markedPosition := by
    intro xs
    induction xs with
    | nil => simp +contextual
    | cons s xs ih =>
      intro done hst
      have hs := (pairwise_cons.mp (pairwise_append.mp (hst ▸ h)).2.1).1
      have hm := markNative_at hs (done.map markedPosition) (xs.map (·.position)) (length_map _)
      have hr := ih (hst.trans (append_cons ..))
      rw [map_append, append_assoc] at hr
      rw [← hst] at hm
      rw [foldl_cons, map_cons, hm]
      exact hr
  exact @hf stops [] rfl

end Bundle

/-- The word of a call that is not linked. -/
def unlinkedCall : BitVec 32 := 0x94000000

/-- The call site at a stop of code with a given start: a direct call that is not native. -/
def Stop.site? (base : Nat) (stop : Stop) : Option CallSite :=
  match stop.kind with
  | .direct callee false => some ⟨callee, base + stop.position⟩
  | _ => none

theorem Stop.site?_eq_some {stop : Stop} {site} {base} (h : stop.site? base = some site) :
    stop.kind = .direct site.callee false ∧ site.address = base + stop.position := by
  unfold site? at h
  split at h
  next callee hk =>
    cases h
    exact ⟨hk, rfl⟩
  next => cases h

theorem Stop.site?_eq_none {stop : Stop} {base} (h : stop.kind.rank ≠ 0) : stop.site? base = none := by
  unfold site?
  split
  next hk =>
    rw [hk] at h
    exact absurd rfl h
  next => rfl

/-- What linking relies on in a method. -/
structure CompiledMethod.Sited (m : CompiledMethod) : Prop where
  codeOffset : m.bundle.codeOffset = m.bundle.ownLayout.offset .code
  code_pos : 0 < m.bundle.code.size
  positions : m.directCalls ≤ m.bundle.stopPositions.length
  rising : (callSitesOf m).Pairwise fun x y => x.address < y.address
  /-- A call site is a word of the code that is not linked. -/
  site : ∀ site ∈ callSitesOf m, ∃ k, site.address = m.codeStart + 4 * k ∧
    4 * k + 4 ≤ m.bundle.code.size ∧
    (m.bundle.code.extract (4 * k) (4 * k + 4)).toList = Bytes.ofWord unlinkedCall

namespace CodeCache

theorem mem_callSitesOf {m site} : site ∈ callSitesOf m ↔
    ∃ i position, m.bundle.callees[i]? = some site.callee ∧ m.isNativeCall i = false ∧
      m.stopPosition? i = some position ∧ site.address = m.codeStart + position := by
  simp only [callSitesOf, mem_filterMap, Prod.exists, mem_zipIdx_iff_getElem?]
  constructor
  · rintro ⟨callee, i, hc, hs⟩
    split at hs
    next => cases hs
    next hn =>
      obtain ⟨position, hp, rfl⟩ := Option.map_eq_some_iff.mp hs
      exact ⟨i, position, hc, Bool.eq_false_iff.mpr hn, hp, rfl⟩
  · rintro ⟨i, position, hc, hn, hp, ha⟩
    refine ⟨site.callee, i, hc, ?_⟩
    rw [hn, hp, if_neg Bool.false_ne_true, Option.map_some, ← ha]

section
variable {cm : CompiledMethod} {ordered : List Stop}
  (hpo : cm.bundle.stopPositions = ordered.map markedPosition)
  (hsm : ∀ stop ∈ ordered, stop.position < nativeBit)
include hpo hsm

theorem site?_direct {i stop} (hi : ordered[i]? = some stop) (hlt : i < cm.directCalls) {callee native}
    (hk : stop.kind = .direct callee native) :
    (if cm.isNativeCall i then none
      else (cm.stopPosition? i).map fun position => (⟨callee, cm.codeStart + position⟩ : CallSite)) =
        stop.site? cm.codeStart := by
  have hl := hsm stop (mem_of_getElem? hi)
  have hg : cm.bundle.stopPositions[i]? = some (markedPosition stop) := by
    rw [hpo, getElem?_map, hi]
    rfl
  have his : cm.isNativeCall i = decide (markedPosition stop ≥ nativeBit) := by
    rw [isNativeCall, getD_eq_getElem?_getD, hg, decide_eq_true hlt, Bool.true_and]
    rfl
  rw [his, stopPosition?, hg]
  unfold markedPosition Stop.site?
  rw [hk]
  cases native with
  | true => simp [Nat.right_le_or]
  | false => simp [Nat.not_le.mpr hl, Nat.mod_eq_of_lt hl]

/-- The sites of direct calls that stand in a row among the stops. -/
theorem sites_direct : ∀ {direct done rest : List Stop}, ordered = done ++ (direct ++ rest) →
    (∀ stop ∈ direct, stop.kind.rank = 0) → done.length + direct.length ≤ cm.directCalls →
    ((calleesOf direct).zipIdx done.length).filterMap (fun p =>
      if cm.isNativeCall p.2 then none
      else (cm.stopPosition? p.2).map fun position => (⟨p.1, cm.codeStart + position⟩ : CallSite)) =
        direct.filterMap (Stop.site? cm.codeStart)
  | [], _, _, _, _, _ => rfl
  | stop :: direct, done, rest, ho, hd, hco => by
    rw [forall_mem_cons] at hd
    have hi : ordered[done.length]? = some stop := by
      rw [ho, getElem?_append_right (Nat.le_refl _), Nat.sub_self]
      rfl
    rw [length_cons] at hco
    have hr := @sites_direct direct (done ++ [stop]) rest (by simp [ho]) hd.2
      (by rw [length_append, length_singleton]; omega)
    rw [length_append, length_singleton] at hr
    cases hk : stop.kind with
    | direct callee native =>
      have hc : calleesOf (stop :: direct) = callee :: calleesOf direct := by
        simp [calleesOf, hk]
      rw [hc, zipIdx_cons, filterMap_cons, filterMap_cons, hr,
        site?_direct hpo hsm hi (by omega) hk]
    | indirect => rw [hk] at hd; cases hd.1
    | safepoint => rw [hk] at hd; cases hd.1

end
end CodeCache

namespace Bundle.Tables
variable {m : Linear.Method} {a : Allocation} {e : Emission} {cm : CompiledMethod}

/-- Only direct calls matter to a function that skips the other stops. -/
theorem filterMap_direct {β : Type} {f : Stop → Option β} (hf : ∀ stop, stop.kind.rank ≠ 0 → f stop = none)
    (stops : List Stop) : (stops.filter (·.kind.rank = 0)).filterMap f = stops.filterMap f := by
  rw [filterMap_filter]
  refine filterMap_congr fun stop _ => ?_
  by_cases hr : stop.kind.rank = 0
  · simp [hr]
  · simp [hr, hf stop hr]

theorem callees_direct (ht : Tables m a e cm.bundle) :
    calleesOf (e.stops.toList.filter (·.kind.rank = 0)) = cm.bundle.callees := by
  rw [ht.callees, ← filter_orderStops, calleesOf, filterMap_direct]
  · rfl
  · intro stop hr
    cases hk : stop.kind with
    | direct => exact absurd (by rw [hk]; rfl) hr
    | _ => rfl

section
variable (he : ofMethod m a = .ok e)
include he

theorem stop_word (ht : Tables m a e cm.bundle) :
    (e.stops.toList.Pairwise fun x y => x.position < y.position) ∧
      ∀ stop ∈ e.stops.toList, ∃ k w, stop.position = 4 * k ∧ 4 * k + 4 ≤ cm.bundle.code.size ∧
        (cm.bundle.code.extract (4 * k) (4 * k + 4)).toList = Bytes.ofWord w ∧
        (stopOpcode stop.kind).assemble (stopOperands stop.kind) = .ok w := by
  obtain ⟨⟨words, hco, hc⟩, -⟩ := ht.coded he
  have hm := marked_lines (added_of_addAll he).allowed
  obtain ⟨hr, hwo⟩ := @Emission.Marked.stops _ hm _ 0 hco
  have hs : e.stops.toList = stopsFrom 0 (lines m a) := (added_of_addAll he).stops
  rw [hs]
  refine ⟨hr, fun stop hst => ?_⟩
  obtain ⟨k, w, hp, hw, ha⟩ := hwo stop hst
  refine ⟨k, w, by omega, ?_, Bytes.extract_words hc hw, ha⟩
  have hlt := (List.getElem?_eq_some_iff.mp hw).1
  rw [← Array.length_toList, hc, Bytes.length_words]
  omega

theorem positions_ne (ht : Tables m a e cm.bundle) :
    (orderStops e.stops.toList).Pairwise fun x y => x.position ≠ y.position :=
  ((mergeSort_perm _ _).pairwise_iff fun hne => hne.symm).mpr
    ((ht.stop_word he).1.imp fun hlt => Nat.ne_of_lt hlt)

theorem marked (ht : Tables m a e cm.bundle) :
    cm.bundle.stopPositions = (orderStops e.stops.toList).map markedPosition :=
  ht.stopPositions.trans (stopPositionsOf_eq (ht.positions_ne he))

theorem callSitesOf_eq (ht : Tables m a e cm.bundle) (hsm : cm.bundle.code.size ≤ callReach) :
    callSitesOf cm = e.stops.toList.filterMap (Stop.site? cm.codeStart) := by
  have hl : ∀ stop ∈ orderStops e.stops.toList, stop.position < nativeBit := by
    intro stop hs
    obtain ⟨k, w, hp, hen, -⟩ := (ht.stop_word he).2 stop (mem_mergeSort.mp hs)
    have hr : callReach < nativeBit := by decide
    omega
  have ho := orderStops_eq e.stops.toList
  rw [append_assoc] at ho
  have hc : cm.directCalls = (e.stops.toList.filter (·.kind.rank = 0)).length := by
    rw [directCalls, ht.callees, length_calleesOf, filter_orderStops]
  have hsi := @sites_direct cm _ (ht.marked he) hl _ [] _ ho
    (fun stop hs => of_decide_eq_true (mem_filter.mp hs).2) (by simp [hc])
  rw [ht.callees_direct, filterMap_direct fun stop => Stop.site?_eq_none] at hsi
  exact hsi

theorem code_pos {b} (ht : Tables m a e b) : 0 < b.code.size := by
  obtain ⟨⟨words, hc, hco⟩, -⟩ := ht.coded he
  have hs := hc.size
  have hp : 4 ≤ codeSize (lines m a) := Nat.le_add_right 4 _
  rw [← Array.length_toList, hco, Bytes.length_words]
  omega

/-- The call sites are the direct calls that are not native, in the order of the code. -/
theorem sited (ht : Tables m a e cm.bundle) (hsm : cm.bundle.code.size ≤ callReach) :
    cm.Sited := by
  obtain ⟨hr, hwo⟩ := ht.stop_word he
  refine ⟨ht.codeOffset, ht.code_pos he, ?_, ?_, ?_⟩
  · rw [directCalls, ht.callees, ht.stopPositions, length_calleesOf, length_stopPositionsOf]
    exact length_filter_le _ _
  · rw [ht.callSitesOf_eq he hsm, pairwise_filterMap]
    refine hr.imp fun {x y} hlt site hs site' hs' => ?_
    rw [(Stop.site?_eq_some hs).2, (Stop.site?_eq_some hs').2]
    omega
  · intro site hs
    rw [ht.callSitesOf_eq he hsm] at hs
    obtain ⟨stop, hst, hs⟩ := mem_filterMap.mp hs
    obtain ⟨hk, had⟩ := Stop.site?_eq_some hs
    obtain ⟨k, w, hp, hen, hb, ha⟩ := hwo stop hst
    rw [hk] at ha
    have hw : unlinkedCall = w := Except.ok.inj ((show Opcode.bl.assemble [.rel 0] = _ from rfl).symm.trans ha)
    exact ⟨k, by rw [had, hp], hen, by rw [hb, hw]⟩

end

end Bundle.Tables
end StackCompiler
