/-
The reference maps of compiled code have exactly those references that are held
across a stop (`maps_exact`). What is live is held; the converse fails.
-/
import Mathlib
import StackCompiler.Proofs.AllocationSound
import StackCompiler.Proofs.FinishedMethod

namespace StackCompiler

open Allocation Liveness Convention Emission CodeCache List

/-! ## References that are held across a stop -/

namespace Emission
open Linear

section
variable {m : Linear.Method} {id : Nat} {b : Linear.Block} {pre rest : List Insn} {insn : Insn}

theorem kind_eq_reference_iff {v} : m.vars.getD v default = .reference ↔ m.vars[v]? = some .reference := by
  rw [Array.getD_eq_getD_getElem?]
  cases m.vars[v]? with
  | none => exact ⟨fun h => (nomatch h), fun h => (nomatch h)⟩
  | some kind => simp

variable (hb : m.blocks[id]? = some b) (hinsns : b.insns = pre ++ insn :: rest) (hstop : insn.isStop = true)
include hb hinsns hstop

theorem mem_liveAt {v} :
    v ∈ (ofCode m).liveAt id pre.length ↔ HeldAcross m b insn rest v := by
  have hs : (ofCode m).stops.getD id [] = (compute m).stops b id := by
    rw [ofCode, ofMethod_eq, Array.getD_eq_getD_getElem?]
    simp only [allStops, Array.getElem?_mapIdx, hb, Option.map_some, Option.getD_some]
  let point : LivePoint :=
    ⟨pre.length, insn.isCall, insn.liveAt ((compute m).handlerIn b) (before m b rest)⟩
  have hfi : ((compute m).stops b id).find? (·.index = pre.length) = some point := by
    have hm : point ∈ (compute m).stops b id :=
      (mem_stops_compute hb).mpr ⟨pre, insn, rest, hinsns, hstop, rfl⟩
    cases hf : ((compute m).stops b id).find? (·.index = pre.length) with
    | none => exact absurd (find?_eq_none.mp hf point hm) (by simp [point])
    | some point' =>
      -- only one instruction stands at the place
      obtain ⟨pre', insn', rest', hi', -, rfl⟩ :=
        (mem_stops_compute hb).mp (mem_of_find?_eq_some hf)
      have hl := find?_some hf
      simp only [decide_eq_true_eq] at hl
      obtain ⟨rfl, hc⟩ := append_inj (hi'.symm.trans hinsns) hl
      cases hc
      rfl
  unfold liveAt
  rw [hs, hfi]
  exact VarSet.mem_toList.trans mem_liveAt_iff

/-- What the references that are held across a stop give. -/
theorem mem_liveRefs {f : Var → Option Nat} {n} :
    n ∈ ((((ofCode m).liveAt id pre.length).filter fun v => m.vars.getD v default = .reference).filterMap f).mergeSort ↔
      ∃ v, m.vars[v]? = some .reference ∧ f v = some n ∧ HeldAcross m b insn rest v := by
  simp only [mem_mergeSort, mem_filterMap, mem_filter, decide_eq_true_eq,
    mem_liveAt hb hinsns hstop, kind_eq_reference_iff]
  exact exists_congr fun v => by rw [and_comm (a := HeldAcross ..), and_assoc, and_comm (a := HeldAcross ..)]

theorem mem_liveSlots {slot} :
    slot ∈ (liveRefs m (ofCode m) id pre.length).1 ↔ ∃ v, m.vars[v]? = some .reference ∧
      (ofCode m).location v = .stack slot ∧ HeldAcross m b insn rest v := by
  rw [liveRefs, mem_liveRefs hb hinsns hstop]
  exact exists_congr fun v => by cases (ofCode m).location v <;> simp

theorem mem_liveRegisters {bit} :
    bit ∈ (liveRefs m (ofCode m) id pre.length).2 ↔ ∃ v r, m.vars[v]? = some .reference ∧
      (ofCode m).location v = .register r ∧ mapIndex? r = some bit ∧ HeldAcross m b insn rest v := by
  rw [liveRefs, mem_liveRefs hb hinsns hstop]
  exact exists_congr fun v => by cases (ofCode m).location v <;> simp

end
end Emission

/-! ## An example -/

section
open Linear

/-- Calls a method under a handler that returns the argument, and polls before it returns the result. -/
def polling : StackCompiler.Method where
  key := ⟨"T", "m", "(Ljava/lang/Object;)Ljava/lang/Object;"⟩
  locals := []
  code := [.invokeStatic ⟨"T", "f", "()Ljava/lang/Object;"⟩, .safepoint, .retValue, .stack .pop,
    .stack (.load 0), .retValue]
  handlers := [⟨0, 3, 3⟩]

/-- The protected block of `polling`. -/
def pollingBlock : Linear.Block where
  insns := [.move 2 1, .call (.direct ⟨"T", "f", "()Ljava/lang/Object;"⟩) [] (some 3) false 0, .safepoint 1]
  term := .ret (some 3)
  handler := some 2

/-- The code of `polling`. -/
def pollingCode : Linear.Method where
  key := polling.key
  vars := #[.reference, .reference, .reference, .reference, .reference]
  blocks := #[{ insns := [.parameter 0 0, .move 1 0], term := .jump 1 }, pollingBlock,
    { insns := [.caught 4], term := .ret (some 2), isCatch := true }]

theorem exists_generate {m a} (h : (create ⟨2048, 1, 2048⟩).toOption.map (fun cache =>
      (cache.generate m a false).1.isOk) = some true) :
    ∃ cache cm, create ⟨2048, 1, 2048⟩ = .ok cache ∧ (cache.generate m a false).1 = .ok cm := by
  obtain ⟨cache, hc, hok⟩ := exists_ok_of_map h
  obtain ⟨cm, hcm⟩ := exists_ok_of_isOk hok
  exact ⟨cache, cm, hc, hcm⟩

theorem lower_polling : ∃ g, Graph.build polling = .ok g ∧ lower g = pollingCode :=
  exists_ok_of_map (by decide +kernel)

theorem location_polling : (ofCode pollingCode).location 2 = .stack 0 ∧
    (ofCode pollingCode).location 3 = .register (Convention.reg 9) := by
  constructor <;> cbv

theorem generate_polling : ∃ cache cm, create ⟨2048, 1, 2048⟩ = .ok cache ∧
    (cache.generate pollingCode (ofCode pollingCode) false).1 = .ok cm :=
  exists_generate (by cbv)

end

/-! ## The maps of a finished method -/

section
open Linear

theorem mapIndex_of_mem : ∀ {r}, r ∈ allocatable → ∃ bit < 8 * registerMapBytes, mapIndex? r = some bit := by
  decide

section
variable {m : Linear.Method} {id : Nat} {b : Linear.Block} {pre rest : List Insn} {insn : Insn}
  (hb : m.blocks[id]? = some b) (hinsns : b.insns = pre ++ insn :: rest)
include hb hinsns

theorem hasPlace_of_held {v} (h : HeldAcross m b insn rest v) :
    HasPlace allocatable (ofCode m) ((ofCode m).location v) := by
  obtain ⟨l, hl, hp⟩ := exists_place (Interval.reaches_held hb hinsns h.before)
  rw [location_of_entry hl]
  exact hp

variable (hstop : insn.isStop = true)
include hstop

theorem mem_setBits_liveSlots {slot} :
    slot ∈ setBits (bitmap (((ofCode m).slots + 7) / 8)
        (liveRefs m (ofCode m) id pre.length).1) ↔
      slot ∈ (liveRefs m (ofCode m) id pre.length).1 := by
  rw [mem_setBits_bitmap, mem_liveSlots hb hinsns hstop, and_iff_left_iff_imp]
  rintro ⟨v, -, hp, hh⟩
  have hs := hasPlace_of_held hb hinsns hh
  rw [hp] at hs
  have hlt : slot < (ofCode m).slots := hs
  omega

theorem mem_setBits_liveRegisters {bit} :
    bit ∈ setBits (bitmap registerMapBytes
        (liveRefs m (ofCode m) id pre.length).2) ↔
      bit ∈ (liveRefs m (ofCode m) id pre.length).2 := by
  rw [mem_setBits_bitmap, mem_liveRegisters hb hinsns hstop, and_iff_left_iff_imp]
  rintro ⟨v, r, -, hp, hbi, hh⟩
  have hr := hasPlace_of_held hb hinsns hh
  rw [hp] at hr
  obtain ⟨bit', hlt, hb'⟩ := mapIndex_of_mem hr
  rw [hbi] at hb'
  cases hb'
  exact hlt

end

/-- The stop with an index is that of an instruction, and stands where its code has the mark. -/
structure StopOf (m : Linear.Method) (cm : CompiledMethod) (id k i : Nat) : Prop where
  index : m.stopIndex? id k = some i
  position : cm.stopPosition? i = some (stopPosition (ofCode m) m id k % nativeBit)

variable {cache : CodeCache} {m : Linear.Method} {link : Bool} {cm : CompiledMethod} {id : Nat}
  {b : Linear.Block} {pre rest : List Insn} {insn : Insn}

/-- The maps at a stop have exactly the references that are held across it. -/
theorem maps_exact (h : (cache.generate m (ofCode m) link).1 = .ok cm)
    (hb : m.blocks[id]? = some b) (hinsns : b.insns = pre ++ insn :: rest)
    (hstop : insn.isStop = true) :
    ∃ i, StopOf m cm id pre.length i ∧
      (∃ map, cm.frameMap? i = some map ∧ ∀ slot, slot ∈ setBits map ↔
        ∃ v, m.vars[v]? = some .reference ∧ (ofCode m).location v = .stack slot ∧ HeldAcross m b insn rest v) ∧
      (insn.isCall = false → ∃ map,
        cm.registerMap? (i - (cm.directCalls + cm.bundle.indirectCalls)) = some map ∧
        ∀ bit, bit ∈ setBits map ↔ ∃ v r, m.vars[v]? = some .reference ∧
          (ofCode m).location v = .register r ∧ mapIndex? r = some bit ∧ HeldAcross m b insn rest v) := by
  obtain ⟨e, he, ht⟩ := generate_tables h
  obtain ⟨kind, bci, hk, hsa⟩ := Insn.stop?_of_isStop hstop
  obtain ⟨i, hi, hs⟩ := Method.exists_stopIndex hb hinsns hk
  have hp := ht.stopPosition_at he hs
  have hf := ht.frameMap_at he hs
  refine ⟨i, ⟨hi, hp⟩, ⟨_, hf, fun slot => ?_⟩, fun hc => ?_⟩
  · rw [mem_setBits_liveSlots hb hinsns hstop, mem_liveSlots hb hinsns hstop]
  · refine ⟨_, (ht.registerMap_at he hs (hsa.mpr hc)).2, fun bit => ?_⟩
    rw [mem_setBits_liveRegisters hb hinsns hstop, mem_liveRegisters hb hinsns hstop]

/-- No live reference is missed. -/
theorem reference_maps_complete
    (h : (cache.generate m (ofMethod allocatable m) link).1 = .ok cm)
    (hb : m.blocks[id]? = some b) (hinsns : b.insns = pre ++ insn :: rest)
    (hstop : insn.isStop = true) :
    ∃ i, StopOf m cm id pre.length i ∧
      ∀ v, m.vars[v]? = some .reference → LiveAcross m b insn rest v →
        (∃ slot map, (ofMethod allocatable m).location v = .stack slot ∧
          cm.frameMap? i = some map ∧ slot ∈ setBits map) ∨
        (∃ r bit map, (ofMethod allocatable m).location v = .register r ∧
          insn.isCall = false ∧ mapIndex? r = some bit ∧
          cm.registerMap? (i - (cm.directCalls + cm.bundle.indirectCalls)) = some map ∧
          bit ∈ setBits map) := by
  obtain ⟨i, hi, ⟨map, hm, hsl⟩, hr⟩ := maps_exact h hb hinsns hstop
  refine ⟨i, hi, fun v hre hl => ?_⟩
  cases hp : (ofCode m).location v with
  | stack slot =>
    exact .inl ⟨slot, map, rfl, hm, (hsl slot).mpr ⟨v, hre, hp, hl.held⟩⟩
  | register r =>
    have hc : insn.isCall = false := by
      by_contra hc
      obtain ⟨slot, -, hs⟩ := location_stack hb hinsns (by simpa using hc) hl.held
      rw [hp] at hs
      cases hs
    have hreg := hasPlace_of_held hb hinsns hl.held
    rw [hp] at hreg
    obtain ⟨bit, -, hbi⟩ := mapIndex_of_mem hreg
    obtain ⟨map', hm', hbit⟩ := hr hc
    exact .inr ⟨r, bit, map', rfl, hc, hbi, hm', (hbit bit).mpr ⟨v, r, hre, hp, hbi, hl.held⟩⟩

/-- In `polling`, the argument is reported at the call, which may throw, and the result at the safepoint. -/
theorem reference_maps_complete_polling : ∃ cache cm, create ⟨2048, 1, 2048⟩ = .ok cache ∧
    (cache.generate pollingCode (ofMethod allocatable pollingCode) false).1 = .ok cm ∧
    (∃ i map, StopOf pollingCode cm 1 1 i ∧ cm.frameMap? i = some map ∧ 0 ∈ setBits map) ∧
    ∃ i map, StopOf pollingCode cm 1 2 i ∧
      cm.registerMap? (i - (cm.directCalls + cm.bundle.indirectCalls)) = some map ∧ 0 ∈ setBits map := by
  obtain ⟨cache, cm, hca, h⟩ := generate_polling
  obtain ⟨hs, hr⟩ := location_polling
  refine ⟨cache, cm, hca, h, ?_, ?_⟩
  · obtain ⟨i, hi, hli⟩ := @reference_maps_complete _ _ _ _ 1 pollingBlock [.move 2 1] _ _ h rfl rfl rfl
    have ht : LiveInHandler pollingCode pollingBlock 2 :=
      ⟨2, _, rfl, rfl, .step (by decide) (.termUse (by decide))⟩
    rcases hli 2 rfl (.inr ⟨rfl, ht⟩) with ⟨slot, map, hl, hm, hbi⟩ | ⟨r, _, _, hl, _⟩
    · cases hl.symm.trans hs
      exact ⟨i, map, hi, hm, hbi⟩
    · cases hl.symm.trans hs
  · obtain ⟨i, hi, hli⟩ := @reference_maps_complete _ _ _ _ 1 pollingBlock
      (pollingBlock.insns.take 2) _ _ h rfl rfl rfl
    rcases hli 3 rfl (.inl ⟨by decide, .termUse (by decide)⟩) with ⟨_, _, hl, _⟩ | ⟨r, bit, map, hl, _, hbi, hm, hse⟩
    · cases hl.symm.trans hr
    · cases hl.symm.trans hr
      cases hbi.symm.trans (by decide : mapIndex? (Convention.reg 9) = some 0)
      exact ⟨i, map, hi, hm, hse⟩

end

/-! ## Held, but not live -/

namespace Linear

/-- A path leads to the end of a protected block whose handler holds `v`, which is not assigned on the way. -/
inductive ReachesProtectedEnd (M : Method) (v : Var) : Option Nat → List Insn → Terminator → Prop
  | step {handler : Option Nat} {insn : Insn} {rest : List Insn} {term : Terminator}
      (hdef : insn.def? ≠ some v) (h : ReachesProtectedEnd M v handler rest term) :
      ReachesProtectedEnd M v handler (insn :: rest) term
  | throw {i : Nat} {blk : Block} {insn : Insn} {rest : List Insn} {term : Terminator}
      (hcall : insn.isCall = true) (hblk : M.blocks[i]? = some blk)
      (h : ReachesProtectedEnd M v blk.handler blk.insns blk.term) :
      ReachesProtectedEnd M v (some i) (insn :: rest) term
  | goes {handler : Option Nat} {term : Terminator} {i : Nat} {blk : Block}
      (hi : i ∈ term.successors) (hblk : M.blocks[i]? = some blk)
      (h : ReachesProtectedEnd M v blk.handler blk.insns blk.term) :
      ReachesProtectedEnd M v handler [] term
  | ends {term : Terminator} {i : Nat} {blk : Block} (hblk : M.blocks[i]? = some blk)
      (h : HeldAt M v blk.handler blk.insns blk.term) : ReachesProtectedEnd M v (some i) [] term

/-- What is held is live, or its handler reads it and the end of the protected block is reached. -/
theorem heldAt_iff {M v handler rest term} :
    HeldAt M v handler rest term ↔
      LiveAt M v handler rest term ∨ ReachesProtectedEnd M v handler rest term := by
  constructor
  · intro h
    induction h with
    | use h => exact .inl (.use h)
    | step hd _ ih => exact ih.imp (.step hd) (.step hd)
    | throw hc hbl _ ih => exact ih.imp (.throw hc hbl) (.throw hc hbl)
    | termUse h => exact .inl (.termUse h)
    | goes hi hbl _ ih => exact ih.imp (.goes hi hbl) (.goes hi hbl)
    | leaves hbl h => exact .inr (.ends hbl h)
  · rintro (h | h)
    · exact h.held
    · induction h with
      | step hd _ ih => exact .step hd ih
      | throw hc hbl _ ih => exact .throw hc hbl ih
      | goes hi hbl _ ih => exact .goes hi hbl ih
      | ends hbl h => exact .leaves hbl h

/-- The value from behind an instruction, or from the handler of its call, gets to the end of a
protected block whose handler holds it. -/
def ReachesProtectedEndAcross (M : Method) (b : Block) (insn : Insn) (rest : List Insn) (v : Var) : Prop :=
  insn.def? ≠ some v ∧ ReachesProtectedEnd M v b.handler rest b.term ∨ insn.isCall = true ∧
    ∃ i blk, b.handler = some i ∧ M.blocks[i]? = some blk ∧
      ReachesProtectedEnd M v blk.handler blk.insns blk.term

theorem heldAcross_iff {M b insn rest v} :
    HeldAcross M b insn rest v ↔
      LiveAcross M b insn rest v ∨ ReachesProtectedEndAcross M b insn rest v := by
  simp only [HeldAcross, LiveAcross, LiveInHandler, ReachesProtectedEndAcross, heldAt_iff, and_or_left, exists_or]
  exact or_or_or_comm

end Linear

section
open Linear
variable {cache : CodeCache} {m : Linear.Method} {link : Bool} {cm : CompiledMethod} {id : Nat}
  {b : Linear.Block} {pre rest : List Insn} {insn : Insn}

/-- A bit is set exactly for the place of a reference that is live across the stop, or whose value
gets to the end of a protected block whose handler holds it. -/
theorem reference_maps_sound_iff
    (h : (cache.generate m (ofMethod allocatable m) link).1 = .ok cm)
    (hb : m.blocks[id]? = some b) (hinsns : b.insns = pre ++ insn :: rest)
    (hstop : insn.isStop = true) :
    ∃ i, StopOf m cm id pre.length i ∧
      (∃ map, cm.frameMap? i = some map ∧ ∀ slot, slot ∈ setBits map ↔
        ∃ v, m.vars[v]? = some .reference ∧
          (ofMethod allocatable m).location v = .stack slot ∧
          (LiveAcross m b insn rest v ∨ ReachesProtectedEndAcross m b insn rest v)) ∧
      (insn.isCall = false → ∃ map,
        cm.registerMap? (i - (cm.directCalls + cm.bundle.indirectCalls)) = some map ∧
        ∀ bit, bit ∈ setBits map ↔ ∃ v r, m.vars[v]? = some .reference ∧
          (ofMethod allocatable m).location v = .register r ∧
          mapIndex? r = some bit ∧
          (LiveAcross m b insn rest v ∨ ReachesProtectedEndAcross m b insn rest v)) := by
  have he := maps_exact h hb hinsns hstop
  simp only [heldAcross_iff] at he
  exact he

/-- In `polling`, the argument is reported at the safepoint for the handler, and the result for itself. -/
theorem reference_maps_sound_iff_polling : ∃ cache cm, create ⟨2048, 1, 2048⟩ = .ok cache ∧
    (cache.generate pollingCode (ofMethod allocatable pollingCode) false).1 = .ok cm ∧
    ∃ i map, StopOf pollingCode cm 1 2 i ∧ cm.frameMap? i = some map ∧ 0 ∈ setBits map ∧
      ∃ map', cm.registerMap? (i - (cm.directCalls + cm.bundle.indirectCalls)) = some map' ∧
        0 ∈ setBits map' := by
  obtain ⟨cache, cm, hca, h⟩ := generate_polling
  obtain ⟨hsl, hre⟩ := location_polling
  obtain ⟨i, hi, ⟨map, hm, hs⟩, hr⟩ :=
    @reference_maps_sound_iff _ _ _ _ 1 pollingBlock (pollingBlock.insns.take 2) _ _ h rfl rfl rfl
  obtain ⟨map', hm', hbi⟩ := hr rfl
  have he : ReachesProtectedEnd pollingCode 2 (some 2) [] (.ret (some 3)) :=
    .ends rfl (.step (by decide) (.termUse (by decide)))
  refine ⟨cache, cm, hca, h, i, map, hi, hm, ?_, map', hm', ?_⟩
  · exact (hs 0).mpr ⟨2, rfl, hsl, .inr (.inl ⟨by decide, he⟩)⟩
  · exact (hbi 0).mpr ⟨3, _, rfl, hre, by decide, .inl (.inl ⟨by decide, .termUse (by decide)⟩)⟩

/-- At the safepoint of `polling` a slot is reported, and no variable in it is live. -/
theorem polling_reports_dead : ∃ g cache cm, Graph.build polling = .ok g ∧
    create ⟨2048, 1, 2048⟩ = .ok cache ∧
    (cache.generate (lower g) (ofMethod allocatable (lower g)) false).1 = .ok cm ∧
    (lower g).blocks[1]? = some pollingBlock ∧
    pollingBlock.insns = pollingBlock.insns.take 2 ++ [.safepoint 1] ∧
    ∃ i map, StopOf (lower g) cm 1 2 i ∧ cm.frameMap? i = some map ∧ 0 ∈ setBits map ∧
      ∀ v, (ofMethod allocatable (lower g)).location v = .stack 0 →
        ¬ LiveAcross (lower g) pollingBlock (.safepoint 1) [] v := by
  obtain ⟨g, hg, hc⟩ := lower_polling
  obtain ⟨cache, cm, hca, h⟩ := generate_polling
  obtain ⟨hsl, hr⟩ := location_polling
  obtain ⟨i, hi, ⟨map, hm, hs⟩, -⟩ :=
    @maps_exact _ pollingCode _ _ 1 pollingBlock (pollingBlock.insns.take 2) [] _ h rfl rfl rfl
  refine ⟨g, cache, cm, hg, hca, ?_⟩
  rw [hc]
  refine ⟨h, rfl, rfl, i, map, hi, hm, ?_, fun v hv hl => ?_⟩
  · have hh : HeldAt pollingCode 2 (some 2) [] (.ret (some 3)) :=
      .leaves rfl (.step (by decide) (.termUse (by decide)))
    exact (hs 0).mpr ⟨2, rfl, hsl, .inl ⟨by decide, hh⟩⟩
  · rcases hl with ⟨-, hl⟩ | ⟨hca, -⟩
    · cases hl with
      | termUse hme =>
        -- only the returned variable is read, and it is in a register
        rw [mem_singleton.mp hme, hr] at hv
        cases hv
      | goes hi => exact absurd hi not_mem_nil
    · cases hca

end
end StackCompiler
