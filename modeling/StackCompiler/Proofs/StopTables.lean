/-
The tables of stops of a compiled method, read back. An index leads to the same
stop in all of them (`CompiledMethod.Describes`). A stop records the position of
the instruction it was made for, but that of a throw the position of the node
that is thrown (`stops_record_positions`).
-/
import Mathlib
import StackCompiler.Proofs.CallSites
import StackCompiler.Proofs.ExceptionTable

namespace StackCompiler

open Emission CompiledMethod List Allocation CodeCache StackCompiler.Bundle Convention Support

/-! ## Numbers in groups of seven bits -/

namespace Leb128

theorem decodeWithin_encodeWithin (rest : List UInt8) (limit : Nat) : ∀ {fuel n : Nat}, n ≤ fuel →
    n < 128 ^ (limit + 1) →
      decodeWithin (limit + 1) (encodeWithin fuel n ++ rest) = some (n, (encodeWithin fuel n).length) := by
  have hl : ∀ {limit n : Nat}, n < 128 → decodeWithin (limit + 1) (UInt8.ofNat n :: rest) = some (n, 1) := by
    intro limit n hn
    have hb : (UInt8.ofNat n).toNat = n := UInt8.toNat_ofNat_of_lt' (Nat.lt_trans hn (by decide))
    rw [decodeWithin, hb, if_pos hn]
  induction limit with
  | zero =>
    intro fuel n hf hn
    have hsmall : n < 128 := by omega
    cases fuel with
    | zero => exact hl hsmall
    | succ fuel =>
      rw [encodeWithin, if_pos hsmall]
      exact hl hsmall
  | succ limit ih =>
    intro fuel n hf hn
    cases fuel with
    | zero => exact hl (by omega)
    | succ fuel =>
      rw [encodeWithin]
      split
      next hsmall => exact hl hsmall
      next hla =>
        have hb : (UInt8.ofNat (n % 128 + 128)).toNat = n % 128 + 128 :=
          UInt8.toNat_ofNat_of_lt' (show n % 128 + 128 < 256 by omega)
        rw [cons_append, decodeWithin, hb, if_neg (by omega), ih (by omega) (by omega)]
        simp only [Option.some.injEq, Prod.mk.injEq, length_cons, and_true]
        omega

theorem decode?_encode {n} (h : n < 2 ^ 64) (rest : List UInt8) :
    decode? (encode n ++ rest) = some (n, (encode n).length) := by
  rw [decode?, encode, decodeWithin_encodeWithin rest 9 (Nat.le_refl n) (by omega)]
  simp only [Option.some.injEq, Prod.mk.injEq, and_true]
  omega

theorem get?_flatMap_encode {α : Type} {f : α → Nat} : ∀ {items : List α} {i : Nat} {x : α},
    (∀ x ∈ items, f x < 2 ^ 64) → items[i]? = some x →
      get? i (items.flatMap fun x => encode (f x)) = some (f x)
  | [], _, _, _, h => by cases h
  | y :: items, i, x, hsmall, h => by
    rw [forall_mem_cons] at hsmall
    rw [flatMap_cons, get?, decode?_encode hsmall.1]
    cases i with
    | zero =>
      cases h
      rfl
    | succ i =>
      simp only [drop_left]
      exact get?_flatMap_encode hsmall.2 h

end Leb128

/-! ## Stops by their index -/

namespace Emission

/-- The stops of one kind, in the order of the code. -/
def group (e : Emission) (rank : Nat) : List Stop := e.stops.toList.filter (·.kind.rank = rank)

end Emission

namespace CompiledMethod

/-- All tables have a stop at an index. -/
structure Describes (cm : CompiledMethod) (i : Nat) (stop : Stop) : Prop where
  position : cm.stopPosition? i = some stop.position
  index : cm.stopIndex? stop.position = some i
  native : cm.isNativeCall i = true ↔ ∃ callee, stop.kind = .direct callee true
  bytecode : cm.bytecodePosition? i = some stop.bci
  frame : ∃ map, cm.frameMap? i = some map ∧ ∀ slot, slot ∈ setBits map ↔ slot ∈ stop.slots

end CompiledMethod

namespace Bundle.Tables
open Linear

variable {m : Linear.Method} {a : Allocation} {e : Emission} {cm : CompiledMethod}

theorem orderStops_groups (e : Emission) :
    orderStops e.stops.toList = e.group 0 ++ e.group 1 ++ e.group 2 := orderStops_eq _

section
variable (he : ofMethod m a = .ok e) (ht : Tables m a e cm.bundle)
  (hsmall : cm.bundle.code.size ≤ callReach)
include he ht hsmall

theorem position_lt {stop} (hs : stop ∈ orderStops e.stops.toList) : stop.position < nativeBit := by
  obtain ⟨k, w, hp, hen, -⟩ := (ht.stop_word he).2 stop (mem_mergeSort.mp hs)
  have hr : callReach < nativeBit := by decide
  omega

theorem positions_mod :
    cm.bundle.stopPositions.map (· % nativeBit) = (orderStops e.stops.toList).map (·.position) := by
  rw [ht.stopPositions, map_stopPositionsOf]
  exact map_congr_left fun s hs => Nat.mod_eq_of_lt (ht.position_lt he hsmall hs)

theorem describes_position {i stop} (hi : (orderStops e.stops.toList)[i]? = some stop) :
    cm.stopPosition? i = some stop.position := by
  rw [stopPosition?, ← getElem?_map, ht.positions_mod he hsmall, getElem?_map, hi]
  rfl

theorem describes_index {i stop} (hi : (orderStops e.stops.toList)[i]? = some stop) :
    cm.stopIndex? stop.position = some i := by
  obtain ⟨hlt, rfl⟩ := List.getElem?_eq_some_iff.mp hi
  have hf := findIdx?_map (f := (· % nativeBit)) (l := cm.bundle.stopPositions)
    (p := (· = (orderStops e.stops.toList)[i].position))
  rw [ht.positions_mod he hsmall, findIdx?_map] at hf
  refine hf.symm.trans (findIdx?_eq_some_iff_getElem.mpr ⟨hlt, decide_eq_true rfl, fun j hj => ?_⟩)
  have hne := pairwise_iff_getElem.mp (ht.positions_ne he) j i (Nat.lt_trans hj hlt) hlt hj
  simpa using hne

end

theorem length_groups (ht : Tables m a e cm.bundle) : cm.directCalls = (e.group 0).length ∧
    cm.bundle.indirectCalls = (e.group 1).length ∧ cm.bundle.safepoints = (e.group 2).length := by
  have hf : ∀ {kind : StopKind} {rank : Nat}, (∀ k : StopKind, k = kind ↔ k.rank = rank) →
      (orderStops e.stops.toList).filter (·.kind = kind) = e.group rank := by
    intro kind rank hk
    rw [group, ← filter_orderStops]
    exact filter_congr fun s _ => decide_eq_decide.mpr (hk s.kind)
  refine ⟨?_, ?_, ?_⟩
  · rw [directCalls, ht.callees, length_calleesOf, filter_orderStops, group]
  · rw [ht.indirectCalls, hf fun _ => Linear.Method.kind_eq_indirect_iff]
  · rw [ht.safepoints, hf fun _ => Linear.Method.kind_eq_safepoint_iff]

theorem lt_directCalls (ht : Tables m a e cm.bundle) {i stop} (hi : (orderStops e.stops.toList)[i]? = some stop)
    (hr : stop.kind.rank = 0) : i < cm.directCalls := by
  rw [ht.length_groups.1]
  by_contra hle
  rw [orderStops_groups, append_assoc, getElem?_append_right (Nat.le_of_not_lt hle)] at hi
  rcases mem_append.mp (mem_of_getElem? hi) with hm | hm
  · have := of_decide_eq_true (mem_filter.mp hm).2
    omega
  · have := of_decide_eq_true (mem_filter.mp hm).2
    omega

theorem describes_native (he : ofMethod m a = .ok e) (ht : Tables m a e cm.bundle)
    (hsmall : cm.bundle.code.size ≤ callReach) {i stop} (hi : (orderStops e.stops.toList)[i]? = some stop) :
    cm.isNativeCall i = true ↔ ∃ callee, stop.kind = .direct callee true := by
  have hl := ht.position_lt he hsmall (mem_of_getElem? hi)
  have hg : cm.bundle.stopPositions[i]? = some (markedPosition stop) := by
    rw [ht.marked he, getElem?_map, hi]
    rfl
  rw [isNativeCall, getD_eq_getElem?_getD, hg, Bool.and_eq_true, decide_eq_true_eq,
    decide_eq_true_eq, Option.getD_some]
  unfold markedPosition
  constructor
  · rintro ⟨-, hm⟩
    split at hm
    next callee hk => exact ⟨callee, hk⟩
    next => exact absurd hm (Nat.not_le_of_lt hl)
  · rintro ⟨callee, hk⟩
    refine ⟨ht.lt_directCalls hi (by rw [hk]; rfl), ?_⟩
    rw [hk]
    exact Nat.right_le_or

theorem describes_bytecode (ht : Tables m a e cm.bundle) (hb : ∀ stop ∈ e.stops.toList, stop.bci < 2 ^ 64) {i stop}
    (hi : (orderStops e.stops.toList)[i]? = some stop) :
    cm.bytecodePosition? i = some stop.bci := by
  rw [bytecodePosition?, ht.descriptors, toList_toArray]
  exact Leb128.get?_flatMap_encode (fun s hs => hb s (mem_mergeSort.mp hs)) hi

end Bundle.Tables

/-! ## Reading the tables -/

section
open Linear
variable {cache : CodeCache} {m : Linear.Method} {link : Bool} {cm : CompiledMethod}

/-- A compiled method has one stop for each call and each safepoint: direct calls, indirect calls,
safepoints, each in the order of the code. All tables have each of them at its index, and the
position of a stop leads back to the index. -/
theorem stop_tables_decode (hcache : cache.window.size ≤ callReach)
    (h : (cache.generate m (ofMethod allocatable m) link).1 = .ok cm)
    (hbci : ∀ site ∈ m.sites, site.bci < 2 ^ 64) :
    ∃ e, ofMethod m (ofMethod allocatable m) = .ok e ∧
      e.stops.toList = m.sites.map (stopOf (ofMethod allocatable m) m) ∧
      cm.stopCount = e.stops.size ∧ cm.directCalls = (e.group 0).length ∧
      cm.bundle.indirectCalls = (e.group 1).length ∧ cm.bundle.safepoints = (e.group 2).length ∧
      cm.bundle.callees = calleesOf (e.group 0) ∧
      (∀ i stop, (e.group 0 ++ e.group 1 ++ e.group 2)[i]? = some stop → cm.Describes i stop) ∧
      ∀ k stop, (e.group 2)[k]? = some stop →
        ∃ map, cm.registerMap? k = some map ∧ ∀ bit, bit ∈ setBits map ↔ bit ∈ stop.registers := by
  obtain ⟨e, he, ht⟩ := generate_tables h
  have hsmall : cm.bundle.code.size ≤ callReach := Nat.le_trans (generate_fits h) hcache
  have hsto := stops_ofMethod he
  obtain ⟨hd, hin, hsa⟩ := ht.length_groups
  -- the stop at an index is that of a site
  have hs : ∀ {i : Nat} {stop : Stop}, (orderStops e.stops.toList)[i]? = some stop →
      ∃ site, m.stopOrder[i]? = some site ∧ site ∈ m.sites ∧
        stopOf (ofMethod allocatable m) m site = stop := by
    intro i stop hi
    rw [orderStops_sites he, getElem?_map] at hi
    obtain ⟨site, hs, hst⟩ := Option.map_eq_some_iff.mp hi
    exact ⟨site, hs, Method.mem_stopOrder.mp (mem_of_getElem? hs), hst⟩
  refine ⟨e, he, hsto, ?_, hd, hin, hsa, ?_, fun i stop hi => ?_, fun k stop hk => ?_⟩
  · rw [stopCount, ht.stopPositions, length_stopPositionsOf, orderStops, length_mergeSort,
      Array.length_toList]
  · exact ht.callees_direct.symm
  · rw [← Bundle.Tables.orderStops_groups] at hi
    obtain ⟨site, hs, hm, rfl⟩ := hs hi
    obtain ⟨b, pre, insn, rest, hb, hins, hind, hst⟩ := Method.mem_sites.mp hm
    refine ⟨ht.describes_position he hsmall hi, ht.describes_index he hsmall hi, ht.describes_native he hsmall hi,
      ht.describes_bytecode (fun stop hst => ?_) hi, _, ht.frameMap_at he hs, fun slot => ?_⟩
    · rw [hsto] at hst
      obtain ⟨site, hm, rfl⟩ := mem_map.mp hst
      exact hbci site hm
    · rw [stopOf, hind]
      exact mem_setBits_liveSlots hb hins (Insn.isStop_of_stop? hst)
  · have hi : (orderStops e.stops.toList)[(cm.directCalls + cm.bundle.indirectCalls) + k]? = some stop := by
      rw [Bundle.Tables.orderStops_groups, getElem?_append_right, length_append, hd, hin]
      · rw [Nat.add_sub_cancel_left]
        exact hk
      · rw [length_append, hd, hin]
        exact Nat.le_add_right _ _
    obtain ⟨site, hs, hm, rfl⟩ := hs hi
    obtain ⟨b, pre, insn, rest, hb, hins, hind, hst⟩ := Method.mem_sites.mp hm
    have hki : site.kind = .safepoint :=
      Method.kind_eq_safepoint_iff.mpr (of_decide_eq_true (mem_filter.mp (mem_of_getElem? hk)).2)
    have hma := (ht.registerMap_at he hs hki).2
    rw [Nat.add_sub_cancel_left] at hma
    refine ⟨_, hma, fun bit => ?_⟩
    rw [stopOf, hind]
    exact mem_setBits_liveRegisters hb hins (Insn.isStop_of_stop? hst)

/-- The call of `polling` is its first stop, the safepoint behind it the second one. -/
theorem stop_tables_decode_polling : ∃ cache cm, create ⟨2048, 1, 2048⟩ = .ok cache ∧
    (cache.generate pollingCode (ofMethod allocatable pollingCode) false).1 = .ok cm ∧
    cm.stopCount = 2 ∧ cm.bundle.callees = [⟨"T", "f", "()Ljava/lang/Object;"⟩] ∧ ¬ cm.isNativeCall 0 = true ∧
    cm.bytecodePosition? 1 = some 1 ∧
    ∃ position, cm.stopPosition? 1 = some position ∧ cm.stopIndex? position = some 1 := by
  obtain ⟨cache, cm, hca, h⟩ := generate_polling
  have hsi : pollingCode.sites = [⟨1, 1, .direct ⟨"T", "f", "()Ljava/lang/Object;"⟩ false, 0⟩,
      ⟨1, 2, .safepoint, 1⟩] := by decide
  obtain ⟨e, -, hst, hco, -, -, -, hc, hd, -⟩ :=
    stop_tables_decode (create_reach hca) h (by simp [hsi])
  rw [hsi] at hst
  have hg : ∀ k, e.group k = _ := fun k => by rw [group, hst]
  have hf := hd 0 _ (by rw [hg, hg, hg]; rfl)
  have hs := hd 1 _ (by rw [hg, hg, hg]; rfl)
  refine ⟨cache, cm, hca, h, ?_, ?_, fun hn => ?_, hs.bytecode, _, hs.position, hs.index⟩
  · rw [hco, ← Array.length_toList, hst]
    rfl
  · rw [hc, hg]
    rfl
  · obtain ⟨callee, hk⟩ := hf.native.mp hn
    cases hk

end

/-! ## Where stops come from -/

section
open Linear

theorem bytecodePosition?_stopOrder {cache : CodeCache} {m} {link cm}
    (h : (cache.generate m (ofCode m) link).1 = .ok cm) (hb : ∀ site ∈ m.sites, site.bci < 2 ^ 64)
    {i site} (hi : m.stopOrder[i]? = some site) : cm.bytecodePosition? i = some site.bci := by
  obtain ⟨e, he, ht⟩ := generate_tables h
  have ho : (orderStops e.stops.toList)[i]? = some (Emission.stopOf (ofCode m) m site) := by
    rw [orderStops_sites he, getElem?_map, hi]
    rfl
  refine ht.describes_bytecode (fun stop hs => ?_) ho
  rw [Emission.stops_ofMethod he] at hs
  obtain ⟨site, hsi, rfl⟩ := mem_map.mp hs
  exact hb site hsi

/-- A site comes before another one in the code of a block, which may go on in other blocks. -/
def Linear.Site.Precedes (blocks : Array Linear.Block) (reserved : Nat) (s s' : Site) : Prop :=
  s.block = s'.block ∧ s.index < s'.index ∨
    ∃ b j, blocks[s.block]? = some b ∧ b.term = .jump j ∧ reserved ≤ j ∧ Continues blocks reserved j s'.block

theorem Linear.Layout.inTurn {m} {g} {M S start} (hl : Layout g M S start)
    (hp : g.Proper) (hc : Graph.Catching m g g.reachable) {s s'} (hs : s ∈ M.sites) (hs' : s' ∈ M.sites)
    (h : s.Precedes M.blocks g.reachable.length s') : InTurn (s.kind, s.bci) (s'.kind, s'.bci) := by
  obtain ⟨blk, pre, insn, rest, hbl, hins, hi, hst⟩ := Method.mem_sites.mp hs
  obtain ⟨blk', pre', insn', rest', hbl', hins', hi', hst'⟩ := Method.mem_sites.mp hs'
  have hm := mem_filterMap.mpr ⟨insn, hins ▸ mem_append_right _ mem_cons_self, hst⟩
  have hm' := mem_filterMap.mpr ⟨insn', hins' ▸ mem_append_right _ mem_cons_self, hst'⟩
  obtain ⟨b, hb, hco⟩ := hl.exists_block hbl (hins ▸ mem_append_right _ mem_cons_self) hst
  have hk := hl.jump_lt hp hb
  obtain ⟨nodes, hsu, hf⟩ := hl.continues hp hb hco hbl
  obtain ⟨first, later, last, rfl, hfi, hla, hj⟩ := hf.stops hk
  have hr : (stopsOf g (first ++ later)).Pairwise (·.2 < ·.2) :=
    pairwise_map.mpr ((hc.rising hb).sublist (hsu.sublist.filterMap _))
  rw [stopsOf_append, pairwise_append] at hr
  rcases h with ⟨hbk, hlt⟩ | ⟨b₁, j, hb₁, hte, hle, hcj⟩
  · rw [hbk, hbl'] at hbl
    cases hbl
    have ht : (blk.insns.filterMap Insn.stop?).Pairwise InTurn := by
      rw [hfi, pairwise_append]
      rcases hla with rfl | ⟨-, bci, rfl⟩
      · exact ⟨hr.1.imp .inl, .nil, by simp⟩
      · exact ⟨hr.1.imp .inl, pairwise_singleton .., fun _ _ _ hth => .inr (mem_singleton.mp hth ▸ rfl)⟩
    rw [pairwise_filterMap, pairwise_iff_getElem] at ht
    obtain ⟨hk, he⟩ := List.getElem?_eq_some_iff.mp (getElem?_eq_some_iff_split.mpr ⟨pre, rest, hins, hi⟩)
    obtain ⟨hk', he'⟩ := List.getElem?_eq_some_iff.mp (getElem?_eq_some_iff_split.mpr ⟨pre', rest', hins', hi'⟩)
    exact ht _ _ hk hk' hlt _ (he ▸ hst) _ (he' ▸ hst')
  · cases hb₁.symm.trans hbl
    obtain ⟨b₂, hb₂, hf₂⟩ := hj j hte hle
    obtain ⟨nodes', hsu', hf'⟩ := hf₂.continues hk hb₂ hcj hbl'
    obtain ⟨first', later', last', rfl, hfi', hla', -⟩ := hf'.stops hk
    obtain rfl : last = [] := hla.resolve_right fun ⟨hu, _⟩ => by rw [hu] at hte; cases hte
    rw [hfi, append_nil] at hm
    rw [hfi', mem_append] at hm'
    rcases hm' with hm' | hm'
    · have hm' := mem_append_left (stopsOf g later') hm'
      rw [← stopsOf_append] at hm'
      exact .inl (hr.2.2 _ hm _ (((hsu'.sublist.filterMap _).map _).subset hm'))
    · rcases hla' with rfl | ⟨-, bci, rfl⟩
      · cases hm'
      · exact .inr (congrArg Prod.fst (mem_singleton.mp hm'))

/-- **Stops record where they come from.** For each stop there is a block of the graph whose code
goes on where the stop stands. The bytecode position of the stop is that of an instruction of this
block that gives a stop of its kind, and these positions rise in the code of the block; but the stop
of a throw has the position of the node that is thrown. -/
theorem stops_record_positions {m : Method} {order : Graph.HandlerOrder m} {g g' : Graph}
    (hg : Graph.build m order = .ok g)
    (options : OptimizerOptions) (provider : MethodProvider) (hg' : (g.optimize options provider).1 = g')
    {cache : CodeCache} {link : Bool} {cm : CompiledMethod}
    (h : (cache.generate (lower g') (ofCode (lower g')) link).1 = .ok cm)
    (hbci : ∀ site ∈ (lower g').sites, site.bci < 2 ^ 64) :
    cm.stopCount = (lower g').stopOrder.length ∧
    (∀ s ∈ (lower g').sites, ∀ s' ∈ (lower g').sites, s.Precedes (lower g').blocks g'.reachable.length s' →
      s.bci < s'.bci ∨ s'.kind = .direct throwException false) ∧
    ∀ i site, (lower g').stopOrder[i]? = some site →
      cm.bytecodePosition? i = some site.bci ∧ ∃ b ∈ g'.reachable,
        Continues (lower g').blocks g'.reachable.length (g'.reachable.idxOf b) site.block ∧
        ((∃ insn, Graph.Reads m b site.bci insn ∧ insn.stop? site.bci = some site.kind) ∨
          site.kind = .direct throwException false ∧ ∃ pc x edge, Graph.Reads m b pc .raise ∧
            (g'.block b).cont = .raise x edge ∧ site.bci = (g'.node x).bci) := by
  obtain ⟨p, s, live, T⟩ := Graph.build_eq_ok hg
  obtain ⟨hp, hc⟩ := Graph.optimize_catching T.proper T.placed T.catching options provider
  rw [hg'] at hp hc
  obtain ⟨e, he, ht⟩ := generate_tables h
  obtain ⟨S, start, hl⟩ := layout_lower hp
  refine ⟨ht.stopCount he, fun _ hs _ hs' => hl.inTurn hp hc hs hs', fun i site hi =>
    ⟨bytecodePosition?_stopOrder h hbci hi, ?_⟩⟩
  obtain ⟨blk, pre, insn, rest, hbl, hins, -, hs⟩ :=
    Method.mem_sites.mp (Method.mem_stopOrder.mp (mem_of_getElem? hi))
  have hm : insn ∈ blk.insns := by
    rw [hins]
    exact mem_append_right _ mem_cons_self
  obtain ⟨b, hb, hch⟩ := hl.exists_block hbl hm hs
  refine ⟨b, hb, hch, ?_⟩
  rcases hl.of_stop hp hb hch hbl hm hs with ⟨-, target, hm, -⟩ | ⟨-, hk, x, edge, hco, hbci, -⟩
  · obtain ⟨⟨insn, hin, hr⟩, -⟩ := hc.of_stop hb hm
    exact .inl ⟨insn, hr, hin⟩
  · obtain ⟨pc, hr, -⟩ := hc.raise hb hco
    exact .inr ⟨hk, pc, x, edge, hr, hco, hbci⟩

theorem stopOrder_guardedCode : guardedCode.stopOrder = [⟨1, 0, .direct ⟨"T", "f", "()V"⟩ false, 0⟩,
    ⟨2, 0, .direct throwException false, 0⟩, ⟨4, 1, .direct throwException false, 3⟩] := by
  decide +kernel

theorem bci_guardedCode : ∀ site ∈ guardedCode.sites, site.bci < 2 ^ 64 := by
  intro site hs
  rw [← Method.mem_stopOrder, stopOrder_guardedCode] at hs
  simp only [mem_cons, not_mem_nil, or_false] at hs
  rcases hs with rfl | rfl | rfl <;> decide

/-- The call of `guarded` records the position of an instruction that gives its stop. -/
theorem stops_record_positions_guarded : ∃ g cache cm, Graph.build guarded = .ok g ∧
    lower (g.optimize {} fun _ => none).1 = guardedCode ∧ create ⟨2048, 1, 2048⟩ = .ok cache ∧
    (cache.generate guardedCode (ofCode guardedCode) false).1 = .ok cm ∧ cm.stopCount = 3 ∧
    cm.bytecodePosition? 0 = some 0 ∧
    ∃ b insn, Graph.Reads guarded b 0 insn ∧ insn.stop? 0 = some (.direct ⟨"T", "f", "()V"⟩ false) := by
  obtain ⟨g, hg, -, hc⟩ := lower_guarded
  obtain ⟨cache, cm, hca, h⟩ := generate_guarded
  obtain ⟨hco, -, hs⟩ := @stops_record_positions _ _ _ _ hg {} _ rfl cache false cm (by rw [hc]; exact h)
    (by rw [hc]; exact bci_guardedCode)
  rw [hc, stopOrder_guardedCode] at hco hs
  obtain ⟨hp, b, -, -, ⟨insn, hr, hi⟩ | ⟨hk, -⟩⟩ := hs 0 _ rfl
  · exact ⟨g, cache, cm, hg, hc, hca, h, hco, hp, b, insn, hr, hi⟩
  · exact absurd hk (by decide)

/-- The throw of `guarded` stands at 2, but its stop records 0, where there is a call. -/
theorem throw_records_thrown_node : ∃ g cache cm, Graph.build guarded = .ok g ∧
    lower (g.optimize {} fun _ => none).1 = guardedCode ∧ create ⟨2048, 1, 2048⟩ = .ok cache ∧
    (cache.generate guardedCode (ofCode guardedCode) false).1 = .ok cm ∧
    guardedCode.stopIndex? 2 0 = some 1 ∧ MadeFor guarded (g.optimize {} fun _ => none).1 2
      (.call (.direct throwException) [0] none true 0) 2 ∧ guarded.code[2]? = some .raise ∧
    cm.bytecodePosition? 1 = some 0 := by
  obtain ⟨g, hg, hr, hco⟩ := lower_guarded
  obtain ⟨cache, cm, hc, h⟩ := generate_guarded
  refine ⟨g, cache, cm, hg, hco, hc, h, by decide +kernel, ?_, rfl, ?_⟩
  · refine ⟨2, by rw [hr]; decide, by rw [hr]; exact .refl _, .raise,
      ⟨1, by decide, ⟨by decide, fun q hq hq' => ?_⟩, rfl⟩, rfl⟩
    obtain rfl : q = 2 := by omega
    decide
  · have hi : guardedCode.stopOrder[1]? = some ⟨2, 0, .direct throwException false, 0⟩ := by
      rw [stopOrder_guardedCode]
      rfl
    exact bytecodePosition?_stopOrder h bci_guardedCode hi

end
end StackCompiler
