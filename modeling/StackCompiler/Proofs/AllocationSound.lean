/-
The allocation of a method is sound: variables whose values are needed at the
same time are in different places, and none of them is in a register while a
call runs. It remains to find a point that two intervals reach over.
-/
import StackCompiler.Proofs.LinearScan
import StackCompiler.Proofs.Spans

namespace StackCompiler.Allocation
open Linear Liveness StackCompiler.Interval List Convention

/-! ## The table of places -/

section
variable {α : Type} {f : α → Location}

/-- Enters the places of some variables into a table. -/
def enter (f : α → Location) (t : Array (Option Location)) (p : Var × α) : Array (Option Location) :=
  t.setIfInBounds p.1 (some (f p.2))

theorem size_enterAll (pairs : List (Var × α)) (t : Array (Option Location)) :
    (pairs.foldl (enter f) t).size = t.size := by
  induction pairs generalizing t with
  | nil => rfl
  | cons p pairs ih => rw [foldl_cons, ih, enter, Array.size_setIfInBounds]

theorem getElem?_enterAll_of_not_mem {v} : ∀ {pairs : List (Var × α)} {t : Array (Option Location)},
    v ∉ pairs.map (·.1) → (pairs.foldl (enter f) t)[v]? = t[v]?
  | [], _, _ => rfl
  | p :: pairs, t, h => by
    rw [map_cons, mem_cons, not_or] at h
    rw [foldl_cons, getElem?_enterAll_of_not_mem h.2, enter,
      Array.getElem?_setIfInBounds_ne (Ne.symm h.1)]

theorem getElem?_enterAll_of_mem {p} : ∀ {pairs : List (Var × α)} {t : Array (Option Location)},
    (pairs.map (·.1)).Nodup → p ∈ pairs → p.1 < t.size →
      (pairs.foldl (enter f) t)[p.1]? = some (some (f p.2))
  | [], _, _, hp, _ => absurd hp not_mem_nil
  | q :: pairs, t, hn, hp, hlt => by
    rw [map_cons, nodup_cons] at hn
    rw [foldl_cons]
    rcases mem_cons.mp hp with rfl | hp
    · rw [getElem?_enterAll_of_not_mem hn.1, enter, Array.getElem?_setIfInBounds_self_of_lt hlt]
    · refine getElem?_enterAll_of_mem hn.2 hp ?_
      rw [enter, Array.size_setIfInBounds]
      exact hlt

theorem mem_of_getElem?_enterAll {v l} : ∀ {pairs : List (Var × α)}
    {t : Array (Option Location)}, (pairs.foldl (enter f) t)[v]? = some (some l) →
      (∃ p ∈ pairs, p.1 = v ∧ f p.2 = l) ∨ t[v]? = some (some l)
  | [], _, h => .inr h
  | p :: pairs, t, h => by
    rw [foldl_cons] at h
    rcases mem_of_getElem?_enterAll h with ⟨q, hq, hv⟩ | h
    · exact .inl ⟨q, mem_cons_of_mem _ hq, hv⟩
    · rw [enter, Array.getElem?_setIfInBounds] at h
      by_cases hv : p.1 = v
      · rw [if_pos hv] at h
        split at h
        · exact .inl ⟨p, mem_cons_self, hv, by simpa using h⟩
        · cases h
      · rw [if_neg hv] at h
        exact .inr h

end

/-- The places of `n` variables, from those in registers and those in slots. -/
def tableOf (n : Nat) (inRegs : List (Var × Reg)) (inSlots : List (Var × Nat)) : Array (Option Location) :=
  inRegs.foldl (enter .register) (inSlots.foldl (enter .stack) (Array.replicate n none))

theorem getElem?_tableOf {n inRegs inSlots} (hn : (inRegs.map (·.1) ++ inSlots.map (·.1)).Nodup) {v} (hlt : v < n) :
    (∀ r, (v, r) ∈ inRegs → (tableOf n inRegs inSlots)[v]? = some (some (.register r))) ∧
      ∀ slot, (v, slot) ∈ inSlots → (tableOf n inRegs inSlots)[v]? = some (some (.stack slot)) := by
  obtain ⟨hre, hsl, hd⟩ := nodup_append.mp hn
  constructor
  · intro r hr
    refine @getElem?_enterAll_of_mem _ _ (v, r) _ _ hre hr ?_
    rw [size_enterAll, Array.size_replicate]
    exact hlt
  · intro slot hs
    have ho : v ∉ inRegs.map (·.1) := fun h =>
      hd v h v (mem_map.mpr ⟨_, hs, rfl⟩) rfl
    rw [tableOf, getElem?_enterAll_of_not_mem ho]
    refine @getElem?_enterAll_of_mem _ _ (v, slot) _ _ hsl hs ?_
    rw [Array.size_replicate]
    exact hlt

theorem mem_of_getElem?_tableOf {n inRegs inSlots v l} (h : (tableOf n inRegs inSlots)[v]? = some (some l)) :
    (∃ r, (v, r) ∈ inRegs ∧ l = .register r) ∨ ∃ slot, (v, slot) ∈ inSlots ∧ l = .stack slot := by
  rcases mem_of_getElem?_enterAll h with ⟨⟨_, r⟩, hr, rfl, rfl⟩ | h
  · exact .inl ⟨r, hr, rfl⟩
  · rcases mem_of_getElem?_enterAll h with ⟨⟨_, slot⟩, hs, rfl, rfl⟩ | h
    · exact .inr ⟨slot, hs, rfl⟩
    · rw [Array.getElem?_replicate] at h
      split at h <;> simp at h

/-! ## Places of intervals -/

/-- Whether an allocation has a place, given the registers. -/
def HasPlace (registers : List Reg) (a : Allocation) : Location → Prop
  | .register r => r ∈ registers
  | .stack slot => slot < a.slots

/-- What the allocation of a method does with its intervals. -/
structure Places (registers : List Reg) (m : Linear.Method) (a : Allocation)
    (given : List (Interval × Location)) : Prop where
  all : (given.map (·.1)).Perm (Interval.ofMethod m (compute m))
  place : ∀ p ∈ given, HasPlace registers a p.2
  /-- Intervals in one place are apart. -/
  apart : given.Pairwise fun p q => p.2 = q.2 → p.1.stop < q.1.start
  /-- What is needed after a call is on the stack. -/
  onStack : ∀ p ∈ given, p.1.var ∈ acrossCalls ((compute m).allStops m) →
    ∃ slot, p.2 = .stack slot
  entry : ∀ p ∈ given, a.locations[p.1.var]? = some (some p.2)
  /-- No other variable has a place. -/
  only : ∀ (v : Var) (l : Location), a.locations[v]? = some (some l) → ∃ p ∈ given, p.1.var = v ∧ p.2 = l

/-- Whether the variable of an interval is needed after a call. -/
def needed (m : Linear.Method) (i : Interval) : Bool :=
  (acrossCalls ((compute m).allStops m)).contains i.var

/-- The intervals that may get a register. -/
def candidates (m : Linear.Method) : List Interval :=
  (Interval.ofMethod m (compute m)).filter fun i => !needed m i

/-- The intervals that go to the stack. -/
def stacked (registers : List Reg) (m : Linear.Method) : List Interval :=
  (Interval.ofMethod m (compute m)).filter (needed m) ++
    (Scan.registers (candidates m) registers).2

theorem ofMethod_eq (registers : List Reg) (m : Linear.Method) :
    ofMethod registers m =
      ⟨tableOf m.varBound (Scan.registers (candidates m) registers).1
          (Scan.slots (stacked registers m)).1,
        (Scan.slots (stacked registers m)).2, (compute m).allStops m⟩ := by
  unfold ofMethod
  simp only [partition_eq_filter_filter]
  rfl

theorem ofMethod_places {registers} (hreg : registers.Nodup) (m : Linear.Method) :
    ∃ given, Places registers m (ofMethod registers m) given := by
  have hv := nodup_ofMethod m
  have hc : ((candidates m).map (·.var)).Nodup :=
    hv.sublist (filter_sublist.map _)
  obtain ⟨inRegs, ha, hres, hre, hap⟩ := Scan.registers_spec hc hreg
  obtain ⟨inSlots, hsl, hs, hbe, ha'⟩ := Scan.slots_spec (stacked registers m)
  -- every interval is in one of the two parts
  have hal : (inRegs.map (·.1) ++ inSlots.map (·.1)).Perm (Interval.ofMethod m (compute m)) := by
    refine (hs.append_left _).trans ?_
    refine .trans ?_ (filter_append_perm (needed m) _)
    refine .trans ?_ (hres.append_left _)
    rw [stacked, ← append_assoc, ← append_assoc]
    exact perm_append_comm.append_right _
  have hk : ((inRegs.map fun p => (p.1.var, p.2)).map (·.1) ++
      (inSlots.map fun p => (p.1.var, p.2)).map (·.1)).Nodup := by
    have hpe := (hal.map (·.var)).nodup_iff.mpr hv
    rw [map_append, map_map, map_map] at hpe
    rw [map_map, map_map]
    exact hpe
  have hb : ∀ i : Interval, i ∈ Interval.ofMethod m (compute m) → i.var < m.varBound := by
    intro i hi
    have hi := Array.getElem?_eq_some_iff.mp (Interval.mem_ofMethod.mp hi)
    rw [← table_size m]
    exact hi.1
  refine ⟨inRegs.map (fun p => (p.1, .register p.2)) ++ inSlots.map (fun p => (p.1, .stack p.2)), ?_⟩
  rw [ofMethod_eq, ha, hsl]
  exact {
    all := by
      rw [map_append, map_map, map_map]
      exact hal
    place := by
      intro p hp
      rcases mem_append.mp hp with hp | hp
      · obtain ⟨q, hq, rfl⟩ := mem_map.mp hp
        exact hre q hq
      · obtain ⟨q, hq, rfl⟩ := mem_map.mp hp
        exact hbe q hq
    apart := by
      refine pairwise_append.mpr ⟨?_, ?_, ?_⟩
      · refine pairwise_map.mpr (hap.imp fun {p q} h heq => ?_)
        exact h (Location.register.inj heq)
      · refine pairwise_map.mpr (ha'.imp fun {p q} h heq => ?_)
        exact h (Location.stack.inj heq)
      · intro p hp q hq heq
        obtain ⟨p, -, rfl⟩ := mem_map.mp hp
        obtain ⟨q, -, rfl⟩ := mem_map.mp hq
        cases heq
    onStack := by
      intro p hp hac
      rcases mem_append.mp hp with hp | hp
      · obtain ⟨q, hq, rfl⟩ := mem_map.mp hp
        have hm : q.1 ∈ candidates m :=
          hres.mem_iff.mp (mem_append_left _ (mem_map_of_mem hq))
        have hn : (!needed m q.1) = true := (mem_filter.mp hm).2
        rw [show needed m q.1 = true from hac] at hn
        cases hn
      · obtain ⟨q, -, rfl⟩ := mem_map.mp hp
        exact ⟨q.2, rfl⟩
    entry := by
      intro p hp
      rcases mem_append.mp hp with hp | hp
      · obtain ⟨q, hq, rfl⟩ := mem_map.mp hp
        have hlt := hb q.1 (hal.mem_iff.mp (mem_append_left _ (mem_map_of_mem hq)))
        exact (getElem?_tableOf hk hlt).1 q.2 (mem_map.mpr ⟨q, hq, rfl⟩)
      · obtain ⟨q, hq, rfl⟩ := mem_map.mp hp
        have hlt := hb q.1 (hal.mem_iff.mp (mem_append_right _ (mem_map_of_mem hq)))
        exact (getElem?_tableOf hk hlt).2 q.2 (mem_map.mpr ⟨q, hq, rfl⟩)
    only := by
      intro v l hl
      rcases mem_of_getElem?_tableOf hl with ⟨r, hr, rfl⟩ | ⟨slot, hslo, rfl⟩
      · obtain ⟨q, hq, heq⟩ := mem_map.mp hr
        cases heq
        exact ⟨_, mem_append_left _ (mem_map_of_mem hq), rfl, rfl⟩
      · obtain ⟨q, hq, heq⟩ := mem_map.mp hslo
        cases heq
        exact ⟨_, mem_append_right _ (mem_map_of_mem hq), rfl, rfl⟩ }

/-! ## Places of variables -/

section
variable {m : Linear.Method} {v w : Var} {point : Nat}

theorem nodup_allocatable : allocatable.Nodup := by decide

/-- The allocation that code is emitted for. -/
abbrev ofCode (m : Linear.Method) : Allocation := ofMethod allocatable m

theorem location_of_entry {a : Allocation} {l} (h : a.locations[v]? = some (some l)) :
    a.location v = l := by
  rw [location, h]
  rfl

theorem slot_lt {slot} (h : (ofCode m).location v = .stack slot) : slot < (ofCode m).slots := by
  obtain ⟨given, hpl⟩ := ofMethod_places nodup_allocatable m
  obtain ⟨l, hl, rfl⟩ : ∃ l, (ofCode m).locations[v]? = some (some l) ∧ l = .stack slot := by
    unfold location at h
    cases hl : ((ofCode m).locations[v]?).join with
    | none => rw [hl] at h; cases h
    | some l => exact ⟨l, Option.join_eq_some_iff.mp hl, by rw [hl] at h; exact h⟩
  obtain ⟨p, hp, -, hs⟩ := hpl.only v _ hl
  have hlt := hpl.place p hp
  rwa [hs] at hlt

theorem Places.of_reaches {registers a given} (hpl : Places registers m a given)
    (h : Interval.Reaches (table m) v point) : ∃ p ∈ given, p.1.var = v ∧ p.1.start ≤ point ∧ point ≤ p.1.stop := by
  obtain ⟨i, hi, hr⟩ := h
  obtain ⟨rfl, -⟩ := table_proper m v i hi
  obtain ⟨p, hp, rfl⟩ := mem_map.mp (hpl.all.mem_iff.mpr (Interval.mem_ofMethod.mpr hi))
  exact ⟨p, hp, rfl, hr⟩

theorem exists_place (h : Interval.Reaches (table m) v point) :
    ∃ l, (ofCode m).locations[v]? = some (some l) ∧ HasPlace allocatable (ofCode m) l := by
  obtain ⟨given, hpl⟩ := ofMethod_places nodup_allocatable m
  obtain ⟨p, hp, rfl, -⟩ := hpl.of_reaches h
  exact ⟨p.2, hpl.entry p hp, hpl.place p hp⟩

/-- Variables whose intervals reach over one point are in different places. -/
theorem location_ne (hv : Interval.Reaches (table m) v point)
    (hw : Interval.Reaches (table m) w point) (hne : v ≠ w) :
    (ofCode m).location v ≠ (ofCode m).location w := by
  obtain ⟨given, hpl⟩ := ofMethod_places nodup_allocatable m
  obtain ⟨p, hp, rfl, hr⟩ := hpl.of_reaches hv
  obtain ⟨q, hq, rfl, hr'⟩ := hpl.of_reaches hw
  rw [location_of_entry (hpl.entry p hp), location_of_entry (hpl.entry q hq)]
  intro heq
  have ha := Scan.apart_of_mem hpl.apart hp hq
    (fun h => hne (congrArg (fun x => x.1.var) h)) heq
  omega

theorem location_stack {id : Nat} {b} (hb : m.blocks[id]? = some b)
    {pre rest} {insn} (hin : b.insns = pre ++ insn :: rest)
    (hc : insn.isCall = true) (hv : HeldAcross m b insn rest v) :
    ∃ slot < (ofCode m).slots, (ofCode m).location v = .stack slot := by
  obtain ⟨given, hpl⟩ := ofMethod_places nodup_allocatable m
  obtain ⟨p, hp, rfl, -⟩ := hpl.of_reaches (reaches_held hb hin hv.before)
  obtain ⟨slot, hs⟩ := hpl.onStack p hp
    (Liveness.mem_acrossCalls.mpr ⟨id, b, pre, insn, rest, hb, hin, hc, hv⟩)
  have hpla := hpl.place p hp
  rw [hs] at hpla
  exact ⟨slot, hpla, (location_of_entry (hpl.entry p hp)).trans hs⟩

theorem exists_place_of_mentioned {id : Nat} {b} (hb : m.blocks[id]? = some b)
    (hv : v ∈ b.vars) :
    ∃ l, (ofCode m).locations[v]? = some (some l) ∧ HasPlace allocatable (ofCode m) l := by
  rcases mem_append.mp hv with hv | hv
  · obtain ⟨insn, hin, hv⟩ := mem_flatMap.mp hv
    obtain ⟨pre, rest, hi⟩ := append_of_mem hin
    rcases mem_append.mp hv with hv | hv
    · exact exists_place (table_reaches hb (.use hi hv))
    · exact exists_place (table_reaches hb (.assign hi (Option.mem_toList.mp hv)))
  · exact exists_place (table_reaches hb (.term hv))

end

/-! ## Soundness -/

/-- What code needs of the places of its variables. -/
structure Sound (m : Linear.Method) (a : Allocation) : Prop where
  /-- Variables that are live at one point are in different places. -/
  live : ∀ {id : Nat} {b : Linear.Block} {pre rest : List Insn} {v w : Var}, m.blocks[id]? = some b →
    b.insns = pre ++ rest → LiveAt m v b.handler rest b.term → LiveAt m w b.handler rest b.term →
    v ≠ w → a.location v ≠ a.location w
  /-- No instruction writes its result into the place of another variable that is live behind it, or
  at the start of the handler of a call. -/
  result : ∀ {id : Nat} {b : Linear.Block} {pre rest : List Insn} {insn : Insn} {d w : Var},
    m.blocks[id]? = some b → b.insns = pre ++ insn :: rest → insn.def? = some d →
    LiveAt m w b.handler rest b.term ∨ insn.isCall = true ∧ LiveInHandler m b w →
    w ≠ d → a.location w ≠ a.location d
  /-- What is live across a call is on the stack. -/
  call : ∀ {id : Nat} {b : Linear.Block} {pre rest : List Insn} {insn : Insn} {v : Var},
    m.blocks[id]? = some b → b.insns = pre ++ insn :: rest → insn.isCall = true →
    LiveAcross m b insn rest v → ∃ slot, a.location v = .stack slot
  /-- Every place is a register that may be used or a slot of the frame. -/
  place : ∀ {v : Var} {l : Location}, a.locations[v]? = some (some l) →
    (∃ r ∈ allocatable, l = .register r) ∨ ∃ slot < a.slots, l = .stack slot
  /-- Every variable that the code mentions has a place. -/
  mentioned : ∀ {id : Nat} {b : Linear.Block} {v : Var}, m.blocks[id]? = some b → v ∈ b.vars →
    ∃ l, a.locations[v]? = some (some l) ∧ a.location v = l

/-- The locations that linear scan gives are sound, whatever the method. -/
theorem allocation_sound (m : Linear.Method) : Sound m (ofMethod allocatable m) where
  live hb hinsns hv hw hne :=
    location_ne (reaches_held hb hinsns hv.held) (reaches_held hb hinsns hw.held) hne
  result := by
    intro id b pre rest insn d w hb hinsns hd hw hne
    have ha : LiveAcross m b insn rest w := by
      refine hw.imp_left fun hw => ⟨fun h => hne ?_, hw⟩
      exact Option.some.inj (h.symm.trans hd)
    exact location_ne (reaches_across hb hinsns ha.held)
      (table_reaches hb (.assign hinsns hd)) hne
  call hb hinsns hc hv := by
    obtain ⟨slot, -, hs⟩ := location_stack hb hinsns hc hv.held
    exact ⟨slot, hs⟩
  place := by
    intro v l hl
    obtain ⟨given, hpla⟩ := ofMethod_places nodup_allocatable m
    obtain ⟨p, hp, -, rfl⟩ := hpla.only v l hl
    have hpl := hpla.place p hp
    cases hl : p.2 with
    | register r =>
      rw [hl] at hpl
      exact .inl ⟨r, hpl, rfl⟩
    | stack slot =>
      rw [hl] at hpl
      exact .inr ⟨slot, hpl, rfl⟩
  mentioned hb hv := by
    obtain ⟨l, hl, -⟩ := exists_place_of_mentioned hb hv
    exact ⟨l, hl, location_of_entry hl⟩

end StackCompiler.Allocation
