/-
The frames of methods. The prologue saves the frame pointer and the link register
and lowers the stack pointer step by step; the epilogue undoes both. In between
the stack pointer is only used to reach slots, which lie below the saved pair.
-/
import Mathlib
import StackCompiler.Proofs.CatchRanges
import StackCompiler.Proofs.IntegerCode
import StackCompiler.Proofs.ReferenceMaps
import StackCompiler.Proofs.Regions

namespace StackCompiler

open List BitVec Template

/-! ## Memory -/

namespace Processor

variable {p q : Processor} {address : BitVec 64}

theorem memory_store {b} (x : BitVec 64) (h : 8 ≤ (b - address).toNat) : (p.store address x).memory b = p.memory b := by
  have hl : (Bytes.littleEndian 8 x.toNat).length ≤ (b - address).toNat := h
  rw [store]
  simp only [List.getElem?_eq_none hl, Option.getD_none]

theorem load_of_bytes (h : ∀ k < 8, p.memory (address + BitVec.ofNat 64 k) = q.memory (address + BitVec.ofNat 64 k)) :
    p.load address = q.load address := by
  rw [load, load, bytes, bytes, map_congr_left fun k hk => h k (mem_range.mp hk)]

theorem load_store_above (x : BitVec 64) : (p.store (address + 8#64) x).load address = p.load address := by
  refine load_of_bytes fun k hk => memory_store x ?_
  simp only [toNat_sub, toNat_add, toNat_ofNat]
  omega

/-- What instructions that move the stack pointer step by step do in all. -/
theorem run_steps {o : Opcode} {f : BitVec 64 → BitVec 64 → BitVec 64}
    (ho : ∀ (p : Processor) (step : Nat), p.execute o [.reg .sp, .reg .sp, .imm step] =
      some (p.setSp .sp (f (p.reg .sp) (BitVec.ofNat 64 step))).next)
    (hz : ∀ x, f x 0#64 = x) (ha : ∀ x y z, f (f x y) z = f x (y + z)) :
    ∀ (steps : List Nat) (p : Processor), ∃ p',
      p.run (steps.map fun step : Nat => .insn o [.reg .sp, .reg .sp, .imm step]) = some p' ∧
      p'.reg .sp = f (p.reg .sp) (BitVec.ofNat 64 steps.sum) ∧ p'.memory = p.memory ∧
      ∀ r ≠ .sp, p'.reg r = p.reg r
  | [], p => ⟨p, rfl, (hz _).symm, rfl, fun _ _ => rfl⟩
  | step :: steps, p => by
    obtain ⟨p', hr, hs, hm, hk⟩ := run_steps ho hz ha steps (p.setSp .sp (f (p.reg .sp) (BitVec.ofNat 64 step))).next
    refine ⟨p', ?_, ?_, hm, fun r h => (hk r h).trans (if_neg h)⟩
    · rw [map_cons, run, ho]
      exact hr
    · rw [hs, sum_cons, BitVec.ofNat_add, ← ha]
      rfl

end Processor

/-! ## Steps -/

namespace Emission

open Convention

theorem sum_frameSteps (size : Nat) : (frameSteps size).sum = size := by
  have hs := Nat.div_add_mod size maxFrameStep
  rw [frameSteps, sum_append, sum_replicate, smul_eq_mul, Nat.mul_comm]
  split <;> simp <;> omega

theorem dvd_frameStep {size step} (hs : 16 ∣ size) (h : step ∈ frameSteps size) : 16 ∣ step := by
  rcases mem_frameSteps h with rfl | rfl
  · decide
  · exact (Nat.dvd_mod_iff (by decide)).mpr hs

end Emission

namespace Processor

open Emission

theorem run_lower (size : Nat) (p : Processor) : ∃ p',
    p.run ((frameSteps size).map fun step : Nat => .insn .subImm [.reg .sp, .reg .sp, .imm step]) = some p' ∧
    p'.reg .sp = p.reg .sp - BitVec.ofNat 64 size ∧ p'.memory = p.memory ∧ ∀ r ≠ .sp, p'.reg r = p.reg r := by
  have h := run_steps (o := .subImm) (f := (· - ·))
    (fun p step => congrArg (fun v => some (p.setSp .sp (_ - v)).next) (BitVec.ofInt_natCast ..))
    (fun x => BitVec.sub_zero x) (fun x y z => BitVec.sub_sub ..) (frameSteps size) p
  rwa [sum_frameSteps] at h

theorem run_prologue (size : Nat) (p : Processor) : ∃ p', p.run (prologue size) = some p' ∧
    p'.reg .sp = p.reg .sp - BitVec.ofNat 64 (16 + size) ∧ p'.get .fp = p.reg .sp - 16#64 ∧
    p'.load (p.reg .sp - 16#64) = p.get .fp ∧ p'.load (p.reg .sp - 8#64) = p.get .lr := by
  have hd : p.reg .sp + BitVec.ofInt 64 (-16) = p.reg .sp - 16#64 := by
    rw [BitVec.sub_eq_add_neg]
    rfl
  rw [show p.reg .sp - 8#64 = p.reg .sp - 16#64 + 8#64 by bv_omega, ← hd, BitVec.ofNat_add, ← BitVec.sub_sub]
  generalize hb : p.reg .sp + BitVec.ofInt 64 (-16) = base
  let saved := ((p.store base (p.get .fp)).store (base + 8#64) (p.get .lr)).setSp .sp base
  obtain ⟨p', hr, hs, hm, hk⟩ := run_lower size (saved.next.setSp .fp (base + BitVec.ofInt 64 0)).next
  refine ⟨p', ?_, ?_, ?_, ?_, ?_⟩
  · rw [prologue, run_append, ← hr]
    subst hb
    rfl
  · rw [hs, ← hd, hb]
    rfl
  · exact (hk .fp (by decide)).trans (BitVec.add_zero base)
  · exact (load_congr hm _).trans ((load_store_above _).trans (load_store ..))
  · exact (load_congr hm _).trans (load_store ..)

theorem run_epilogue (size : Nat) (p : Processor) : ∃ p', p.run (epilogue size) = some p' ∧
    p'.reg .sp = p.reg .sp + BitVec.ofNat 64 (size + 16) ∧ p'.get .fp = p.load (p.reg .sp + BitVec.ofNat 64 size) ∧
    p'.get .lr = p.load (p.reg .sp + BitVec.ofNat 64 size + 8#64) ∧ p'.pc = p'.get .lr := by
  have h := run_steps (o := .addImm) (f := (· + ·))
    (fun p step => congrArg (fun v => some (p.setSp .sp (_ + v)).next) (BitVec.ofInt_natCast ..))
    (fun x => BitVec.add_zero x) (fun x y z => BitVec.add_assoc ..) (frameSteps size) p
  obtain ⟨q, hq, hs, hm, -⟩ := h
  rw [sum_frameSteps] at hs
  rw [epilogue, run_append, hq]
  refine ⟨_, rfl, ?_, ?_, ?_, rfl⟩
  · rw [BitVec.ofNat_add, ← BitVec.add_assoc, ← hs]
    rfl
  · rw [← hs, ← load_congr hm]
    rfl
  · rw [← hs, ← load_congr hm]
    rfl

/-! ## Alignment -/

theorem run_invariant {P : Processor → Prop} : ∀ {lines : List Line} {p p' : Processor},
    (∀ line ∈ lines, ∀ q q', q.run [line] = some q' → P q → P q') → p.run lines = some p' → P p → P p'
  | [], _, _, _, h, hp => by
    cases h
    exact hp
  | line :: rest, p, p', hl, h, hp => by
    rw [← singleton_append, run_append] at h
    obtain ⟨q, hq, h⟩ := Option.bind_eq_some_iff.mp h
    exact run_invariant (fun l hm => hl l (mem_cons_of_mem _ hm)) h (hl line mem_cons_self p q hq hp)

/-- The stack pointer is a multiple of 16. -/
def Aligned (p : Processor) : Prop := 16 ∣ (p.reg .sp).toNat

theorem aligned_frame {size} (hs : 16 ∣ size) {line} (hl : line ∈ prologue size ++ epilogue size) {q q' : Processor}
    (h : q.run [line] = some q') (hq : q.Aligned) : q'.Aligned := by
  have hv : ∀ v : Int, 16 ∣ v →
      16 ∣ (q.reg .sp + BitVec.ofInt 64 v).toNat ∧ 16 ∣ (q.reg .sp - BitVec.ofInt 64 v).toNat := by
    unfold Aligned at hq
    simp only [toNat_sub, toNat_add, toNat_ofInt]
    omega
  have hst : ∀ step ∈ frameSteps size, (16 : Int) ∣ step := fun step h =>
    Int.natCast_dvd_natCast.mpr (dvd_frameStep hs h)
  simp only [prologue, epilogue, mem_append, mem_cons, mem_map, not_mem_nil, or_false] at hl
  rcases hl with ((rfl | rfl) | ⟨step, hm, rfl⟩) | ⟨step, hm, rfl⟩ | rfl | rfl
  · cases h
    exact (hv _ (by decide)).1
  · cases h
    exact hq
  · cases h
    exact (hv _ (hst step hm)).2
  · cases h
    exact (hv _ (hst step hm)).1
  · cases h
    exact (hv _ (by decide)).1
  · cases h
    exact hq

end Processor

/-! ## Slots -/

theorem Opcode.usesSp_expand {o : Opcode} (ho : o.usesSp = false) (operands) :
    (o.expand operands).1.usesSp = false := by
  unfold expand
  split <;> first | rfl | exact ho

/-- Instructions that do not use the stack pointer change neither it nor memory. -/
theorem Processor.keeps_of_execute {p p' : Processor} {o : Opcode} {operands} (ho : o.usesSp = false)
    (h : p.execute o operands = some p') : p'.reg .sp = p.reg .sp ∧ p'.memory = p.memory := by
  unfold execute at h
  have hu := Opcode.usesSp_expand ho operands
  generalize (o.expand operands).1 = o', (o.expand operands).2 = operands' at h hu
  revert h
  fun_cases perform p o' operands' <;> intro h <;> cases h <;> first
    | exact ⟨sp_set .., memory_set ..⟩
    | exact ⟨rfl, rfl⟩
    | (split <;> exact ⟨rfl, rfl⟩)
    | cases hu

namespace Emission

open Processor

theorem slot_lt_of_assemble {r base : Reg} {slot : Nat} {w}
    (h : Opcode.strImm.assemble [.reg r, .reg base, .imm (slot * 8)] = .ok w) : slot < 4096 := by
  obtain ⟨hf, -, -⟩ := (assemble_eq_ok Opcode.strImm.consistent).mp h
  have hd : Opcode.pimm12.decode? w = some (.imm (slot * 8)) :=
    (mapM_cons_eq_some.mp (mapM_cons_eq_some.mp (mapM_cons_eq_some.mp hf).2).2).1
  have hlt : Opcode.pimm12.raw w < 4096 := Field.raw_lt (by constructor <;> decide) w
  have hv : (Opcode.pimm12.raw w : Int) * 8 = slot * 8 := by
    rw [Field.decode?_eq_reading] at hd
    injection hd with hd
    injection hd
  omega

/-- An access to slot `i` of a frame: the slot ends below the saved pair, and neither the stack
pointer nor a byte outside of the slot changes. -/
def Line.Reaches (size : Nat) (line : Line) (i : Nat) : Prop :=
  (∃ r, line = load r i ∨ line = store r i) ∧ 8 * i + 8 ≤ size ∧ ∀ p p' : Processor, p.run [line] = some p' →
    p'.reg .sp = p.reg .sp ∧ ∀ k < 0x10000000000000000, k / 8 ≠ i →
      p'.memory (p.reg .sp + BitVec.ofNat 64 k) = p.memory (p.reg .sp + BitVec.ofNat 64 k)

theorem reaches_load {size i} (r : Reg) (hs : 8 * i + 8 ≤ size) : (load r i).Reaches size i := by
  refine ⟨⟨r, .inl rfl⟩, hs, fun p p' h => ?_⟩
  cases h
  exact ⟨sp_set .., fun k _ _ => by rw [memory_next, memory_set]⟩

theorem reaches_store {size i} (r : Reg) (hs : 8 * i + 8 ≤ size) (hi : i < 4096) : (store r i).Reaches size i := by
  refine ⟨⟨r, .inr rfl⟩, hs, fun p p' h => ?_⟩
  cases h
  refine ⟨rfl, fun k hk hki => memory_store _ ?_⟩
  rw [show (i : Int) * 8 = (i * 8 : Nat) by simp, ofInt_natCast]
  simp only [toNat_sub, toNat_add, toNat_ofNat]
  omega

/-- A line that accesses a slot, or neither uses nor changes the stack pointer and memory. -/
def Line.Inside (a : Allocation) (line : Line) : Prop :=
  (∃ i < a.slots, line.Reaches (frameSize a) i) ∨
    ∀ o operands,
      (line = .insn o operands ∨ ∃ first place v, line = .toPlace o first place ∧ operands = first ++ [.rel v]) →
      (o.usesSp = false ∨ operands = [.reg Convention.latch, .reg Convention.latch, .imm 0]) ∧
      ∀ p p' : Processor, p.execute o operands = some p' → p'.reg .sp = p.reg .sp ∧ p'.memory = p.memory

/-- The slots that an allocation gives are those of its frame. -/
def InFrame (a : Allocation) : Prop := ∀ v i, a.location v = .stack i → i < a.slots

section
variable {a : Allocation} (hs : InFrame a)
include hs

theorem slot_in_frame {v i} (h : a.location v = .stack i) : 8 * i + 8 ≤ frameSize a := by
  have hi := hs v i h
  have hf : a.slots * 8 ≤ frameSize a := CodeCache.le_alignUp ..
  omega

theorem Line.Shape.inside {c s P} {line : Line} (h : line.Shape a c s P)
    (ha : ∀ o operands, line = .insn o operands → ∃ w, o.assemble operands = .ok w) : line.Inside a := by
  cases h with
  | word ho _ | toPlace _ ho _ =>
    refine .inr fun o operands hl => ?_
    rcases hl with hl | ⟨_, _, _, hl, -⟩ <;> cases hl
    exact ⟨.inl ho, fun p p' => keeps_of_execute ho⟩
  | load r h => exact .inl ⟨_, hs _ _ h, reaches_load r (slot_in_frame hs h)⟩
  | store r h =>
    obtain ⟨w, hw⟩ := ha _ _ rfl
    exact .inl ⟨_, hs _ _ h, reaches_store r (slot_in_frame hs h) (slot_lt_of_assemble hw)⟩
  | poll _ =>
    refine .inr fun o operands hl => ?_
    rcases hl with hl | ⟨_, _, _, hl, -⟩ <;> cases hl
    refine ⟨.inr rfl, fun p p' he => ?_⟩
    cases he
    exact ⟨by rw [reg_next, sp_set], by rw [memory_next, memory_set]⟩
  | stop | trap | refuse =>
    refine .inr fun o operands hl => ?_
    rcases hl with hl | ⟨_, _, _, hl, -⟩ <;> cases hl

theorem inside_block {m : Linear.Method} {e : Emission} (he : ofMethod m a = .ok e) {id b}
    (hb : m.blocks[id]? = some b) {line : Line} (hl : line ∈ block m a id b) :
    line ∈ epilogue (frameSize a) ∨ line.Inside a := by
  have ha : ∀ o operands, line = .insn o operands → ∃ w, o.assemble operands = .ok w := by
    rintro o operands rfl
    obtain ⟨rest, hr⟩ := lines_split (a := a) hb
    refine (added_of_addAll he).words ?_
    rw [hr]
    exact mem_append_right _ (mem_append_left _ hl)
  rw [block_eq] at hl
  rcases mem_cons.mp hl with rfl | hl
  · refine .inr (.inr fun o operands hl => ?_)
    rcases hl with hl | ⟨_, _, _, hl, -⟩ <;> cases hl
  · rcases mem_append.mp hl with hl | hl
    · obtain ⟨i, hi, hl⟩ := mem_flatMap.mp hl
      exact .inr ((shaped_insn m id i.2 i.1 line hl).inside hs ha)
    · exact (shape_terminator _ hl).imp_right (·.inside hs ha)

end

end Emission

open Emission Processor

/-- Frames are balanced, and slots stay inside them. The stack pointer moves by steps that
instructions can hold and is aligned after each. When it is back where the prologue left it, with
the saved pair as it was, the epilogue restores what the prologue has saved. The slots of a method
are those of its frame. All other instructions of the blocks keep the stack pointer, and of the
frame they change at most one slot, below the pair. -/
theorem frames_are_balanced {m : Linear.Method} {a : Allocation} {e : Emission} (he : Emission.ofMethod m a = .ok e) :
    let size := frameSize a
    (∀ step ∈ frameSteps size, step < 4096 ∧ 16 ∣ step) ∧
    (∀ (part : List Line) (p p' : Processor), part <+: prologue size ∨ part <+: epilogue size →
      p.run part = some p' → 16 ∣ (p.reg .sp).toNat → 16 ∣ (p'.reg .sp).toNat) ∧
    (∀ p : Processor, ∃ p', p.run (prologue size) = some p' ∧ p'.reg .sp = p.reg .sp - BitVec.ofNat 64 (16 + size) ∧
      ∀ q : Processor, q.reg .sp = p'.reg .sp →
        (∀ k < 16,
          q.memory (q.reg .sp + BitVec.ofNat 64 (size + k)) = p'.memory (q.reg .sp + BitVec.ofNat 64 (size + k))) →
        ∃ q', q.run (epilogue size) = some q' ∧ q'.reg .sp = p.reg .sp ∧
          q'.get .fp = p.get .fp ∧ q'.get .lr = p.get .lr ∧ q'.pc = p.get .lr) ∧
    InFrame (.ofCode m) ∧
    (InFrame a → ∀ id b, m.blocks[id]? = some b →
      ∀ line ∈ block m a id b, line ∈ epilogue size ∨ line.Inside a) := by
  have ha : 16 ∣ frameSize a := CodeCache.dvd_alignUp (by decide)
  refine ⟨fun step h => ⟨Nat.lt_of_le_of_lt (frameStep_le h) (by decide), dvd_frameStep ha h⟩,
    fun part p p' hp h => run_invariant (P := Aligned) (fun line hl q q' => aligned_frame ha ?_) h,
    fun p => ?_, fun _ _ => Allocation.slot_lt, fun hs id b hb line => inside_block hs he hb⟩
  · exact mem_append.mpr (hp.imp (·.subset hl) (·.subset hl))
  · obtain ⟨p', hr, hsp, -, hfp, hlr⟩ := run_prologue (frameSize a) p
    refine ⟨p', hr, hsp, fun q hq hk => ?_⟩
    obtain ⟨q', hr', hsp', hfp', hlr', hpc⟩ := run_epilogue (frameSize a) q
    have hb : q.reg .sp + BitVec.ofNat 64 (frameSize a) = p.reg .sp - 16#64 := by
      rw [hq, hsp, Nat.add_comm, BitVec.ofNat_add]
      bv_omega
    have hm : ∀ k < 16, q.memory (p.reg .sp - 16#64 + BitVec.ofNat 64 k) =
        p'.memory (p.reg .sp - 16#64 + BitVec.ofNat 64 k) := by
      intro k h
      have hm := hk k h
      rwa [BitVec.ofNat_add, ← BitVec.add_assoc, hb] at hm
    have hf : q.load (p.reg .sp - 16#64) = p.get .fp := (load_of_bytes fun k h => hm k (by omega)).trans hfp
    have hl : q.load (p.reg .sp - 16#64 + 8#64) = p.get .lr := by
      rw [← hlr, show p.reg .sp - 8#64 = p.reg .sp - 16#64 + 8#64 by bv_omega]
      refine load_of_bytes fun k h => ?_
      have hm := hm (8 + k) (by omega)
      rwa [BitVec.ofNat_add, ← BitVec.add_assoc] at hm
    rw [hb] at hfp' hlr'
    refine ⟨q', hr', ?_, hfp'.trans hf, hlr'.trans hl, hpc.trans (hlr'.trans hl)⟩
    rw [hsp', hq, hsp, Nat.add_comm, BitVec.sub_add_cancel]

/-- A method that holds its argument across a call, in a slot. -/
def holding : Linear.Method where
  key := ⟨"T", "m", "(J)J"⟩
  vars := #[.long]
  blocks := #[{
    insns := [.parameter 0 0, .call (.direct ⟨"T", "f", "()V"⟩) [] none false 0], term := .ret (some 0) }]

/-- Its argument in the last slot of a frame that is too large for one step. -/
def spacious : Allocation := ⟨#[some (.stack 599)], 600, #[]⟩

/-- The frame is set up in two steps, and the method stays inside of it. -/
theorem frames_are_balanced_holding : ∃ e, Emission.ofMethod holding spacious = .ok e ∧
    frameSteps (frameSize spacious) = [4080, 720] ∧ InFrame spacious ∧
    (∀ p : Processor, ∃ p', p.run (prologue 4800) = some p' ∧ p'.reg .sp = p.reg .sp - 4816#64) ∧
    ∀ b, holding.blocks[0]? = some b →
      ∀ line ∈ block holding spacious 0 b, line ∈ epilogue 4800 ∨ line.Inside spacious := by
  have hs : frameSize spacious = 4800 := by decide
  have hf : InFrame spacious := by
    rintro (_ | v) i h
    · cases h
      decide
    · simp [spacious, Allocation.location] at h
  obtain ⟨e, he⟩ := exists_ok_of_isOk (x := Emission.ofMethod holding spacious) (by cbv)
  have hb := frames_are_balanced he
  simp only [hs] at hb
  refine ⟨e, he, by decide, hf, fun p => ?_, hb.2.2.2.2 hf 0⟩
  obtain ⟨p', hr, hp, -⟩ := hb.2.2.1 p
  exact ⟨p', hr, hp⟩

end StackCompiler
