/-
The lines of instructions and of the ends of blocks (`Line.Shape`). Registers and
immediates fit their fields, so a line fails, if at all, because a distance does
not (`AssemblyError.TooFar`).
-/
import StackCompiler.Emission.Line
import StackCompiler.Linear.Lower
import StackCompiler.Proofs.FieldCodec

namespace StackCompiler

open List

/-! ## Distances -/

/-- The field that holds the distance of a branch, to a literal or to a slot. -/
def Opcode.distanceField? : Opcode → Option Field
  | .b => some rel26
  | .bCond | .ldrLiteral | .ldrswLiteral => some rel19
  | .ldrImm | .strImm => some pimm12
  | _ => none

/-- A distance does not fit its field. -/
inductive AssemblyError.TooFar : AssemblyError → Prop
  | intro {o : Opcode} {f : Field} {v : Int} (field : o.distanceField? = some f)
      (range : v < f.range.1 ∨ f.range.2 < v) : TooFar (.outOfRange o.describe.mnemonic f.name v)

theorem Field.scaled_error {f : Field} {mnemonic} {v : Int} {err}
    (hv : v % f.scale = 0) (h : f.scaled mnemonic v = .error err) :
    err = .outOfRange mnemonic f.name v ∧ (v < f.range.1 ∨ f.range.2 < v) := by
  unfold scaled at h
  rw [if_neg (not_not_intro hv)] at h
  split at h
  next hr =>
    cases h
    exact ⟨rfl, hr⟩
  next => cases h

namespace Template

theorem encodeFields_error {t : Template} {err} : ∀ {pairs : List (Field × Operand)} {w : BitVec 32},
    t.encodeFields w pairs = .error err → ∃ p ∈ pairs, p.1.encode t.mnemonic p.2 = .error err
  | [], _, h => by cases h
  | (f, a) :: rest, w, h => by
    unfold encodeFields at h
    split at h
    next he =>
      cases h
      exact ⟨_, mem_cons_self, he⟩
    next =>
      obtain ⟨p, hp, he⟩ := encodeFields_error h
      exact ⟨p, mem_cons_of_mem _ hp, he⟩

/-- Operands that meet the constraints fail by one that its field does not take. -/
theorem assemble_error {t : Template} {operands} {err} (hl : operands.length = t.fields.length)
    (hc : t.constraints.all (·.holds operands) = true) (h : t.assemble operands = .error err) :
    ∃ p ∈ t.fields.zip operands, p.1.encode t.mnemonic p.2 = .error err := by
  unfold assemble at h
  rw [if_neg (not_not_intro hl)] at h
  split at h
  next he =>
    cases h
    exact encodeFields_error he
  next =>
    rw [if_pos hc] at h
    cases h

end Template

theorem Field.encode_unsigned {f : Field} {mnemonic v} (hk : f.kind = .unsigned) (hs : f.scale = 1)
    (hl : 0 ≤ v) (hu : v ≤ (f.span : Int) - 1) :
    ∃ bits, f.encode mnemonic (.imm v) = .ok bits := by
  have hr : f.range = (0, (f.span : Int) - 1) := by
    simp only [range, hk, hs, Int.natCast_one, Int.mul_one]
  have hsc : f.scaled mnemonic v = .ok ((v / f.scale) % f.span).toNat := by
    refine scaled_eq_ok.mpr ⟨?_, ?_, ?_, rfl⟩
    · rw [hs]
      exact Int.emod_one v
    · rw [hr]
      exact hl
    · rw [hr]
      exact hu
  have hc : f.content mnemonic (.imm v) = .ok ((v / f.scale) % f.span).toNat := by
    simp [content, accepts, hk, hsc]
  exact ⟨_, encode_eq_ok.mpr ⟨_, hc, rfl⟩⟩

namespace Opcode

/-- If every operand is taken by its field but for a distance, then the distance is too far. -/
theorem tooFar_of_fields {o : Opcode} {f} {v : Int} {operands} {err}
    (ho : o.distanceField? = some f) (hv : v % f.scale = 0) (hl : operands.length = o.describe.fields.length)
    (hc : o.describe.constraints.all (·.holds operands) = true)
    (hf : ∀ p ∈ o.describe.fields.zip operands, (∃ bits, p.1.encode o.describe.mnemonic p.2 = .ok bits) ∨
      ∃ g, p.1.encode o.describe.mnemonic p.2 = (f.scaled o.describe.mnemonic v).map g)
    (h : o.assemble operands = .error err) : err.TooFar := by
  obtain ⟨p, hp, he⟩ := Template.assemble_error hl hc h
  rcases hf p hp with ⟨bits, hok⟩ | ⟨g, hm⟩
  · cases hok.symm.trans he
  rw [hm] at he
  cases hs : f.scaled o.describe.mnemonic v with
  | ok n =>
    rw [hs] at he
    cases he
  | error err' =>
    rw [hs] at he
    cases he
    obtain ⟨rfl, hr⟩ := Field.scaled_error hv hs
    exact .intro ho hr

variable {v : Int} {err : AssemblyError}

theorem tooFar_b (hv : v % 4 = 0) (h : b.assemble [.rel v] = .error err) : err.TooFar :=
  tooFar_of_fields rfl hv rfl rfl (forall_mem_cons.mpr ⟨.inr ⟨_, rfl⟩, fun _ hp => by cases hp⟩) h

theorem tooFar_bCond {c : Cond} (hv : v % 4 = 0) (h : bCond.assemble [.cond c, .rel v] = .error err) :
    err.TooFar := by
  refine tooFar_of_fields rfl hv rfl rfl (forall_mem_cons.mpr ⟨.inl ⟨_, rfl⟩, ?_⟩) h
  exact forall_mem_singleton.mpr (.inr ⟨_, rfl⟩)

theorem tooFar_literal {o : Opcode} (ho : o = ldrswLiteral ∨ o = ldrLiteral) {r} (hv : v % 4 = 0)
    (h : o.assemble [.reg r, .rel v] = .error err) : err.TooFar := by
  rcases ho with rfl | rfl <;>
  · refine tooFar_of_fields rfl hv rfl rfl (forall_mem_cons.mpr ⟨.inl ⟨_, rfl⟩, ?_⟩) h
    exact forall_mem_singleton.mpr (.inr ⟨_, rfl⟩)

theorem tooFar_slot {o : Opcode} (ho : o = ldrImm ∨ o = strImm) {r base} {slot : Nat}
    (h : o.assemble [.reg r, .reg base, .imm (slot * 8)] = .error err) : err.TooFar := by
  have hv : (slot * 8 : Int) % pimm12.scale = 0 := Int.mul_emod_left _ _
  rcases ho with rfl | rfl <;>
  · refine tooFar_of_fields rfl hv rfl rfl (forall_mem_cons.mpr ⟨.inl ⟨_, rfl⟩, ?_⟩) h
    refine forall_mem_cons.mpr ⟨.inl ⟨_, rfl⟩, ?_⟩
    exact forall_mem_singleton.mpr (.inr ⟨_, rfl⟩)

end Opcode

/-- Whether register 31 is the stack pointer in an instruction. -/
def Opcode.usesSp (o : Opcode) : Bool := o ∈ [.addImm, .subImm, .subsImm, .cmpImm, .ldrImm, .strImm, .ldrPost, .strPre,
  .stpPre, .ldpPost]

/-- An instruction that machine code can be emitted for. -/
def Linear.Insn.Codable : Linear.Insn → Prop
  | .const _ v => fitsMove v.signedBits = true
  | .parameter _ index => index < Convention.arguments.length
  | .arith op kind _ _ _ => kind = .double → (Emission.doubleOpcode? op).isSome = true
  | .call _ args _ _ _ => args.length ≤ Convention.arguments.length
  | _ => True

/-! ## Lines -/

namespace Emission

open Convention

/-- A line that has machine code if `codable`, that stops if `stops`, and refers to some places only. -/
inductive Line.Shape (a : Allocation) (codable stops : Prop) (places : Place → Prop) : Line → Prop
  | word {o : Opcode} {operands : List Operand} {w : BitVec 32} (hs : o.usesSp = false)
    (h : o.assemble operands = .ok w) :
    Shape a codable stops places (.insn o operands)
  | load {v : Var} {slot : Nat} (r : Reg) (h : a.location v = .stack slot) : Shape a codable stops places (load r slot)
  | store {v : Var} {slot : Nat} (r : Reg) (h : a.location v = .stack slot) :
    Shape a codable stops places (store r slot)
  | toPlace {o : Opcode} {operands : List Operand} {place : Place} (hp : places place) (hs : o.usesSp = false)
      (h : ∀ (v : Int) err, v % 4 = 0 → o.assemble (operands ++ [.rel v]) = .error err → err.TooFar) :
    Shape a codable stops places (.toPlace o operands place)
  | poll (h : stops) : Shape a codable stops places (.insn .ldrImm [.reg latch, .reg latch, .imm 0])
  | stop (h : stops) (kind : StopKind) (bci : Nat) (slots registers : List Nat) :
    Shape a codable stops places (.stop kind bci slots registers)
  | trap (h : stops) : Shape a codable stops places .trap
  | refuse (h : ¬ codable) (what : String) : Shape a codable stops places (.refuse what)

/-- Lines of a shape. -/
def Shaped (a : Allocation) (codable stops : Prop) (places : Place → Prop) (lines : List Line) : Prop :=
  ∀ line ∈ lines, line.Shape a codable stops places

section
variable {a : Allocation} {c s : Prop} {P : Place → Prop}

theorem shaped_nil : Shaped a c s P [] := fun _ h => absurd h not_mem_nil

theorem shaped_cons {line rest} : Shaped a c s P (line :: rest) ↔ line.Shape a c s P ∧ Shaped a c s P rest :=
  forall_mem_cons

theorem shaped_append {xs ys} : Shaped a c s P (xs ++ ys) ↔ Shaped a c s P xs ∧ Shaped a c s P ys :=
  forall_mem_append

theorem shaped_one {o operands w} (hs : o.usesSp = false) (h : o.assemble operands = .ok w) :
    Shaped a c s P [.insn o operands] := forall_mem_singleton.mpr (.word hs h)

theorem shaped_two {o o' operands operands' w w'} (hs : o.usesSp = false) (h : o.assemble operands = .ok w)
    (hs' : o'.usesSp = false) (h' : o'.assemble operands' = .ok w') :
    Shaped a c s P [.insn o operands, .insn o' operands'] := shaped_cons.mpr ⟨.word hs h, shaped_one hs' h'⟩

theorem assemble_of_fields {o : Opcode} {operands} (hl : operands.length = o.describe.fields.length)
    (hc : o.describe.constraints.all (·.holds operands) = true)
    (hf : ∀ p ∈ o.describe.fields.zip operands, ∃ bits, p.1.encode o.describe.mnemonic p.2 = .ok bits) :
    ∃ w, o.assemble operands = .ok w := by
  cases h : o.assemble operands with
  | ok w => exact ⟨w, rfl⟩
  | error err =>
    obtain ⟨p, hp, he⟩ := Template.assemble_error hl hc h
    obtain ⟨bits, hok⟩ := hf p hp
    cases hok.symm.trans he

theorem shape_fetch (r : Reg) (v : Var) : (fetch r (a.location v)).Shape a c s P := by
  cases hl : a.location v with
  | register source => exact .word rfl rfl
  | stack slot => exact .load r hl

theorem shaped_read (v : Var) (temp : Reg) : Shaped a c s P (read a v temp).1 := by
  unfold read
  cases hl : a.location v with
  | register r => exact shaped_nil
  | stack slot => exact forall_mem_singleton.mpr (.load temp hl)

theorem shaped_write (v : Var) (source : Reg) : Shaped a c s P (write a v source) := by
  unfold write
  cases hl : a.location v with
  | register r =>
    dsimp only
    split
    · exact shaped_nil
    · exact shaped_one rfl rfl
  | stack slot => exact forall_mem_singleton.mpr (.store source hl)

theorem shaped_arith {op kind} (h : c → kind = .double → (doubleOpcode? op).isSome = true) (d l r : Reg) :
    Shaped a c s P (arith op kind d l r) := by
  have he : Shaped a c s P (extend kind d) := by
    unfold extend
    split
    · exact shaped_one rfl rfl
    · exact shaped_nil
  unfold arith
  split
  next hk =>
    refine shaped_append.mpr ⟨shaped_two rfl rfl rfl rfl, ?_⟩
    cases op with
    | add | sub | mul | div => exact shaped_two rfl rfl rfl rfl
    | rem | and | or | xor => exact forall_mem_singleton.mpr (.refuse (fun hc => nomatch h hc hk) _)
  next =>
    refine shaped_append.mpr ⟨?_, he⟩
    cases op with
    | rem => exact shaped_two rfl rfl rfl rfl
    | _ => exact shaped_one rfl rfl

theorem shaped_negate (kind : Kind) (d source : Reg) : Shaped a c s P (negate kind d source) := by
  cases kind with
  | double | int => exact shaped_two rfl rfl rfl rfl
  | _ => exact shaped_one rfl rfl

theorem shaped_moveConst {v} (h : c → fitsMove v.signedBits = true) (d : Reg) : Shaped a c s P (moveConst d v) := by
  simp only [fitsMove, Bool.and_eq_true, decide_eq_true_eq] at h
  have hi : ∀ {mnemonic : String} {x : Int}, 0 ≤ x → x ≤ 0xFFFF →
      ∃ bits, Opcode.imm16.encode mnemonic (.imm x) = .ok bits :=
    fun hl hu => Field.encode_unsigned rfl rfl hl hu
  unfold moveConst
  dsimp only
  split
  next hb =>
    obtain ⟨w, hw⟩ := @assemble_of_fields .movImm [.reg d, .imm v.signedBits] rfl rfl
      (forall_mem_cons.mpr ⟨⟨_, rfl⟩, forall_mem_singleton.mpr (hi hb.1 hb.2)⟩)
    exact shaped_one rfl hw
  next hb =>
    split
    next hn =>
      obtain ⟨w, hw⟩ := @assemble_of_fields .movn [.reg d, .imm (-v.signedBits - 1), .imm 0] rfl rfl
        (forall_mem_cons.mpr
        ⟨⟨_, rfl⟩, forall_mem_cons.mpr ⟨hi (by omega) (by omega), forall_mem_singleton.mpr ⟨_, rfl⟩⟩⟩)
      exact shaped_one rfl hw
    next hn => exact forall_mem_singleton.mpr (.refuse (fun hc => by have := h hc; omega) _)

theorem shaped_callLines (target : CallTarget) {stop} (hs : ∀ kind, (stop kind).Shape a c s P) :
    Shaped a c s P (callLines a target stop) := by
  cases target with
  | direct | native => exact shaped_cons.mpr ⟨hs _, shaped_one rfl rfl⟩
  | indirect address =>
    have hr := @shaped_read a c s P address scratch
    simp only [callLines]
    generalize read a address scratch = r at hr ⊢
    refine shaped_append.mpr ⟨shaped_append.mpr ⟨hr, ?_⟩, shaped_cons.mpr ⟨hs _, shaped_one rfl rfl⟩⟩
    split
    · exact shaped_nil
    · exact shaped_one rfl rfl

/-- The lines of an instruction. -/
theorem shaped_insn (m : Linear.Method) (block index : Nat) (i : Linear.Insn) : Shaped a i.Codable (i.isStop = true)
    (fun place => ∃ dst id, i = .literal dst id ∧ place = .literal id) (insn m a block index i) := by
  cases i with
  | move dst src => exact shaped_append.mpr ⟨shaped_read src _, shaped_write dst _⟩
  | const dst value => exact shaped_append.mpr ⟨shaped_moveConst id _, shaped_write dst _⟩
  | literal dst id =>
    refine shaped_cons.mpr ⟨.toPlace ⟨dst, id, rfl, rfl⟩ ?_ fun v err hv he => ?_, shaped_write dst _⟩
    · unfold literalOpcode
      split <;> rfl
    · unfold literalOpcode at he
      split at he
      · exact Opcode.tooFar_literal (.inl rfl) hv he
      · exact Opcode.tooFar_literal (.inr rfl) hv he
  | parameter dst n =>
    simp only [insn]
    split
    · exact shaped_write dst _
    next hn => exact forall_mem_singleton.mpr (.refuse (fun hc => nomatch (getElem?_eq_getElem hc).symm.trans hn) _)
  | arith op kind dst lhs rhs =>
    exact shaped_append.mpr ⟨shaped_append.mpr ⟨shaped_append.mpr ⟨shaped_read lhs _, shaped_read rhs _⟩,
      shaped_arith id _ _ _⟩, shaped_write dst _⟩
  | negate kind dst src =>
    exact shaped_append.mpr ⟨shaped_append.mpr ⟨shaped_read src _, shaped_negate kind _ _⟩, shaped_write dst _⟩
  | convert conversion dst src =>
    cases conversion with
    | intToLong => exact shaped_append.mpr ⟨shaped_read src _, shaped_write dst _⟩
    | longToInt =>
      exact shaped_append.mpr ⟨shaped_append.mpr ⟨shaped_read src _, shaped_one rfl rfl⟩, shaped_write dst _⟩
  | call target args result noreturn bci =>
    simp only [insn, call]
    split
    next hn => exact forall_mem_singleton.mpr (.refuse (Nat.not_le_of_gt hn) _)
    refine shaped_append.mpr ⟨shaped_append.mpr ⟨shaped_append.mpr ⟨fun line hl => ?_,
      shaped_callLines target fun _ => .stop rfl ..⟩, ?_⟩, ?_⟩
    · obtain ⟨p, -, rfl⟩ := mem_map.mp hl
      exact shape_fetch ..
    · cases result with
      | none => exact shaped_nil
      | some v => exact shaped_write v _
    · split
      · exact forall_mem_singleton.mpr (.trap rfl)
      · exact shaped_nil
  | safepoint bci => exact shaped_cons.mpr ⟨.stop rfl .., forall_mem_singleton.mpr (.poll rfl)⟩
  | caught dst => exact shaped_write dst _

/-! ### Ends of blocks -/

theorem shaped_jump (next : Option Nat) {target} (h : P (.block target)) : Shaped a c s P (jump next target) := by
  unfold jump
  split
  · exact shaped_nil
  · exact forall_mem_singleton.mpr (.toPlace h rfl fun _ _ hv he => Opcode.tooFar_b hv he)

theorem shaped_branch (next : Option Nat) (cond : Cond) (isDouble : Bool) {taken notTaken} (ht : P (.block taken))
    (hn : P (.block notTaken)) : Shaped a c s P (branch next cond isDouble taken notTaken) := by
  unfold branch
  split
  · exact forall_mem_singleton.mpr (.toPlace hn rfl fun _ _ hv he => Opcode.tooFar_bCond hv he)
  · exact shaped_cons.mpr ⟨.toPlace ht rfl fun _ _ hv he => Opcode.tooFar_bCond hv he, shaped_jump next hn⟩

/-- The lines of the end of a block, up to an epilogue. -/
theorem shape_terminator (next : Option Nat) {t line} (hl : line ∈ terminator a next t) :
    line ∈ epilogue (frameSize a) ∨
    line.Shape a True False fun place => ∃ target ∈ t.successors, place = .block target := by
  cases t with
  | jump target => exact .inr (shaped_jump next ⟨target, mem_cons_self, rfl⟩ line hl)
  | branch cond kind lhs rhs taken notTaken =>
    refine .inr ?_
    revert line
    change Shaped a True False (fun place => ∃ t ∈ [taken, notTaken], place = .block t) _
    have hr := @shaped_append a True False (fun place => ∃ t ∈ [taken, notTaken], place = .block t)
      |>.mpr ⟨shaped_read lhs scratch, shaped_read rhs scratch2⟩
    have hb := fun cond d =>
      @shaped_branch a True False (fun place => ∃ t ∈ [taken, notTaken], place = .block t) next cond d
      taken notTaken ⟨taken, by simp, rfl⟩ ⟨notTaken, by simp, rfl⟩
    simp only [terminator]
    split
    · exact shaped_append.mpr
        ⟨shaped_append.mpr ⟨shaped_append.mpr ⟨hr, shaped_two rfl rfl rfl rfl⟩, shaped_one rfl rfl⟩,
        hb _ _⟩
    · exact shaped_append.mpr ⟨shaped_append.mpr ⟨hr, shaped_one rfl rfl⟩, hb _ _⟩
  | ret value =>
    cases value with
    | none => exact .inl hl
    | some v =>
      rcases mem_cons.mp hl with rfl | hl
      · exact .inr (shape_fetch ..)
      · exact .inl hl
  | unreachable => cases hl

/-! ### Frames -/

theorem mem_frameSteps {size step} (h : step ∈ frameSteps size) : step = maxFrameStep ∨ step = size % maxFrameStep := by
  refine (mem_append.mp h).imp eq_of_mem_replicate fun h => ?_
  split at h
  · cases h
  · exact mem_singleton.mp h

theorem frameStep_le {size step} (h : step ∈ frameSteps size) : step ≤ maxFrameStep := by
  rcases mem_frameSteps h with rfl | rfl
  · exact Nat.le_refl _
  · exact Nat.le_of_lt (Nat.mod_lt _ (by decide))

/-- Prologues and epilogues can be assembled. -/
theorem assemble_frame {size line} (hl : line ∈ prologue size ++ epilogue size) :
    ∃ o operands w, line = .insn o operands ∧ o.assemble operands = .ok w := by
  have hs : ∀ {o : Opcode} {step : Nat}, o = .addImm ∨ o = .subImm → step ∈ frameSteps size →
      ∃ w, o.assemble [.reg .sp, .reg .sp, .imm step] = .ok w := by
    intro o step ho h
    have he : ∃ bits, Opcode.imm12.encode o.describe.mnemonic (.imm step) = .ok bits := by
      refine Field.encode_unsigned rfl rfl (Int.natCast_nonneg _) ?_
      have hle := frameStep_le h
      have hsp : (Opcode.imm12.span : Int) - 1 = 4095 := rfl
      rw [hsp]
      unfold maxFrameStep at hle
      omega
    rcases ho with rfl | rfl <;>
    · refine assemble_of_fields rfl rfl (forall_mem_cons.mpr ⟨⟨_, rfl⟩, ?_⟩)
      exact forall_mem_cons.mpr ⟨⟨_, rfl⟩, forall_mem_singleton.mpr he⟩
  simp only [prologue, epilogue, mem_append, mem_cons, mem_map, not_mem_nil, or_false] at hl
  rcases hl with ((rfl | rfl) | ⟨step, hm, rfl⟩) | ⟨step, hm, rfl⟩ | rfl | rfl
  · exact ⟨_, _, _, rfl, rfl⟩
  · exact ⟨_, _, _, rfl, rfl⟩
  · obtain ⟨w, hw⟩ := hs (.inr rfl) hm
    exact ⟨_, _, w, rfl, hw⟩
  · obtain ⟨w, hw⟩ := hs (.inl rfl) hm
    exact ⟨_, _, w, rfl, hw⟩
  · exact ⟨_, _, _, rfl, rfl⟩
  · exact ⟨_, _, _, rfl, rfl⟩

end
end Emission
end StackCompiler
