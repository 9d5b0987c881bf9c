/-
Branches in emitted code compare two registers, folding compares the constants
themselves: words have no sign, and null is apart from the object whose handle is
zero.
-/
import StackCompiler.Proofs.IntegerCode

namespace StackCompiler

open Processor Allocation Emission Convention List

/-! ## Flags of a difference -/

namespace Flags

variable (x y : BitVec 64)

theorem zero_ofSub : (ofSub x y).zero = decide (x = y) := by
  simp only [ofSub, BitVec.sub_eq_iff_eq_add, BitVec.zero_add]

/-- The first number is less exactly if the sign of the difference is wrong or it is negative, not both. -/
theorem less_ofSub : ((ofSub x y).negative != (ofSub x y).overflow) = decide (x.toInt < y.toInt) := by
  have hx := x.toInt_lt
  have hx' := x.le_toInt
  have hy := y.toInt_lt
  have hy' := y.le_toInt
  have hd := (x - y).toInt_lt
  have hd' := (x - y).le_toInt
  -- the difference of the registers is the difference of the numbers, up to the size of a register
  obtain ⟨k, hk⟩ : (18446744073709551616 : Int) ∣ (x - y).toInt - (x.toInt - y.toInt) := by
    rw [BitVec.toInt_sub]
    exact Int.dvd_bmod_sub_self
  simp only [ofSub, BitVec.msb_eq_toInt]
  rw [Bool.eq_iff_iff, bne_iff_ne, ne_eq, Bool.eq_iff_iff]
  simp only [decide_eq_true_eq]
  omega

end Flags

/-- The conditions for integers compare registers as signed numbers. -/
theorem Emission.holds_integerCond (c : Comparison) (x y : BitVec 64) :
    (integerCond c).holds (.ofSub x y) = c.holds (x = y) (x.toInt < y.toInt) (y.toInt < x.toInt) := by
  have hz := Flags.zero_ofSub x y
  have hl := Flags.less_ofSub x y
  have hn : ((Flags.ofSub x y).negative == (Flags.ofSub x y).overflow) = !decide (x.toInt < y.toInt) := by
    rw [← hl, bne, Bool.not_not]
  have heq : x = y ↔ x.toInt = y.toInt := BitVec.toInt_inj.symm
  cases c with
  | eq => exact hz
  | ne => exact congrArg (!·) hz
  | lt => exact hl
  | ge | gt | le =>
    simp only [integerCond, Cond.holds, Comparison.holds, hz, hn]
    rw [Bool.eq_iff_iff]
    simp only [Bool.or_eq_true, Bool.and_eq_true, Bool.not_eq_true', decide_eq_true_eq, decide_eq_false_iff_not,
      Bool.and_eq_false_iff, Bool.not_eq_false', heq]
    omega

/-! ## Constants and their images -/

/-- Whether a condition is one of order. -/
def Comparison.isOrder : Comparison → Bool
  | eq | ne => false
  | lt | ge | gt | le => true

/-- Constants that are compared in one way and their images in another: words of which one has the
highest bit, and null with the object whose handle is zero. -/
def Comparison.misjudges (c : Comparison) : Value → Value → Bool
  | .word x, .word y => c.isOrder && (x.toBitVec.msb != y.toBitVec.msb)
  | .null, .reference r | .reference r, .null => r.handle = 0
  | _, _ => false

namespace Comparison

variable (c : Comparison)

theorem holds_int (a b : Int32) : c.holds (a = b) (a < b) (b < a) =
    (integerCond c).holds (.ofSub (Value.int a).image (Value.int b).image) := by
  have heq : (a.toBitVec.signExtend 64 = b.toBitVec.signExtend 64) ↔ a = b := by
    rw [← BitVec.toInt_inj, toInt_signExtend_int, toInt_signExtend_int]
    exact Int32.toInt_inj
  simp only [holds_integerCond, Value.image_int, heq, toInt_signExtend_int, Int32.lt_iff_toInt_lt]
  rfl

theorem holds_long (a b : Int64) : c.holds (a = b) (a < b) (b < a) =
    (integerCond c).holds (.ofSub (Value.long a).image (Value.long b).image) := by
  simp only [holds_integerCond, Value.image_long, Int64.toBitVec_inj, Int64.lt_iff_toInt_lt]
  rfl

/-- Signed words with the same highest bit are in the order of the words, others in the opposite one. -/
theorem toInt_lt_iff (x y : UInt64) : x.toBitVec.toInt < y.toBitVec.toInt ↔
    if x.toBitVec.msb = y.toBitVec.msb then x < y else y < x := by
  have hx : x.toBitVec.toInt = if x.toBitVec.msb = true then (x.toNat : Int) - 18446744073709551616 else x.toNat :=
    x.toBitVec.toInt_eq_msb_cond
  have hy : y.toBitVec.toInt = if y.toBitVec.msb = true then (y.toNat : Int) - 18446744073709551616 else y.toNat :=
    y.toBitVec.toInt_eq_msb_cond
  have hx' : x.toBitVec.msb = decide (9223372036854775808 ≤ x.toNat) := x.toBitVec.msb_eq_decide
  have hy' : y.toBitVec.msb = decide (9223372036854775808 ≤ y.toNat) := y.toBitVec.msb_eq_decide
  have hlt := x.toNat_lt
  have hl' := y.toNat_lt
  rw [hx, hy, hx', hy']
  simp only [decide_eq_true_eq, UInt64.lt_iff_toNat_lt, decide_eq_decide]
  split <;> split <;> split <;> omega

theorem holds_word_iff (x y : UInt64) : c.holds (x = y) (x < y) (y < x) =
    (integerCond c).holds (.ofSub (Value.word x).image (Value.word y).image) ↔
      (c.isOrder && (x.toBitVec.msb != y.toBitVec.msb)) = false := by
  show _ = (integerCond c).holds (.ofSub x.toBitVec y.toBitVec) ↔ _
  simp only [holds_integerCond, UInt64.toBitVec_inj, toInt_lt_iff, eq_comm (a := y.toBitVec.msb)]
  by_cases hm : x.toBitVec.msb = y.toBitVec.msb
  · simp [hm]
  · have hne : x ≠ y := fun h => hm (by rw [h])
    have hb : (x.toBitVec.msb != y.toBitVec.msb) = true := bne_iff_ne.mpr hm
    simp only [if_neg hm, hb, Bool.and_true]
    have ho : x < y ∧ ¬ y < x ∨ y < x ∧ ¬ x < y := by
      rw [UInt64.lt_iff_toNat_lt, UInt64.lt_iff_toNat_lt]
      have hn' : x.toNat ≠ y.toNat := fun h => hne (UInt64.toNat_inj.mp h)
      omega
    cases c <;> rcases ho with ⟨h, h'⟩ | ⟨h, h'⟩ <;> simp [holds, isOrder, hne, h, h']

/-- References are equal exactly if their images are, null and the handle zero apart. -/
theorem reference_eq_iff {a b} (ha : a.kind = .reference) (hb : b.kind = .reference) :
    decide (a = b) = decide (a.image = b.image) ↔ c.misjudges a b = false := by
  have hi : a.image = b.image ↔ a.bits = b.bits := UInt64.toBitVec_inj
  rw [decide_eq_decide, hi]
  cases a with
  | null =>
    cases b with
    | null => simp [misjudges]
    | reference r => simp [misjudges, Value.bits, eq_comm]
    | _ => cases hb
  | reference r =>
    cases b with
    | null => simp [misjudges, Value.bits]
    | reference r' =>
      have hh : r = r' ↔ r.handle = r'.handle := ⟨congrArg _, fun h => by cases r; cases r'; cases h; rfl⟩
      simp [misjudges, Value.bits, hh]
    | _ => cases hb
  | _ => cases ha

/-- Folding and emitted code agree on all constants but the misjudged ones. -/
theorem eval?_eq_holds_iff {a b outcome} (h : c.eval? a b = some outcome) (hki : a.kind ≠ .double) :
    outcome = (integerCond c).holds (.ofSub a.image b.image) ↔ c.misjudges a b = false := by
  unfold eval? at h
  split at h
  next a b =>
    cases h
    exact iff_of_true (c.holds_int a b) rfl
  next a b =>
    cases h
    exact iff_of_true (c.holds_long a b) rfl
  next a b =>
    cases h
    exact c.holds_word_iff a b
  next => exact absurd rfl hki
  next =>
    obtain ⟨hk, h⟩ := Option.ite_none_right_eq_some.mp h
    have he := c.reference_eq_iff hk.1 hk.2
    rw [holds_integerCond]
    cases c with
    | eq =>
      cases h
      exact he
    | ne =>
      cases h
      rw [← he, decide_not]
      exact Bool.not_inj_iff
    | lt | ge | gt | le => cases h

end Comparison
/-! ## Branches -/

namespace Emission

theorem holds_negate (f : Flags) {c : Cond} (hc : c ≠ .al) : c.negate.holds f = !c.holds f := by
  cases c with
  | al => exact absurd rfl hc
  | _ => simp [Cond.negate, Cond.holds, bne]

/-- The block that lines lead to that do nothing but jump, with a block behind them. -/
def leadsTo (f : Flags) (next : Option Nat) : List Line → Option Nat
  | [] => next
  | .toPlace .b [] (.block target) :: _ => some target
  | .toPlace .bCond [.cond c] (.block target) :: rest =>
    if c.holds f then some target else leadsTo f next rest
  | _ => none

theorem leadsTo_jump (f : Flags) (next : Option Nat) (target : Nat) :
    leadsTo f next (jump next target) = some target := by
  unfold jump
  split
  next h => exact h
  next => rfl

theorem leadsTo_branch (f : Flags) (next : Option Nat) {c} (hc : c ≠ .al) (taken notTaken : Nat) :
    leadsTo f next (branch next c false taken notTaken) = some (if c.holds f then taken else notTaken) := by
  unfold branch
  split
  next hn =>
    rw [leadsTo, holds_negate f hc, leadsTo, hn.1]
    cases c.holds f <;> rfl
  next =>
    rw [leadsTo, leadsTo_jump]
    cases c.holds f <;> rfl

end Emission

@[simp] theorem Processor.run_cmp (p : Processor) (n m : Reg) (rest : List Emission.Line) :
    p.run (regs .cmp [n, m] :: rest) =
      ({ p with flags := .ofSub (p.get n) (p.get m) } : Processor).next.run rest := rfl

/-- An instruction that changes nothing but some registers and the flags. -/
def Processor.Advances (changed : List Reg) (line : Emission.Line) : Prop :=
  ∃ o operands, line = .insn o operands ∧ o ≠ .bl ∧ ∀ p p' : Processor, p.execute o operands = some p' →
    p'.pc = p.pc + 4#64 ∧ Keeps changed p p'

theorem Processor.pc_set (p : Processor) (r : Reg) (x : BitVec 64) : (p.set r x).pc = p.pc := by
  unfold set
  split <;> rfl

theorem Processor.advances_read {a v temp changed} (ht : temp ∈ changed) :
    ∀ line ∈ (read a v temp).1, Advances changed line := by
  unfold Emission.read
  intro line hli
  cases hl : a.location v with
  | register r =>
    rw [hl] at hli
    cases hli
  | stack slot =>
    rw [hl] at hli
    refine ⟨_, _, mem_singleton.mp hli, by decide, fun p p' h => ?_⟩
    obtain rfl := Option.some.inj h
    refine ⟨congrArg (· + 4#64) (p.pc_set ..), memory_set .., sp_set .., fun r hr => ?_⟩
    have hne : r ≠ temp := fun heq => hr (heq ▸ ht)
    rw [get_next]
    exact get_set_ne _ _ hne

theorem Processor.advances_cmp (changed : List Reg) (n m : Reg) : Advances changed (regs .cmp [n, m]) := by
  refine ⟨_, _, rfl, by decide, fun p p' h => ?_⟩
  obtain rfl := Option.some.inj h
  exact ⟨rfl, rfl, rfl, fun _ _ => rfl⟩

theorem Emission.terminator_compare {a} (cond : Comparison) {kind} (hk : kind ≠ .double) {x y}
    (hx : Placed a x) (hy : Placed a y) (next : Option Nat) (taken notTaken : Nat) (p : Processor) :
    ∃ before p', terminator a next (.branch cond kind x y taken notTaken) =
        before ++ branch next (integerCond cond) false taken notTaken ∧
      p.run before = some p' ∧ p'.flags = .ofSub (p.value (a.location x)) (p.value (a.location y)) ∧
      ∀ line ∈ before, Processor.Advances [scratch, scratch2] line := by
  obtain ⟨p', hru, hl, hr, -⟩ := p.run_operands hx hy
  let l := (read a x scratch).2
  let r := (read a y scratch2).2
  refine ⟨(read a x scratch).1 ++ (read a y scratch2).1 ++ [regs .cmp [l, r]],
    ({ p' with flags := .ofSub (p'.get l) (p'.get r) } : Processor).next, ?_, ?_, ?_, ?_⟩
  · exact if_neg hk
  · rw [run_append, hru, Option.bind_some, run_cmp, run_nil]
  · rw [flags_next, hl, hr]
  · simp only [forall_mem_append, forall_mem_singleton]
    exact ⟨⟨advances_read (by simp), advances_read (by simp)⟩, advances_cmp ..⟩

theorem Comparison.onSame_eq_holds (c : Comparison) (a : Value) :
    c.onSame = (integerCond c).holds (.ofSub a.image a.image) ∧ c.misjudges a a = false := by
  constructor
  · rw [holds_integerCond]
    cases c <;> simp [onSame, holds]
  · cases a <;> simp [misjudges]

/-- **Folding of a branch agrees with the emitted comparison, up to words with the highest bit and
null.** Let a branch on two constants of a kind other than double be decided, and stand at the end
of a block with the images of the constants in the places of its operands. Its lines compare the
images and leave by the condition for integers. The known outcome is whether it holds, except for an
order of words of which only one has the highest bit, and for null against the object with the
handle zero; there it never is. -/
theorem branch_folding_agrees_iff {g : Graph} {cond : Comparison} {lhs rhs : NodeId} {outcome : Bool}
    (hfold : g.outcome? cond lhs rhs = some outcome) {a b : Value} (ha : g.constant? lhs = some a)
    (hb : g.constant? rhs = some b) (hkind : a.kind ≠ .double) {m : Linear.Method} {id : Nat}
    {block : Linear.Block} (hblock : m.blocks[id]? = some block) {x y : Var} {taken notTaken : Nat}
    (hterm : block.term = .branch cond a.kind x y taken notTaken) (next : Option Nat) {p : Processor}
    (hx : p.value ((ofCode m).location x) = a.image)
    (hy : p.value ((ofCode m).location y) = b.image) :
    ∃ before p', terminator (ofCode m) next block.term =
        before ++ branch next (integerCond cond) false taken notTaken ∧
      p.run before = some p' ∧ p'.flags = .ofSub a.image b.image ∧
      leadsTo p'.flags next (branch next (integerCond cond) false taken notTaken) =
        some (if (integerCond cond).holds p'.flags then taken else notTaken) ∧
      (outcome = (integerCond cond).holds p'.flags ↔ cond.misjudges a b = false) := by
  have hp : ∀ v ∈ [x, y], Placed (ofCode m) v := by
    intro v hv
    refine placed hblock (mem_append_right _ ?_)
    rw [hterm]
    exact hv
  obtain ⟨before, p', hl, hr, hf, -⟩ := terminator_compare cond hkind
    (hp x mem_cons_self) (hp y (mem_cons_of_mem _ mem_cons_self)) next taken notTaken p
  rw [hx, hy] at hf
  have hal : integerCond cond ≠ .al := by cases cond <;> decide
  refine ⟨before, p', hterm ▸ hl, hr, hf, leadsTo_branch _ _ hal _ _, ?_⟩
  rw [hf]
  unfold Graph.outcome? at hfold
  split at hfold
  next hs =>
    obtain rfl : a = b := Option.some.inj (ha.symm.trans (hs.1 ▸ hb))
    cases hfold
    exact iff_of_true (cond.onSame_eq_holds a).1 (cond.onSame_eq_holds a).2
  next =>
    rw [ha, hb] at hfold
    exact cond.eval?_eq_holds_iff hfold hkind

def wordBranch : Linear.Method where
  key := ⟨"T", "m", "()V"⟩
  vars := #[.word, .word]
  blocks := #[{ term := .branch .lt .word 0 1 2 1 }, { term := .ret none }, { term := .ret none }]

/-- The graph that it comes from: the word with only the highest bit, and one. -/
def wordBranchGraph : Graph where
  key := ⟨"T", "m", "()V"⟩
  signature := ⟨[], .void⟩
  nodes := #[⟨.constant (.word 0x8000000000000000), .word, 0, none⟩, ⟨.constant (.word 1), .word, 1, none⟩]
  blocks := #[]

/-- The word with only the highest bit is not less than one, but its image is. -/
theorem branch_folding_agrees_iff_words : ∃ (before : List Emission.Line) (p p' : Processor),
    wordBranchGraph.outcome? .lt 0 1 = some false ∧
    p.value (.register (reg 9)) = (Value.word 0x8000000000000000).image ∧
    p.value (.register (reg 10)) = (Value.word 1).image ∧
    terminator (ofCode wordBranch) (some 1) (.branch .lt .word 0 1 2 1) =
      before ++ branch (some 1) .lt false 2 1 ∧
    p.run before = some p' ∧ leadsTo p'.flags (some 1) (branch (some 1) .lt false 2 1) = some 2 := by
  have hlh : (ofCode wordBranch).location 0 = .register (reg 9) := by cbv
  have hr : (ofCode wordBranch).location 1 = .register (reg 10) := by cbv
  let p : Processor := {
    reg := fun r => if r = reg 9 then (Value.word 0x8000000000000000).image else (Value.word 1).image
    flags := ⟨false, false, false, false⟩
    memory := fun _ => 0
    pc := 0#64 }
  obtain ⟨before, p', hli, hru, -, hl, hi⟩ := branch_folding_agrees_iff
    (show wordBranchGraph.outcome? .lt 0 1 = some false by decide) rfl rfl (by decide)
    (show wordBranch.blocks[0]? = some _ from rfl) rfl (some 1) (p := p) (by rw [hlh]; rfl) (by rw [hr]; rfl)
  have ht : (integerCond .lt).holds p'.flags = true :=
    eq_true_of_ne_false fun h => absurd (hi.mp h.symm) (by decide)
  rw [ht] at hl
  exact ⟨before, p, p', by decide, rfl, rfl, hli, hru, hl⟩

/-- Folding finds that the word with only the highest bit is not less than one, and that null is not
the object with the handle zero; the emitted code finds the opposite. -/
theorem images_compare_differently :
    wordBranchGraph.outcome? .lt 0 1 = some false ∧
    (integerCond .lt).holds
      (.ofSub (Value.word 0x8000000000000000).image (Value.word 1).image) = true ∧
    Comparison.eq.eval? .null (.reference ⟨0⟩) = some false ∧
    (integerCond .eq).holds (.ofSub Value.null.image (Value.reference ⟨0⟩).image) = true := by
  decide

end StackCompiler
