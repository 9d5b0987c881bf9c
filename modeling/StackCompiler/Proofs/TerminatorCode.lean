/-
Ends of blocks in finished code. Where no jump is emitted the next block follows,
even if it is empty.
-/
import StackCompiler.Proofs.BranchCode
import StackCompiler.Proofs.ExactConstants

namespace StackCompiler

open Allocation List Emission Convention Bytes

/-- The block that a jump, or a branch on signed integers, leads to. -/
def Linear.Terminator.target? (content : Var → BitVec 64) : Terminator → Option Nat
  | jump target => some target
  | branch cond kind lhs rhs taken notTaken =>
    let x := content lhs
    let y := content rhs
    if kind = .double then none
    else some (if cond.holds (x = y) (x.toInt < y.toInt) (y.toInt < x.toInt) then taken else notTaken)
  | _ => none

namespace Processor

/-- Carries out a number of instructions, each right behind the one before it. -/
inductive Walks : Nat → Processor → Processor → Prop
  | refl {p} : Walks 0 p p
  | last {p q} (h : p.step = some q) : Walks 1 p q
  | next {n p q r} (h : p.step = some q) (hpc : q.pc = p.pc + 4#64) (hrest : Walks n q r) : Walks (n + 1) p r

/-- A processor at a position of code that lies in memory from an address on; calls may be linked. -/
structure At (base : BitVec 64) (code : Bytes) (position : Nat) (p : Processor) : Prop where
  word : ∀ {k w}, (code.extract (4 * k) (4 * k + 4)).toList = ofWord w → w ≠ unlinkedCall →
    p.loadWord (base + BitVec.ofNat 64 (4 * k)) = w
  pc : p.pc = base + BitVec.ofNat 64 position

variable {base : BitVec 64} {code : Bytes} {position : Nat} {p q r : Processor}

theorem Keeps.refl (changed : List Reg) (p : Processor) : Keeps changed p p := ⟨rfl, rfl, fun _ _ => rfl⟩

theorem Keeps.trans {changed} (h : Keeps changed p q) (h' : Keeps changed q r) : Keeps changed p r :=
  ⟨h'.memory.trans h.memory, h'.sp.trans h.sp, fun x hx => (h'.get x hx).trans (h.get x hx)⟩

theorem At.move (h : At base code position p) (hm : q.memory = p.memory) {position'}
    (hpc : q.pc = base + BitVec.ofNat 64 position') : At base code position' q := by
  refine ⟨fun hw hc => ?_, hpc⟩
  rw [← h.word hw hc, loadWord, loadWord, bytes, bytes, hm]

/-- Code that is not linked yet. -/
theorem At.of_bytes (h : ∀ i byte, code[i]? = some byte → p.memory (base + BitVec.ofNat 64 i) = byte)
    (hpc : p.pc = base + BitVec.ofNat 64 position) : At base code position p := by
  refine ⟨fun {k w} hw _ => ?_, hpc⟩
  have hb : p.bytes (base + BitVec.ofNat 64 (4 * k)) 4 = ofWord w := by
    refine ext_getElem rfl fun i hi hi' => ?_
    have hby : code[4 * k + i]? = some (ofWord w)[i] := by
      have hg := getElem?_eq_getElem hi'
      conv at hg => lhs; rw [← hw, Array.getElem?_toList, Array.getElem?_extract]
      exact (Option.ite_none_right_eq_some.mp hg).2
    rw [← h _ _ hby, BitVec.ofNat_add, ← BitVec.add_assoc]
    simp [bytes]
  rw [loadWord, hb, toWord_ofWord]

theorem At.advance (h : At base code position p) (hm : q.memory = p.memory) (hpc : q.pc = p.pc + 4#64) :
    At base code (position + 4) q := by
  refine h.move hm ?_
  rw [hpc, h.pc, BitVec.ofNat_add, BitVec.add_assoc]

theorem At.goto (h : At base code position p) {d target}
    (hd : BitVec.ofNat 64 position + BitVec.ofInt 64 d = BitVec.ofNat 64 target) : (p.goto d).At base code target := by
  refine h.move (q := p.goto d) rfl ?_
  show p.pc + BitVec.ofInt 64 d = _
  rw [h.pc, BitVec.add_assoc, hd]

theorem At.step_eq (h : At base code position p) {words : List (BitVec 32)}
    (hc : code.toList = words.flatMap ofWord) {k w} (hp : position = 4 * k) (hw : words[k]? = some w)
    {o} {operands} (ha : o.assemble operands = .ok w) (ho : o ≠ .bl) :
    p.step = p.execute o operands := by
  have hl := h.word (extract_words hc hw) (Opcode.ne_unlinkedCall ha ho)
  rw [← hp, ← h.pc] at hl
  exact Processor.step_eq (hl ▸ ha)

end Processor

namespace Bundle
open Emission Processor

theorem ofInt_distance (start source target : Nat) :
    BitVec.ofNat 64 source + BitVec.ofInt 64 (distance (start + source) (start + target)) =
      BitVec.ofNat 64 target := by
  have hw : ∀ i : Int, BitVec.ofInt 64 (i.bmod 0x10000000000000000) = BitVec.ofInt 64 i := fun i => by
    refine BitVec.eq_of_toInt_eq ?_
    rw [BitVec.toInt_ofInt, BitVec.toInt_ofInt]
    exact Int.bmod_bmod
  rw [distance, hw, ← BitVec.ofInt_natCast, ← BitVec.ofInt_natCast, ← BitVec.ofInt_add]
  congr 1
  omega

/-- The words of code in which what refers to a block has the distance to it. -/
structure Joined (m : Linear.Method) (a : Allocation) (code : Bytes) (words : List (BitVec 32)) : Prop where
  coded : Coded (lines m a) words
  code : code.toList = words.flatMap ofWord
  place : ∀ {before behind : List Line} {o : Opcode} {operands : List Operand} {target : Nat},
    lines m a = before ++ .toPlace o operands (.block target) :: behind → target < m.blocks.size →
      ∃ k w d, codeSize before = 4 * k ∧ words[k]? = some w ∧ o.assemble (operands ++ [.rel d]) = .ok w ∧
        BitVec.ofNat 64 (codeSize before) + BitVec.ofInt 64 d = BitVec.ofNat 64 (blockPosition a m target)

/-- A jump or branch is assembled with the distance to the block that it names. -/
theorem ofEmission_joined {m a e b} (he : Emission.ofMethod m a = .ok e) (hb : ofEmission m a e = .ok b) :
    ∃ words, Joined m a b.code words := by
  obtain ⟨-, pool, buffer, buffer', hpa, -, -, hfi, hf⟩ := ofEmission_eq_ok hb
  obtain ⟨words, hc, hco, hpl⟩ := finish_words he hf (fixLabels_code hfi).1 (fixLabels_code hfi).2
  refine ⟨words, hc, hco, fun {before behind o operands target} hs ht => ?_⟩
  have he' : addAll m.key.text (before ++ .toPlace o operands (.block target) :: behind) (Emission.start m) = .ok e :=
    hs ▸ he
  obtain ⟨e₁, label, e₂, -, hl, -, hp⟩ := placeholder_addAll he'
  rw [show (Emission.start m).buffer.offset = 0 from rfl, Nat.zero_add] at hp
  cases hl
  obtain ⟨k, w, hk, hw, hr⟩ := hpl _ hp
  have hla : buffer.labels[target]? = some (.bound (blockPosition a m target)) :=
    labels_block he (fun l hl => labels_literals hpa hfi hl) (Array.getElem?_eq_getElem ht)
  exact ⟨k, w, _, hk, hw, (Buffer.resolve_bound hla).symm.trans hr, ofInt_distance ..⟩

section
variable {m : Linear.Method} {a : Allocation} {words : List (BitVec 32)} {code : Bytes} (h : Joined m a code words)
  {base : BitVec 64}
include h

/-- What lines compute that go on behind themselves, a processor computes on its way through them. -/
theorem Joined.walks_run {changed behind p'} : ∀ {L before : List Line} {p : Processor},
    lines m a = before ++ (L ++ behind) → (∀ line ∈ L, Advances changed line) →
    p.At base code (codeSize before) → p.run L = some p' →
      (∀ {n r}, Walks n p' r → Walks (L.length + n) p r) ∧ p'.At base code (codeSize (before ++ L)) ∧
        Keeps changed p p'
  | [], before, p, _, _, hat, hr => by
    obtain rfl := Option.some.inj hr
    rw [append_nil]
    exact ⟨fun hwa => by simpa using hwa, hat, .refl _ _⟩
  | line :: L, before, p, hl, ha, hat, hr => by
    rw [forall_mem_cons] at ha
    obtain ⟨⟨o, operands, rfl, ho, he⟩, ha⟩ := ha
    obtain ⟨q, hq, hr⟩ := Option.bind_eq_some_iff.mp hr
    obtain ⟨hpc, hke⟩ := he p q hq
    obtain ⟨k, w, hk, hw, has⟩ := (hl ▸ h.coded).word_at
    have hs := (hat.step_eq h.code hk hw has ho).trans hq
    have ha' : q.At base code (codeSize (before ++ [.insn o operands])) := by
      rw [codeSize_append]
      exact hat.advance hke.memory hpc
    obtain ⟨hwa, hen, hk'⟩ := Joined.walks_run (hl.trans (append_cons before _ _)) ha ha' hr
    refine ⟨fun hre => ?_, by simpa using hen, hke.trans hk'⟩
    rw [length_cons, Nat.add_right_comm]
    exact .next hs hpc (hwa hre)

/-- Lines that only jump lead a processor to where they say. -/
theorem Joined.walks_jumps {next L f behind target} (hle : leadsTo f next L = some target) :
    ∀ {before : List Line} {p : Processor}, p.flags = f → lines m a = before ++ (L ++ behind) →
      (∀ o operands t, .toPlace o operands (.block t) ∈ L → t < m.blocks.size) →
      (∀ t, next = some t → codeSize (before ++ L) = blockPosition a m t) → p.At base code (codeSize before) →
        ∃ n p', Walks n p p' ∧ n ≤ L.length ∧ (n = 0 → L = []) ∧ p'.At base code (blockPosition a m target) ∧
          Keeps [] p p' := by
  -- one step for each line, until a jump is taken
  fun_induction leadsTo f next L with
  | case1 =>
    intro before p _ _ _ hne hat
    rw [← hne target hle, append_nil]
    exact ⟨0, p, .refl, Nat.le_refl _, fun _ => rfl, hat, .refl _ _⟩
  | case2 target' rest =>
    cases hle
    intro before p _ hl hwi _ hat
    obtain ⟨k, w, d, hk, hw, ha, hd⟩ := h.place hl (hwi _ _ _ mem_cons_self)
    exact ⟨1, p.goto d, .last (hat.step_eq h.code hk hw ha (by decide)), by simp, by simp, hat.goto hd,
      ⟨rfl, rfl, fun _ _ => rfl⟩⟩
  | case3 c target' rest hc =>
    cases hle
    intro before p hf hl hwi _ hat
    obtain ⟨k, w, d, hk, hw, ha, hd⟩ := h.place hl (hwi _ _ _ mem_cons_self)
    have he : p.execute .bCond [.cond c, .rel d] = some (p.goto d) := by
      show some (if c.holds p.flags then p.goto d else p.next) = _
      rw [hf, if_pos hc]
    exact ⟨1, p.goto d, .last ((hat.step_eq h.code hk hw ha (by decide)).trans he), by simp, by simp, hat.goto hd,
      ⟨rfl, rfl, fun _ _ => rfl⟩⟩
  | case4 c target' rest hc ih =>
    intro before p hf hl hwi hne hat
    obtain ⟨k, w, d, hk, hw, ha, -⟩ := h.place hl (hwi _ _ _ mem_cons_self)
    have he : p.execute .bCond [.cond c, .rel d] = some p.next := by
      show some (if c.holds p.flags then p.goto d else p.next) = _
      rw [hf, if_neg hc]
    have ha' : p.next.At base code (codeSize (before ++ [.toPlace .bCond [.cond c] (.block target')])) := by
      rw [codeSize_append]
      exact hat.advance rfl rfl
    obtain ⟨n, p', hwa, hn, -, hen, hke⟩ := ih hle (p := p.next) hf (hl.trans (by simp))
      (fun o operands t hm => hwi o operands t (mem_cons_of_mem _ hm)) (by simpa using hne) ha'
    exact ⟨n + 1, p', .next ((hat.step_eq h.code hk hw ha (by decide)).trans he) rfl hwa, by simpa,
      by simp, hen, .trans (q := p.next) ⟨rfl, rfl, fun _ _ => rfl⟩ hke⟩
  | case5 => cases hle

end

end Bundle

namespace Emission

/-- The lines at the end of a block. -/
def closing (m : Linear.Method) (a : Allocation) (id : Nat) (b : Linear.Block) : List Line :=
  terminator a (if id + 1 < m.blocks.size then some (id + 1) else none) b.term

/-- The position where they start. -/
def closingPosition (m : Linear.Method) (a : Allocation) (id : Nat) (b : Linear.Block) : Nat :=
  codeSize (linesBefore a m id b.insns.length)

variable {m : Linear.Method} {a : Allocation} {id : Nat} {b : Linear.Block}

theorem lines_closing (hb : m.blocks[id]? = some b) :
    (∃ behind, lines m a = linesBefore a m id b.insns.length ++ (closing m a id b ++ behind)) ∧
      ∀ t, (if id + 1 < m.blocks.size then some (id + 1) else none) = some t →
        codeSize (linesBefore a m id b.insns.length ++ closing m a id b) = blockPosition a m t := by
  have hbl : linesBeforeBlock a m id ++ block m a id b = linesBefore a m id b.insns.length ++ closing m a id b := by
    rw [linesBefore, Linear.Method.block_eq hb, take_length, block_eq, closing, append_assoc]
    rfl
  constructor
  · obtain ⟨behind, hl⟩ := @lines_split m a id b hb
    rw [← append_assoc, hbl] at hl
    exact ⟨behind, hl.trans (append_assoc ..)⟩
  · intro t ht
    obtain ⟨-, ht⟩ := Option.ite_none_right_eq_some.mp ht
    obtain rfl := Option.some.inj ht
    obtain ⟨hs, hle⟩ := blocks_split hb
    have hn := linesBeforeBlock_succ (a := a) hs
    rw [hle] at hn
    rw [← hbl, blockPosition, hn]

theorem mem_successors {next t o operands target} (h : .toPlace o operands (.block target) ∈ terminator a next t) :
    target ∈ t.successors := by
  rcases shape_terminator next h with h | h
  · simp [epilogue] at h
  · cases h with
    | toPlace hp =>
      obtain ⟨target, ht, heq⟩ := hp
      cases heq
      exact ht

end Emission

open Emission Processor in
/-- **Blocks are left for the blocks that their terminators name.** Let a processor be at the end of
a block of finished code that ends in a jump or a branch on integers, whatever its registers and
memory hold. It goes through the lines there, one after the other, until it is at the start of the
target, which for a branch is as the operands compare as signed numbers. On the way only scratch
registers change. -/
theorem terminators_reach_targets {m : Linear.Method} {e : Emission} {bundle : Bundle}
    (he : Emission.ofMethod m (.ofCode m) = .ok e) (hbundle : Bundle.ofEmission m (.ofCode m) e = .ok bundle)
    {id : Nat} {b : Linear.Block} (hb : m.blocks[id]? = some b) (hwithin : ∀ t ∈ b.term.successors, t < m.blocks.size)
    {p : Processor} {base : BitVec 64} (hat : p.At base bundle.code (closingPosition m (.ofCode m) id b))
    {target : Nat} (htarget : b.term.target? (fun v => p.value ((ofCode m).location v)) = some target) :
    ∃ n p', Walks n p p' ∧ n ≤ (closing m (.ofCode m) id b).length ∧ (n = 0 → closing m (.ofCode m) id b = []) ∧
      p'.At base bundle.code (blockPosition (.ofCode m) m target) ∧
      Keeps [scratch, scratch2] p p' := by
  obtain ⟨words, hj⟩ := Bundle.ofEmission_joined he hbundle
  obtain ⟨⟨behind, hl⟩, hne⟩ := @lines_closing m (.ofCode m) id b hb
  unfold closing at hl hne ⊢
  cases hte : b.term with
  | jump t =>
    rw [hte] at htarget hwithin hl hne
    cases htarget
    obtain ⟨n, p', hw, hn, hz, hen, hk⟩ := hj.walks_jumps (leadsTo_jump p.flags _ target) rfl hl
      (fun _ _ t ht => hwithin t (mem_successors (a := .ofCode m) ht)) hne hat
    exact ⟨n, p', hw, hn, hz, hen, hk.memory, hk.sp, fun r _ => hk.get r not_mem_nil⟩
  | branch cond kind x y taken notTaken =>
    have hp : ∀ v ∈ [x, y], Placed (ofCode m) v := fun v hv =>
      placed hb (mem_append_right _ (by rw [hte]; exact hv))
    rw [hte] at htarget hwithin hl hne
    obtain ⟨hki, htarget⟩ := Option.ite_none_left_eq_some.mp htarget
    obtain ⟨before, q, hc, hru, hf, ha⟩ := terminator_compare cond hki (hp x (by simp))
      (hp y (by simp)) (if id + 1 < m.blocks.size then some (id + 1) else none) taken notTaken p
    rw [hc, append_assoc] at hl
    rw [hc, ← append_assoc] at hne
    obtain ⟨hw, ha', hk⟩ := hj.walks_run hl ha hat hru
    have hle := leadsTo_branch q.flags (if id + 1 < m.blocks.size then some (id + 1) else none)
      (show integerCond cond ≠ .al by cases cond <;> decide) taken notTaken
    rw [hf, holds_integerCond, htarget] at hle
    obtain ⟨n, p', hr, hn, hz, hen, hk'⟩ := hj.walks_jumps hle hf
      (hl.trans (append_assoc ..).symm)
      (fun _ _ t ht => hwithin t (mem_successors (hc ▸ mem_append_right _ ht))) hne ha'
    refine ⟨_, p', hw hr, ?_, fun hn => ?_, hen,
      hk.trans ⟨hk'.memory, hk'.sp, fun r _ => hk'.get r not_mem_nil⟩⟩
    · rw [hc, length_append]
      omega
    · rw [hc, hz (by omega), eq_nil_of_length_eq_zero (by omega : before.length = 0)]
      rfl
  | ret | unreachable =>
    rw [hte] at htarget
    cases htarget

/-- A block that is nothing but a branch, to the next block or back to itself. -/
def spinningBlock : Linear.Block := { term := .branch .ge .long 0 1 1 0 }

/-- A loop with an empty block behind it. -/
def spinning : Linear.Method where
  key := ⟨"T", "m", "()V"⟩
  vars := #[.long, .long]
  blocks := #[spinningBlock, { term := .jump 2 }, { term := .ret none }]

theorem emits_spinning : ∃ e bundle, ofMethod spinning (.ofCode spinning) = .ok e ∧
    Bundle.ofEmission spinning (.ofCode spinning) e = .ok bundle ∧ bundle.code.size = 24 := by
  have h : (ofMethod spinning (ofCode spinning)).toOption.map (fun e =>
      (Bundle.ofEmission spinning (ofCode spinning) e).toOption.map (·.code.size)) = some (some 24) := by
    cbv
  obtain ⟨e, he, h⟩ := exists_ok_of_map h
  obtain ⟨bundle, hb, hs⟩ := exists_ok_of_map h
  exact ⟨e, bundle, he, hb, hs⟩

/-- With a negative first operand, the branch of `spinning`, which is turned around, leads back to itself. -/
theorem terminators_reach_targets_spinning : ∃ e bundle, ∃ (p : Processor) (n : Nat) (p' : Processor),
    ofMethod spinning (.ofCode spinning) = .ok e ∧
    Bundle.ofEmission spinning (.ofCode spinning) e = .ok bundle ∧
    p.value ((ofCode spinning).location 0) = -1#64 ∧
    p.value ((ofCode spinning).location 1) = 0#64 ∧
    p.At 0#64 bundle.code (blockPosition (.ofCode spinning) spinning 0) ∧
    p.Walks n p' ∧ n ≠ 0 ∧ p'.At 0#64 bundle.code (blockPosition (.ofCode spinning) spinning 0) := by
  obtain ⟨e, bundle, he, hb, hsi⟩ := emits_spinning
  have hlh : (ofCode spinning).location 0 = .register (reg 9) := by cbv
  have hr : (ofCode spinning).location 1 = .register (reg 10) := by cbv
  have hs : closingPosition spinning (.ofCode spinning) 0 spinningBlock =
      blockPosition (.ofCode spinning) spinning 0 := by cbv
  let p : Processor := {
    reg := fun r => if r = reg 9 then -1#64 else 0#64
    flags := ⟨false, false, false, false⟩
    memory := fun a => bundle.code.getD a.toNat 0
    pc := 0#64 + BitVec.ofNat 64 (blockPosition (.ofCode spinning) spinning 0) }
  have hat : p.At 0#64 bundle.code (blockPosition (.ofCode spinning) spinning 0) := by
    refine .of_bytes (fun i byte hby => ?_) rfl
    have hi : i < 24 := hsi ▸ (Array.getElem?_eq_some_iff.mp hby).1
    show bundle.code.getD (0#64 + BitVec.ofNat 64 i).toNat 0 = byte
    rw [BitVec.zero_add, BitVec.toNat_ofNat, Nat.mod_eq_of_lt (by omega), Array.getD_eq_getD_getElem?, hby]
    rfl
  have ht : spinningBlock.term.target? (fun v => p.value ((ofCode spinning).location v)) = some 0 := by
    have hle : spinningBlock.term.target? (fun v => if v = 0 then -1#64 else 0#64) = some 0 := by decide
    rw [← hle]
    simp only [spinningBlock, Linear.Terminator.target?, hlh, hr]
    rfl
  obtain ⟨n, p', hw, -, hz, hen, -⟩ := @terminators_reach_targets spinning e bundle he hb 0 spinningBlock
    rfl (by decide) p 0#64 (hs ▸ hat) 0 ht
  refine ⟨e, bundle, p, n, p', he, hb, by rw [hlh]; rfl, by rw [hr]; rfl, hat, hw, fun hn => ?_, hen⟩
  have hl : (closing spinning (.ofCode spinning) 0 spinningBlock).isEmpty = false := by cbv
  rw [hz hn] at hl
  cases hl

end StackCompiler
