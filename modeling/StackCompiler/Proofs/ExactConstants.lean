/-
Constants in compiled code. A constant is moved into its register, or loaded from
its slot in the bundle. These words and bytes belong to no call, so they stay
whatever is linked later.
-/
import StackCompiler.Proofs.CatchRanges
import StackCompiler.Proofs.InstalledBytes
import StackCompiler.Proofs.IntegerCode
import StackCompiler.Proofs.LiteralLoads
import StackCompiler.Proofs.LowerLayout
import StackCompiler.Proofs.LoweredLiterals
import StackCompiler.Proofs.ReferenceMaps

namespace StackCompiler

open Bytes List BitVec Emission Literal Processor Convention Linear

/-! ## Instructions -/

namespace Value

theorem ofInt_signedBits (v : Value) : BitVec.ofInt 64 v.signedBits = v.image := ofInt_toInt

theorem ofNat_toNat_bits (v : Value) : BitVec.ofNat 64 v.bits.toNat = v.image := by
  rw [image, ← UInt64.toNat_toBitVec, ofNat_toNat, setWidth_eq]

end Value

theorem Literal.width_ofValue (v : Value) : (ofValue v).width = v.kind.width := by
  rw [width, value_ofValue]

theorem Emission.expand_literalOpcode (l : Literal) (operands : List Operand) :
    (literalOpcode (some l)).expand operands = (literalOpcode (some l), operands) := by
  unfold literalOpcode
  split <;> rfl

theorem Emission.literalOpcode_ne_bl (l : Option Literal) : literalOpcode l ≠ .bl := by
  unfold literalOpcode
  split <;> decide

theorem Emission.lines_literal {m} (a : Allocation) {id} {b}
    (hb : m.blocks[id]? = some b) {pre rest dst k} (hinsns : b.insns = pre ++ .literal dst k :: rest) :
    ∃ behind, lines m a = linesBefore a m id pre.length ++
      .toPlace (literalOpcode m.literals[k]?) [.reg (dest a dst scratch)] (.literal k) :: behind := by
  obtain ⟨behind, hli⟩ := @lines_insn m a id b hb pre rest _ hinsns
  exact ⟨_, hli⟩

theorem CompiledMethod.MadeFrom.stocked {cm m a} (h : MadeFrom cm m a) :
    ∃ words slot, Bundle.Stocked m a cm.bundle words slot := by
  obtain ⟨e, b, p, he, hb, rfl⟩ := h
  obtain ⟨words, slot, hs⟩ := Bundle.ofEmission_stocked he hb
  exact ⟨words, slot, { hs with holds := fun hu => { hs.holds hu with } }⟩

theorem Opcode.ne_unlinkedCall {o : Opcode} {operands w} (h : o.assemble operands = .ok w) (ho : o ≠ .bl) :
    w ≠ unlinkedCall := by
  rintro rfl
  exact ho (eq_bl h (show bl.assemble [.rel 0] = .ok unlinkedCall from rfl)).1

namespace Processor
variable (p : Processor) {d : Reg}

/-- A move leaves the image of its constant in the register. -/
theorem execute_moveConst {v o operands} (h : moveConst d v = [.insn o operands]) :
    p.execute o operands = some (p.set d v.image).next ∧ o ≠ .bl := by
  unfold moveConst at h
  dsimp only at h
  split at h
  next =>
    cases h
    refine ⟨?_, by decide⟩
    show some (p.set d (BitVec.ofInt 64 v.signedBits <<< (0 : Int).toNat)).next = _
    rw [show (0 : Int).toNat = 0 from rfl, shiftLeft_zero, v.ofInt_signedBits]
  next =>
    split at h
    next =>
      cases h
      refine ⟨?_, by decide⟩
      have hn : ~~~(BitVec.ofInt 64 (-v.signedBits - 1)) = v.image := by
        rw [← v.ofInt_signedBits]
        refine eq_of_toNat_eq ?_
        rw [toNat_not, toNat_ofInt, toNat_ofInt]
        omega
      show some (p.set d (~~~(BitVec.ofInt 64 (-v.signedBits - 1) <<< (0 : Int).toNat))).next = _
      rw [show (0 : Int).toNat = 0 from rfl, shiftLeft_zero, hn]
    next => cases h

theorem exists_moveConst {v} (h : ∀ what, Emission.Line.refuse what ∉ moveConst d v) :
    ∃ o operands, moveConst d v = [.insn o operands] := by
  unfold moveConst at h ⊢
  dsimp only at h ⊢
  split
  next => exact ⟨_, _, rfl⟩
  next hlo =>
    rw [if_neg hlo] at h
    split
    next => exact ⟨_, _, rfl⟩
    next hh =>
      rw [if_neg hh] at h
      exact absurd mem_cons_self (h _)

/-- A load leaves the image of its literal in the register. -/
theorem execute_literalOpcode {l distance} (h : p.bytes (p.pc + BitVec.ofInt 64 distance) l.width = l.bytes) :
    p.execute (literalOpcode (some l)) [.reg d, .rel distance] = some (p.set d l.value.image).next := by
  have hlo : l.width = 8 → p.load (p.pc + BitVec.ofInt 64 distance) = l.value.image := by
    intro hw
    have hlt : l.value.bits.toNat < Nat.pow 256 8 := l.value.bits.toNat_lt
    rw [load, ← hw, h, Literal.bytes, hw, ofLittleEndian_littleEndian, Nat.mod_eq_of_lt hlt,
      Value.ofNat_toNat_bits]
  cases l with
  | reference r => exact congrArg (fun x => some (p.set d x).next) (hlo rfl)
  | scalar v =>
    cases v with
    | int a =>
      have hwo : p.loadWord (p.pc + BitVec.ofInt 64 distance) = a.toBitVec := by
        have hbi : (Value.int a).bits.toNat = (a.toBitVec.signExtend 64).toNat := rfl
        have hby : p.bytes (p.pc + BitVec.ofInt 64 distance) 4 = littleEndian 4 (Value.int a).bits.toNat := h
        rw [loadWord, hby, toWord, take_of_length_le (Nat.le_of_eq (length_littleEndian 4 _)),
          ofLittleEndian_littleEndian, hbi]
        refine eq_of_toNat_eq ?_
        have hlow := congrArg BitVec.toNat (setWidth_signExtend_int a.toBitVec)
        rw [toNat_setWidth] at hlow
        rw [toNat_ofNat, show Nat.pow 256 4 = 0x100000000 from rfl]
        omega
      show some (p.set d ((p.loadWord _).signExtend 64)).next = _
      rw [hwo]
      rfl
    | _ => exact congrArg (fun x => some (p.set d x).next) (hlo rfl)

/-! ## Code in a window -/

/-- The memory of a processor holds a window, moved by some distance. -/
def Sees (p : Processor) (shift : BitVec 64) (w : Window) : Prop :=
  ∀ x, w.base ≤ x → x < w.base + w.size → p.memory (shift + BitVec.ofNat 64 x) = w.byte x

section
variable {p} {shift : BitVec 64} {w : Window} {address : Nat}

theorem Sees.bytes_eq (h : p.Sees shift w) {data} (hin : w.Holds address data.length)
    (hd : ∀ i b, data[i]? = some b → w.byte (address + i) = b) :
    p.bytes (shift + BitVec.ofNat 64 address) data.length = data := by
  obtain ⟨hle, hst⟩ := hin
  refine ext_getElem (by simp [bytes]) fun i hi hi' => ?_
  have hs : shift + BitVec.ofNat 64 address + BitVec.ofNat 64 i = shift + BitVec.ofNat 64 (address + i) := by
    rw [ofNat_add, BitVec.add_assoc]
  have hby : (p.bytes (shift + BitVec.ofNat 64 address) data.length)[i] = w.byte (address + i) := by
    simp only [bytes, getElem_map, getElem_range, hs]
    exact h _ (by omega) (by omega)
  rw [hby]
  exact hd i _ (getElem?_eq_getElem hi')

theorem Sees.step_eq (h : p.Sees shift w) (hpc : p.pc = shift + BitVec.ofNat 64 address) {word}
    (hin : w.Holds address 4) (hw : ∀ i b, (ofWord word)[i]? = some b → w.byte (address + i) = b)
    {o operands} (ha : o.assemble operands = .ok word) :
    p.step = p.execute o operands := by
  have hlo : p.loadWord p.pc = word := by
    have hby : p.bytes (shift + BitVec.ofNat 64 address) 4 = ofWord word := h.bytes_eq hin hw
    rw [loadWord, hpc, hby, toWord_ofWord]
  exact Processor.step_eq (hlo ▸ ha)

end
end Processor

/-! ## Installed code -/

theorem Emission.Coded.word_at {o operands behind} :
    ∀ {before : List Line} {words : List (BitVec 32)}, Coded (before ++ .insn o operands :: behind) words →
      ∃ k w, codeSize before = 4 * k ∧ words[k]? = some w ∧ o.assemble operands = .ok w
  | [], words, h => by
    cases h with
    | cons hli hr =>
      cases hli with
      | insn h => exact ⟨0, _, rfl, rfl, h⟩
  | line :: before, words, h => by
    cases h with
    | @cons _ _ ws words hli hr =>
      obtain ⟨k, w, hk, hw, ha⟩ := hr.word_at
      refine ⟨ws.length + k, w, ?_, ?_, ha⟩
      · rw [codeSize, hli.size, hk]
        omega
      · rw [getElem?_append_right (Nat.le_add_right _ _), Nat.add_sub_cancel_left]
        exact hw

namespace CodeCache.Kept
variable {c : CacheConfig} {t : CodeCache} {cm : CompiledMethod}

section
variable (ht : t.Kept c) (hcm : cm ∈ t.installed)
include ht hcm

theorem word {words : List (BitVec 32)}
    (hco : cm.bundle.code.toList = words.flatMap ofWord) {k w} (hw : words[k]? = some w)
    (hca : w ≠ unlinkedCall) : t.window.Holds (cm.codeStart + 4 * k) 4 ∧
      ∀ i b, (ofWord w)[i]? = some b → t.window.byte (cm.codeStart + 4 * k + i) = b := by
  have hs := ht.sited cm hcm
  obtain ⟨hst, hsto⟩ := hs.code_within
  have he := extract_words hco hw
  have hsiz : 4 * k + 4 ≤ cm.bundle.code.size := by
    have hle := congrArg List.length he
    simp only [Array.toList_extract, extract_eq_take_drop, length_take, length_drop,
      Array.length_toList, length_ofWord] at hle
    omega
  obtain ⟨hle, hf⟩ := ht.inside cm hcm
  refine ⟨⟨by omega, by omega⟩, fun i b hb => ?_⟩
  have hi : i < 4 := (List.getElem?_eq_some_iff.mp hb).1
  have hby : cm.bundle.code[4 * k + i]? = some b := by
    rw [← he, Array.getElem?_toList, Array.getElem?_extract] at hb
    split at hb
    · exact hb
    · cases hb
  have him := CompiledMethod.getElem?_image hs hby
  have hla : cm.Lasting (cm.bundle.codeOffset + (4 * k + i)) := by
    intro site hsi hx
    obtain ⟨k', ha, -, hsi⟩ := hs.site site hsi
    obtain rfl : k' = k := by
      have hc : cm.codeStart = cm.start + cm.bundle.codeOffset := rfl
      omega
    exact hca (by rw [← toWord_ofWord w, ← he, hsi, toWord_ofWord])
  have hk := ht.bytes cm hcm him hla
  rw [← hk]
  congr 1
  show cm.start + cm.bundle.codeOffset + 4 * k + i = _
  omega

theorem literal {l place} (h : cm.bundle.Holds l place) :
    t.window.Holds (cm.start + place) l.width ∧
      ∀ i b, l.bytes[i]? = some b → t.window.byte (cm.start + place + i) = b := by
  have hs := ht.sited cm hcm
  obtain ⟨hle, hf⟩ := ht.inside cm hcm
  obtain ⟨hsc, hr, hc⟩ := cm.bundle.offsets_le
  have hst : place + l.width ≤ cm.bundle.ownLayout.offset .code := by
    have he := h.stop
    cases l with
    | scalar v =>
      have hp : cm.bundle.ownLayout.stop .scalars = 0 + cm.bundle.scalars.size := rfl
      have hp' : cm.bundle.ownLayout.offset .references ≤ cm.bundle.ownLayout.stop .references :=
        Nat.le_add_right _ _
      rw [show (scalar v).part = .scalars from rfl] at he
      omega
    | reference r => exact Nat.le_trans he hr
  rw [CompiledMethod.size_image] at hf
  refine ⟨⟨by omega, by omega⟩, fun i b hb => ?_⟩
  have hi : i < l.width := l.length_bytes ▸ (List.getElem?_eq_some_iff.mp hb).1
  have hla : cm.Lasting (place + i) := by
    intro site hsi hx
    obtain ⟨k, ha, -, -⟩ := hs.site site hsi
    rw [hs.codeStart_eq] at ha
    omega
  rw [Nat.add_assoc]
  exact ht.bytes cm hcm (h.bytes i b hb) hla

section
open Emission
variable {m : Linear.Method} {a : Allocation} {words : List (BitVec 32)} {slot : LiteralId → Nat}
  (hstocked : Bundle.Stocked m a cm.bundle words slot) {id : Nat} {b : Linear.Block} {pre rest : List Linear.Insn}
  {dst : Var} {k : LiteralId} {l : Literal} (hb : m.blocks[id]? = some b)
  (hinsns : b.insns = pre ++ .literal dst k :: rest) (hl : m.literals[k]? = some l)
include hstocked hb hinsns hl

/-- A load is assembled with the distance to its literal's slot, and its word stays in the window. -/
theorem load : cm.bundle.Holds l (slot k) ∧ ∃ (w : BitVec 32) (distance : Int),
    (literalOpcode (some l)).assemble [.reg (dest a dst scratch), .rel distance] = .ok w ∧
      ((cm.codeStart + codeSize (linesBefore a m id pre.length) : Nat) : Int) + distance = (cm.start + slot k : Nat) ∧
      t.window.Holds (cm.codeStart + codeSize (linesBefore a m id pre.length)) 4 ∧
      ∀ i byte, (ofWord w)[i]? = some byte →
        t.window.byte (cm.codeStart + codeSize (linesBefore a m id pre.length) + i) = byte := by
  obtain ⟨behind, hli⟩ := lines_literal a hb hinsns
  rw [hl] at hli
  have hh := hstocked.holds ⟨_, _, hli ▸ mem_append_right _ mem_cons_self⟩
  rw [Array.getD_eq_getD_getElem?, hl, Option.getD_some] at hh
  obtain ⟨j, w, hj, hw, ha⟩ := hstocked.load hli
  obtain ⟨hf, hby⟩ := ht.word hcm hstocked.code hw (Opcode.ne_unlinkedCall ha (literalOpcode_ne_bl _))
  rw [← hj] at hf hby
  refine ⟨hh, w, _, ha, ?_, hf, hby⟩
  have hr := ht.regular.reach
  obtain ⟨hle, hst⟩ := hf
  obtain ⟨hle', hst'⟩ := (ht.literal hcm hh).1
  have hwi := l.width_cases
  have hc : cm.codeStart = cm.start + cm.bundle.codeOffset := rfl
  rw [distance_eq (by omega) (by omega)]
  omega

/-- What the word of a load decodes to leads to the slot of its literal. -/
theorem load_decodes : cm.bundle.Holds l (slot k) ∧ ∃ word distance,
    t.readCode (cm.codeStart + codeSize (linesBefore a m id pre.length)) 4 = .ok (ofWord word).toArray ∧
      decoder.decode word =
        [⟨(literalOpcode (some l)).template, [.reg (dest a dst scratch), .rel distance]⟩] ∧
      ((cm.codeStart + codeSize (linesBefore a m id pre.length) : Nat) : Int) + distance =
        (cm.start + slot k : Nat) := by
  obtain ⟨hh, word, distance, ha, hdi, hf, hby⟩ := ht.load hcm hstocked hb hinsns hl
  have hd := decode_eq ha
  rw [expand_literalOpcode] at hd
  exact ⟨hh, word, distance, readCode_word hf hby, hd, hdi⟩

end

end

end CodeCache.Kept

/-! ## Constants of a method -/

namespace Linear

/-- The constant that an instruction gives a variable. -/
def Insn.constant? (m : Method) : Insn → Option (Var × Value)
  | .const dst v => some (dst, v)
  | .literal dst id => (m.literals[id]?).map fun l => (dst, l.value)
  | _ => none

def Method.Loads (m : Method) (v : Value) : Prop :=
  ∃ b ∈ m.blocks, ∃ dst id, Insn.literal dst id ∈ b.insns ∧ m.literals[id]? = some (.ofValue v)

def Method.HasConstant (m : Method) (v : Value) : Prop :=
  ∃ b ∈ m.blocks, ∃ i ∈ b.insns, ∃ dst, i.constant? m = some (dst, v)

end Linear

/-- The constants that the code of an operator needs. -/
def Operator.constants : Operator → List Value
  | .constant v => [v]
  | .newArray element _ => [.int element.tag]
  | .newInstance cls => [.reference cls]
  | _ => []

namespace Linear
variable {m : Method} {S : Lowering} {g : Graph} {v : Value}

theorem ConstantCode.constant? {dst i} (h : ConstantCode S dst v i) (hm : m.literals = S.literals) :
    i.constant? m = some (dst, v) := by
  cases h with
  | const => rfl
  | literal h => rw [Insn.constant?, hm, h, Option.map_some, value_ofValue]

theorem constants_of_routine {op call} (h : routine? op = some call) :
    op.constants = [] := by
  cases op with
  | constant | newArray | newInstance => cases h
  | _ => rfl

theorem NodeCode.exists_constant {n code} (h : NodeCode S g n code) (hm : m.literals = S.literals)
    (hv : v ∈ (g.node n).op.constants) :
    ∃ i ∈ code, ∃ dst, i.constant? m = some (dst, v) := by
  cases h with
  | constant op _ hc =>
    rw [op] at hv
    obtain rfl := mem_singleton.mp hv
    exact ⟨_, mem_cons_self, _, hc.constant? hm⟩
  | newArray op =>
    rw [op] at hv
    obtain rfl := mem_singleton.mp hv
    exact ⟨_, mem_cons_self, _, rfl⟩
  | newInstance op _ hc =>
    rw [op] at hv
    obtain rfl := mem_singleton.mp hv
    exact ⟨_, mem_cons_self, _, hc.constant? hm⟩
  | routine op =>
    rw [constants_of_routine op] at hv
    cases hv
  | binary op | negate op | convert op | parameter op | blockParam op | safepoint op | caught op | indirect op =>
    rw [op] at hv
    cases hv

/-- The constants of a node are given in the code of its block, or where that goes on. -/
theorem Follows.exists_constant {reserved start handler rest term nodes k}
    (h : Follows m.blocks reserved S g start handler rest term nodes k) (hm : m.literals = S.literals) {n}
    (hn : n ∈ nodes) (hv : v ∈ (g.node n).op.constants) :
    (∃ i ∈ rest, ∃ dst, i.constant? m = some (dst, v)) ∨ m.HasConstant v := by
  induction h with
  | node _ hc _ ih =>
    rcases mem_cons.mp hn with rfl | hn
    · obtain ⟨i, hi, hg⟩ := hc.exists_constant hm hv
      exact .inl ⟨i, mem_append_left _ hi, hg⟩
    · exact (ih hn).imp_left fun ⟨i, hi, hg⟩ => ⟨i, mem_append_right _ hi, hg⟩
  | call _ _ hc _ ih =>
    rcases mem_cons.mp hn with rfl | hn
    · obtain ⟨i, hi, hg⟩ := hc.exists_constant hm hv
      exact .inl ⟨i, mem_append_left _ (mem_append_right _ hi), hg⟩
    · exact (ih hn).imp_left fun ⟨i, hi, hg⟩ => ⟨i, mem_append_right _ hi, hg⟩
  | split _ hb _ _ _ ih =>
    refine .inr ((ih hn).elim (fun ⟨i, hi, hg⟩ => ?_) id)
    exact ⟨_, Array.mem_of_getElem? hb, i, hi, hg⟩
  | jump | branch | ret | retValue | raise => cases hn

theorem hasConstant_lower (hp : g.Proper) {b} (hb : b ∈ g.reachable) {n} (hn : n ∈ (g.block b).body)
    (hv : v ∈ (g.node n).op.constants) : (lower g).HasConstant v := by
  obtain ⟨S, start, hl⟩ := layout_lower hp
  obtain ⟨blk, hbl, -, hf⟩ := hl.block hb
  refine (hf.exists_constant hl.literals hn hv).elim (fun ⟨i, hi, hg⟩ => ?_) id
  exact ⟨blk, Array.mem_of_getElem? hbl, i, hi, hg⟩

end Linear

/-- A processor that sees the window carries out the instruction at an address: it gives a register
a constant, changes nothing else and goes on behind it. -/
def Window.Gives (w : Window) (address : Nat) (d : Reg) (v : Value) : Prop :=
  ∀ (p : Processor) (shift : BitVec 64), p.Sees shift w → p.pc = shift + BitVec.ofNat 64 address →
    p.step = some (p.set d v.image).next ∧ (p.set d v.image).next.get d = v.image

/-- Where an instruction of a method starts. -/
def CompiledMethod.addressOf (cm : CompiledMethod) (m : Linear.Method) (id index : Nat) : Nat :=
  cm.codeStart + codeSize (linesBefore (.ofCode m) m id index)

/-- The register that an instruction computes a variable in. -/
def Linear.Method.target (m : Linear.Method) (dst : Var) : Reg :=
  dest (.ofCode m) dst scratch

section
open Emission
variable {c : CacheConfig} {t : CodeCache} {cm : CompiledMethod} {m : Linear.Method} {words : List (BitVec 32)}
  {slot : LiteralId → Nat} {id : Nat} {b : Linear.Block} {pre rest : List Linear.Insn} {dst : Var}

theorem target_ne_zero (hb : m.blocks[id]? = some b) {i} (hinsns : b.insns = pre ++ i :: rest) (hd : dst ∈ i.vars) :
    m.target dst ≠ .zero := by
  refine dest_ne_zero (Allocation.placed hb ?_) (by decide)
  refine mem_append_left _ (mem_flatMap.mpr ⟨i, ?_, hd⟩)
  rw [hinsns]
  exact mem_append_right _ mem_cons_self

variable (ht : t.Kept c) (hcm : cm ∈ t.installed) (hstocked : Bundle.Stocked m (.ofCode m) cm.bundle words slot)
include ht hcm hstocked

theorem gives_const (hal : ∀ what, Line.refuse what ∉ lines m (.ofCode m)) (hb : m.blocks[id]? = some b) {v}
    (hinsns : b.insns = pre ++ .const dst v :: rest) :
    t.window.Gives (cm.addressOf m id pre.length) (m.target dst) v := by
  obtain ⟨behind, hli⟩ : ∃ behind, lines m (.ofCode m) = linesBefore (.ofCode m) m id pre.length ++
      (moveConst (m.target dst) v ++ behind) := by
    obtain ⟨behind, hli⟩ := @lines_insn m (.ofCode m) id b hb pre rest _ hinsns
    exact ⟨_, hli.trans (congrArg _ (append_assoc ..))⟩
  obtain ⟨o, operands, hm⟩ := @exists_moveConst (m.target dst) v fun what hme => hal what (by
    rw [hli]
    exact mem_append_right _ (mem_append_left _ hme))
  rw [hm, singleton_append] at hli
  obtain ⟨k, w, hk, hw, ha⟩ := (hli ▸ hstocked.coded).word_at
  intro p shift hs hpc
  obtain ⟨he, hc⟩ := p.execute_moveConst hm
  obtain ⟨hf, hby⟩ := ht.word hcm hstocked.code hw (Opcode.ne_unlinkedCall ha hc)
  rw [← hk] at hf hby
  refine ⟨(hs.step_eq hpc hf hby ha).trans he, ?_⟩
  exact p.get_set_self _ (target_ne_zero hb hinsns mem_cons_self)

theorem gives_literal (hb : m.blocks[id]? = some b) {k} (hinsns : b.insns = pre ++ .literal dst k :: rest) {l}
    (hl : m.literals[k]? = some l) :
    t.window.Gives (cm.addressOf m id pre.length) (m.target dst) l.value := by
  obtain ⟨hh, w, distance, ha, hd, hf, hby⟩ := ht.load hcm hstocked hb hinsns hl
  change (cm.addressOf m id pre.length : Int) + distance = _ at hd
  obtain ⟨hsl, hr⟩ := ht.literal hcm hh
  intro p shift hs hpc
  have hta : p.pc + BitVec.ofInt 64 distance = shift + BitVec.ofNat 64 (cm.start + slot k) := by
    rw [hpc, BitVec.add_assoc, ← ofInt_natCast, ← ofInt_natCast, ← ofInt_add, hd]
  have hli : p.bytes (p.pc + BitVec.ofInt 64 distance) l.width = l.bytes := by
    have hby := hs.bytes_eq (l.length_bytes.symm ▸ hsl) hr
    rwa [l.length_bytes, ← hta] at hby
  refine ⟨(hs.step_eq hpc hf hby ha).trans (p.execute_literalOpcode hli), ?_⟩
  exact p.get_set_self _ (target_ne_zero hb hinsns mem_cons_self)

theorem gives_constant (ha : ∀ what, Line.refuse what ∉ lines m (.ofCode m)) (hb : m.blocks[id]? = some b) {i}
    (hinsns : b.insns = pre ++ i :: rest) {v} (hc : i.constant? m = some (dst, v)) :
    t.window.Gives (cm.addressOf m id pre.length) (m.target dst) v := by
  cases i with
  | const =>
    cases hc
    exact gives_const ht hcm hstocked ha hb hinsns
  | literal =>
    obtain ⟨l, hl, heq⟩ := Option.map_eq_some_iff.mp hc
    cases heq
    exact gives_literal ht hcm hstocked hb hinsns hl
  | _ => cases hc

end

theorem idxOf_literal {m : Linear.Method} (hd : m.literals.toList.Nodup) {k l} (h : m.literals[k]? = some l) :
    m.literals.toList.idxOf l = k := by
  rw [← Array.getElem?_toList] at h
  obtain ⟨hlt, rfl⟩ := List.getElem?_eq_some_iff.mp h
  exact hd.idxOf_getElem k hlt

theorem Linear.Method.Loads.exists_uses {m v} (h : m.Loads v) :
    ∃ k, m.literals[k]? = some (.ofValue v) ∧ Emission.Uses (lines m (.ofCode m)) k := by
  obtain ⟨b, hb, dst, k, hi, hk⟩ := h
  obtain ⟨id, hid⟩ := Array.mem_iff_getElem?.mp hb
  obtain ⟨pre, rest, hinsns⟩ := append_of_mem hi
  obtain ⟨behind, hli⟩ := lines_literal (.ofCode m) hid hinsns
  exact ⟨k, hk, _, _, hli ▸ mem_append_right _ mem_cons_self⟩

/-- **Constants are exact in installed code.** Let lowered code be compiled in a cache with any
history, and more be compiled and linked later. The constants of a proper graph are all there, and
every instruction for one gives its register the image of the constant. A load reads the slot of its
value, in the part of the bundle for such values and aligned to their width; different values have
slots without a common byte. -/
theorem constants_are_exact {g : Graph} {m : Linear.Method} (hm : lower g = m) {c : CacheConfig}
    {host : Host} {new s t : CodeCache} (hcreate : CodeCache.create c host = .ok new) (hs : new.Later s) {link : Bool}
    {cm : CompiledMethod} (hgenerate : (s.generate m (.ofCode m) link).1 = .ok cm)
    (ht : (s.generate m (.ofCode m) link).2.Later t) :
    (g.Proper → ∀ b ∈ g.reachable, ∀ n ∈ (g.block b).body, ∀ v ∈ (g.node n).op.constants, m.HasConstant v) ∧
    (∀ b ∈ m.blocks, ∀ dst k, Linear.Insn.literal dst k ∈ b.insns → ∃ v, m.literals[k]? = some (.ofValue v)) ∧
    (∀ id b pre i rest dst v, m.blocks[id]? = some b → b.insns = pre ++ i :: rest →
      i.constant? m = some (dst, v) → t.window.Gives (cm.addressOf m id pre.length) (m.target dst) v) ∧
    ∃ slot : Value → Nat,
      (∀ id b pre dst k rest v, m.blocks[id]? = some b → b.insns = pre ++ .literal dst k :: rest →
        m.literals[k]? = some (.ofValue v) →
        cm.bundle.ownLayout.offset (ofValue v).part ≤ slot v ∧
        slot v + v.kind.width ≤ cm.bundle.ownLayout.stop (ofValue v).part ∧ v.kind.width ∣ slot v ∧
        ∃ word distance, t.readCode (cm.addressOf m id pre.length) 4 = .ok (ofWord word).toArray ∧
          decoder.decode word = [⟨(literalOpcode (some (.ofValue v))).template,
            [.reg (m.target dst), .rel distance]⟩] ∧
          (cm.addressOf m id pre.length : Int) + distance = (cm.start + slot v : Nat)) ∧
      ∀ v w, m.Loads v → m.Loads w → v ≠ w →
        slot v + v.kind.width ≤ slot w ∨ slot w + w.kind.width ≤ slot v := by
  obtain ⟨hd, hpr, hwi⟩ := pooled_lower g
  rw [hm] at hd hpr hwi
  have hke := (hs.kept (.create hcreate)).1
  obtain ⟨hi, hmade⟩ := hke.generated hgenerate
  obtain ⟨ht, hsu⟩ := ht.kept (hke.generate m (.ofCode m) link).1
  have hcm := hsu hi
  obtain ⟨words, slot, hstocked⟩ := hmade.stocked
  obtain ⟨e, -, -, he, -⟩ := hmade
  have ha : ∀ what, Emission.Line.refuse what ∉ lines m (.ofCode m) :=
    (added_of_addAll he).allowed
  have hsl : ∀ {k v}, m.literals[k]? = some (.ofValue v) →
      slot (m.literals.toList.idxOf (.ofValue v)) = slot k := fun hk => by rw [idxOf_literal hd hk]
  refine ⟨fun hp blk hbl n hn v hv => hm ▸ hasConstant_lower hp hbl hn hv, fun blk hbl dst k hin => ?_,
    ?_, fun v => slot (m.literals.toList.idxOf (.ofValue v)), ?_, ?_⟩
  · obtain ⟨v, hv⟩ := hpr _ (Array.getElem_mem (hwi blk hbl _ hin))
    exact ⟨v, (Array.getElem?_eq_getElem _).trans (congrArg some hv)⟩
  · intro id blk pre i rest dst v hbl hinsns hc
    exact gives_constant ht hcm hstocked ha hbl hinsns hc
  · intro id blk pre dst k rest v hbl hinsns hk
    obtain ⟨hh, hde⟩ := ht.load_decodes hcm hstocked hbl hinsns hk
    dsimp only
    rw [hsl hk, ← width_ofValue]
    exact ⟨hh.start, hh.stop, hh.aligned, hde⟩
  · intro v w hv hw hne
    obtain ⟨k, hk, hu⟩ := hv.exists_uses
    obtain ⟨k', hk', hu'⟩ := hw.exists_uses
    have hid : k ≠ k' := by
      rintro rfl
      refine hne ?_
      rw [← value_ofValue v, ← value_ofValue w, Option.some.inj (hk.symm.trans hk')]
    have hap := hstocked.apart hu hu' hid
    rw [Array.getD_eq_getD_getElem?, Array.getD_eq_getD_getElem?, hk, hk', Option.getD_some, Option.getD_some,
      width_ofValue, width_ofValue] at hap
    dsimp only
    rw [hsl hk, hsl hk']
    exact hap

/-- Constants of several kinds: an int that no move reaches, twice, the negative zero, the object
with handle zero, null, and a negative int. -/
def loading : Graph where
  key := ⟨"T", "m", "()Ljava/lang/Object;"⟩
  signature := ⟨[], .reference⟩
  nodes := #[⟨.constant (.int 1000000), .int, 0, none⟩, ⟨.constant (.double ⟨0x8000000000000000⟩), .double, 1, none⟩,
    ⟨.constant (.reference ⟨0⟩), .reference, 2, none⟩, ⟨.constant .null, .reference, 3, none⟩,
    ⟨.constant (.int (-7)), .int, 4, none⟩, ⟨.constant (.int 1000000), .int, 5, none⟩]
  blocks := #[{ body := [0, 1, 2, 3, 4, 5], cont := .ret (some 2), bci := 0 }]

def loadingBlock : Linear.Block where
  insns := [.literal 0 0, .literal 1 1, .literal 2 2, .const 3 .null, .const 4 (.int (-7)), .literal 5 0]
  term := .ret (some 2)

/-- The code of `loading`. -/
def loadingCode : Linear.Method where
  key := loading.key
  vars := #[.int, .double, .reference, .reference, .int, .int]
  blocks := #[loadingBlock]
  literals := #[.scalar (.int 1000000), .scalar (.double ⟨0x8000000000000000⟩), .reference ⟨0⟩]

theorem lower_loading : lower loading = loadingCode := by decide +kernel

theorem generate_loading : ∃ cache cm, CodeCache.create ⟨2048, 1, 2048⟩ = .ok cache ∧
    (cache.generate loadingCode (.ofCode loadingCode) false).1 = .ok cm :=
  exists_generate (by cbv)

/-- When all calls are linked later, a processor still loads the negative zero, the object with
handle zero is not taken for null, and the int that is used twice has one slot. -/
theorem constants_are_exact_loading : ∃ cache cm t, ∃ slot : Value → Nat, lower loading = loadingCode ∧
    CodeCache.create ⟨2048, 1, 2048⟩ = .ok cache ∧
    (cache.generate loadingCode (.ofCode loadingCode) false).1 = .ok cm ∧
    (cache.generate loadingCode (.ofCode loadingCode) false).2.linkAll.2 = t ∧
    (∀ index dst v, (index, dst, v) ∈ [(0, 0, .int 1000000), (2, 2, .reference ⟨0⟩), (3, 3, .null),
        (4, 4, .int (-7)), (5, 5, .int 1000000)] →
      t.window.Gives (cm.addressOf loadingCode 0 index) (loadingCode.target dst) v) ∧
    (slot (.int 1000000) + 4 ≤ slot (.reference ⟨0⟩) ∨ slot (.reference ⟨0⟩) + 8 ≤ slot (.int 1000000)) ∧
    4 ∣ slot (.int 1000000) ∧ 8 ∣ slot (.reference ⟨0⟩) ∧
    ∃ p p' : Processor, p.step = some p' ∧ p'.get (loadingCode.target 1) = 0x8000000000000000#64 := by
  obtain ⟨cache, cm, hc, h⟩ := generate_loading
  have hla : ((cache.generate loadingCode (.ofCode loadingCode) false).2).Later
      (cache.generate loadingCode (.ofCode loadingCode) false).2.linkAll.2 := .linkAll .refl
  obtain ⟨-, -, hg, slot, hs, ha⟩ := constants_are_exact lower_loading hc .refl h hla
  have hk := (hla.kept (CodeCache.Kept.generate (.create hc) _ _ _).1).1
  generalize ht : (cache.generate loadingCode (.ofCode loadingCode) false).2.linkAll.2 = t at hg hs hk
  obtain ⟨-, -, hin, -⟩ := hs 0 loadingBlock [] 0 0 _ (.int 1000000) rfl rfl rfl
  obtain ⟨-, -, ho, -⟩ := hs 0 loadingBlock [.literal 0 0, .literal 1 1] 2 2 _ (.reference ⟨0⟩) rfl rfl rfl
  have hlo : loadingCode.Loads (.int 1000000) ∧ loadingCode.Loads (.reference ⟨0⟩) :=
    ⟨⟨loadingBlock, by simp [loadingCode], 0, 0, by simp [loadingBlock], rfl⟩,
      ⟨loadingBlock, by simp [loadingCode], 2, 2, by simp [loadingBlock], rfl⟩⟩
  have hsl := ha (.int 1000000) (.reference ⟨0⟩) hlo.1 hlo.2 (by decide)
  refine ⟨cache, cm, t, slot, lower_loading, hc, h, ht, ?_, hsl, hin, ho, ?_⟩
  · intro index dst v hm
    simp only [mem_cons, Prod.mk.injEq, not_mem_nil, or_false] at hm
    rcases hm with ⟨rfl, rfl, rfl⟩ | ⟨rfl, rfl, rfl⟩ | ⟨rfl, rfl, rfl⟩ | ⟨rfl, rfl, rfl⟩ | ⟨rfl, rfl, rfl⟩
    · exact hg 0 loadingBlock [] (.literal 0 0) _ _ _ rfl rfl rfl
    · exact hg 0 loadingBlock [.literal 0 0, .literal 1 1] (.literal 2 2) _ _ _ rfl rfl rfl
    · exact hg 0 loadingBlock [.literal 0 0, .literal 1 1, .literal 2 2] (.const 3 .null) _ _ _ rfl rfl rfl
    · exact hg 0 loadingBlock [.literal 0 0, .literal 1 1, .literal 2 2, .const 3 .null]
        (.const 4 (.int (-7))) _ _ _ rfl rfl rfl
    · exact hg 0 loadingBlock [.literal 0 0, .literal 1 1, .literal 2 2, .const 3 .null, .const 4 (.int (-7))]
        (.literal 5 0) _ _ _ rfl rfl rfl
  · let p : Processor := {
      reg := fun _ => 0#64
      flags := ⟨false, false, false, false⟩
      memory := fun a => t.window.byte (t.window.base + (a - BitVec.ofNat 64 t.window.base).toNat)
      pc := 0#64 + BitVec.ofNat 64 (cm.addressOf loadingCode 0 1) }
    have hse : p.Sees 0#64 t.window := by
      intro x hle hlt
      obtain ⟨i, rfl⟩ := Nat.exists_eq_add_of_le hle
      have hr : t.window.size ≤ 0x8000000 := hk.regular.reach
      show t.window.byte (_ + (0#64 + BitVec.ofNat 64 (_ + i) - _).toNat) = t.window.byte _
      rw [BitVec.zero_add, ofNat_add, BitVec.add_comm, BitVec.add_sub_cancel, toNat_ofNat,
        Nat.mod_eq_of_lt (by omega)]
    obtain ⟨hst, hge⟩ := hg 0 loadingBlock [.literal 0 0] (.literal 1 1) _ _ _ rfl rfl rfl p 0#64 hse rfl
    exact ⟨p, _, hst, hge⟩

end StackCompiler
