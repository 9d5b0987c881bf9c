/-
The instruction forms of the machine, and the aliases among them.
-/
import StackCompiler.Cache.Basic
import StackCompiler.Proofs.CatalogCodec

namespace StackCompiler

open Catalog List Template

namespace Opcode

theorem consistent_template (o : Opcode) : o.template.Consistent :=
  consistent_of_mem aarch64_eq sound_aarch64 o.template_mem

theorem consistent (o : Opcode) : o.describe.Consistent :=
  ⟨o.consistent_template.apart, o.consistent_template.opcode, o.consistent_template.sound⟩

theorem template_assemble {o : Opcode} {operands w} :
    o.template.assemble operands = .ok w ↔ o.assemble operands = .ok w := by
  rw [assemble_eq_ok o.consistent_template, assemble, assemble_eq_ok o.consistent]
  rfl

theorem exists_template {t} (h : t ∈ Catalog.aarch64.templates) : ∃ o : Opcode, t = o.template := by
  have ht : t ∈ number (all.map describe) :=
    templates_eq aarch64_eq ▸ Array.mem_toList_iff.mpr h
  obtain ⟨i, hi, rfl⟩ := mem_mapIdx.mp ht
  rw [length_map] at hi
  refine ⟨all[i], ?_⟩
  have hse : all[i].serial = i := List.Nodup.idxOf_getElem (by decide) i hi
  rw [template, hse, getElem_map]

/-! ## Aliases -/

/-- The form that an alias stands for; the other forms stand for themselves. -/
def unaliased : Opcode → Opcode
  | mov => orrReg
  | neg => subReg
  | cmp => subsReg
  | mul => madd
  | sxtw => sbfm
  | cmpImm => subsImm
  | movImm => movz
  | ret => retReg
  | o => o

theorem synthetic_unaliased (o : Opcode) : o.unaliased.describe.synthetic = false := by
  cases o <;> rfl

theorem unaliased_eq_self {o : Opcode} (h : o.describe.synthetic = false) : o.unaliased = o := by
  cases o with
  | mov | neg | cmp | mul | sxtw | cmpImm | movImm | ret => cases h
  | _ => rfl

theorem opcode_unaliased (o : Opcode) :
    o.describe.opcodeMask &&& o.unaliased.describe.opcodeMask = o.unaliased.describe.opcodeMask ∧
      o.describe.opcode &&& o.unaliased.describe.opcodeMask = o.unaliased.describe.opcode := by
  cases o <;> decide

theorem unaliased_total {o : Opcode} (h : o.describe.synthetic = true) :
    o.unaliased.describe.constraints = [] ∧
      ∀ f ∈ o.unaliased.describe.fields, f.kind ≠ .condition := by
  cases o with
  | mov | neg | cmp | mul | sxtw | cmpImm | movImm | ret => decide
  | _ => cases h

end Opcode

theorem Field.exists_decode {f : Field} (hm : f.Made) (hf : f.Fits) (hk : f.kind ≠ .condition)
    (w : BitVec 32) : ∃ x, f.decode? w = some x := by
  unfold Field.decode?
  split
  next sp hg =>
    have hlt := raw_lt hf w
    rw [hm.span_eq (congrArg kindSpan? hg)] at hlt
    exact ⟨_, by rw [Reg.ofCode?, dif_pos hlt]; rfl⟩
  next => exact ⟨_, rfl⟩
  next h => exact absurd h hk
  next => exact ⟨_, rfl⟩
  next => exact ⟨_, rfl⟩
  next => exact ⟨_, rfl⟩

theorem Template.exists_operands {w} : ∀ {fields : List Field}, Apart fields → Sound fields →
    (∀ f ∈ fields, f.kind ≠ .condition) → ∃ operands, fields.mapM (·.decode? w) = some operands
  | [], _, _, _ => ⟨[], rfl⟩
  | f :: fields, ha, hso, hk => by
    rw [forall_mem_cons] at hk
    obtain ⟨hf, hso⟩ := forall_mem_cons.mp hso
    obtain ⟨x, hx⟩ := Field.exists_decode hf.1 ha.1 hk.1 w
    obtain ⟨operands, ho⟩ := exists_operands ha.2.2 hso hk.2
    exact ⟨x :: operands, mapM_cons_eq_some.mpr ⟨hx, ho⟩⟩

namespace Opcode

/-- What an alias assembles, the form that it stands for assembles too. -/
theorem assemble_unaliased {o : Opcode} {operands w} (h : o.assemble operands = .ok w) :
    ∃ operands', o.unaliased.assemble operands' = .ok w := by
  cases hsy : o.describe.synthetic with
  | false => exact ⟨operands, by rw [unaliased_eq_self hsy, h]⟩
  | true =>
    obtain ⟨hc, hk⟩ := unaliased_total hsy
    obtain ⟨hm, hop⟩ := o.opcode_unaliased
    obtain ⟨operands', ho⟩ :=
      exists_operands (w := w) o.unaliased.consistent.apart o.unaliased.consistent.sound hk
    obtain ⟨-, hw, -⟩ := (assemble_eq_ok o.consistent).mp h
    refine ⟨operands', (assemble_eq_ok o.unaliased.consistent).mpr ⟨ho, ?_, ?_⟩⟩
    · rw [← hm, ← BitVec.and_assoc, hw, hop]
    · rw [hc]
      rfl

/-- Of two forms whose fixed bits do not exclude each other, one is an alias of the other. -/
theorem forms_apart : ∀ o ∈ all, ∀ o' ∈ all, o = o' ∨ o.unaliased = o' ∨ o'.unaliased = o ∨
    o.describe.opcode &&& o'.describe.opcodeMask ≠ o'.describe.opcode &&& o.describe.opcodeMask := by
  decide +kernel

section
variable {o o' : Opcode} {operands operands' : List Operand} {w : BitVec 32} (h : o.assemble operands = .ok w)
  (h' : o'.assemble operands' = .ok w)
include h h'

theorem eq_or_alias : o = o' ∨ o.unaliased = o' ∨ o'.unaliased = o := by
  obtain ⟨-, hw, -⟩ := (assemble_eq_ok o.consistent).mp h
  obtain ⟨-, hw', -⟩ := (assemble_eq_ok o'.consistent).mp h'
  rcases forms_apart o o.mem_all o' o'.mem_all with heq | heq | heq | hne
  · exact .inl heq
  · exact .inr (.inl heq)
  · exact .inr (.inr heq)
  · rw [← hw, ← hw', BitVec.and_assoc, BitVec.and_assoc, BitVec.and_comm o.describe.opcodeMask] at hne
    exact absurd rfl hne

theorem operands_eq (ho : o = o') : operands = operands' := by
  subst ho
  exact Option.some.inj (((assemble_eq_ok o.consistent).mp h).1.symm.trans
    ((assemble_eq_ok o.consistent).mp h').1)

/-- A word is assembled by one alias at most, and by one other form at most. -/
theorem eq_of_synthetic_eq (hs : o.describe.synthetic = o'.describe.synthetic) : o = o' := by
  rcases eq_or_alias h h' with heq | heq | heq
  · exact heq
  · rw [← heq, synthetic_unaliased] at hs
    rw [← heq, unaliased_eq_self hs]
  · rw [← heq, synthetic_unaliased] at hs
    rw [← heq, unaliased_eq_self hs.symm]

end

theorem eq_bl {o : Opcode} {operands v w} (ho : o.assemble operands = .ok w) (hbl : bl.assemble [.rel v] = .ok w) :
    o = .bl ∧ operands = [.rel v] := by
  have heq : o = .bl := by
    rcases eq_or_alias ho hbl with heq | heq | heq
    · exact heq
    · cases o with
      | bl => rfl
      | _ => cases heq
    · exact heq.symm
  exact ⟨heq, operands_eq ho hbl heq⟩

end Opcode

namespace Disassembler

theorem skips_template {d : Disassembler} (hexpected : d.expected = none) (o : Opcode) :
    d.skips o.template = (o.describe.synthetic && decide (d.preference = .raw)) := by
  have hl : o.template.disassemblable = true := by cases o <;> rfl
  unfold skips
  rw [hl, hexpected, Bool.or_false]
  rfl

theorem mem_of_select? {d : Disassembler} {found x} (h : d.select? found = some x) :
    x ∈ found := by
  unfold select? at h
  split at h
  · exact mem_of_head? h
  · rcases Option.or_eq_some_iff.mp h with h | ⟨-, h⟩
    · exact mem_of_find?_eq_some h
    · exact mem_of_head? h

theorem select?_isSome (d : Disassembler) {found x} (h : x ∈ found) :
    (d.select? found).isSome = true := by
  have hh : found.head?.isSome = true := by
    cases found with
    | nil => cases h
    | cons => rfl
  unfold select?
  split
  · exact hh
  · rw [Option.isSome_or, hh, Bool.or_true]

section
variable {d : Disassembler} (hcatalog : d.catalog = aarch64)
include hcatalog

theorem nodup_decode (w : BitVec 32) : (d.decode w).Nodup :=
  (pairwise_map.mp (decode_precede aarch64_eq sound_aarch64 hcatalog w)).imp fun h heq =>
    h.1 (congrArg _ heq)

theorem decode_eq_singleton {w y} (hm : ∀ x, x ∈ d.decode w ↔ x = y) : d.decode w = [y] := by
  refine perm_singleton.mp ((perm_ext_iff_of_nodup (nodup_decode hcatalog w) ?_).mpr fun x => ?_)
  · simp
  · rw [hm, mem_singleton]

theorem eq_of_mem_decode {w x y} (hx : x ∈ d.decode w) (hy : y ∈ d.decode w)
    (hs : x.template.synthetic = y.template.synthetic) : x = y := by
  obtain ⟨t, operands⟩ := x
  obtain ⟨t', operands'⟩ := y
  obtain ⟨ht, -, ha⟩ := (mem_decode aarch64_eq sound_aarch64 hcatalog).mp hx
  obtain ⟨ht', -, ha'⟩ := (mem_decode aarch64_eq sound_aarch64 hcatalog).mp hy
  obtain ⟨o, rfl⟩ := Opcode.exists_template ht
  obtain ⟨o', rfl⟩ := Opcode.exists_template ht'
  rw [Opcode.template_assemble] at ha ha'
  have ho := Opcode.eq_of_synthetic_eq ha ha' hs
  have hop : operands = operands' := Opcode.operands_eq ha ha' ho
  rw [ho, hop]

theorem length_le_one {w} {found : List Decoding} (hsu : found.Sublist (d.decode w))
    (hs : ∀ x ∈ found, ∀ y ∈ found, x.template.synthetic = y.template.synthetic) : found.length ≤ 1 := by
  have hn := (nodup_decode hcatalog w).sublist hsu
  cases found with
  | nil => simp
  | cons x rest =>
    cases rest with
    | nil => simp
    | cons y rest =>
      have heq := eq_of_mem_decode hcatalog (hsu.subset mem_cons_self)
        (hsu.subset (mem_cons_of_mem _ mem_cons_self)) (hs x (by simp) y (by simp))
      exact absurd heq ((pairwise_cons.mp hn).1 y mem_cons_self)

variable (hexpected : d.expected = none)
include hexpected

/-- Every assembled word can be read. -/
theorem exists_mem_decode {o : Opcode} {operands w} (h : o.assemble operands = .ok w) : ∃ x, x ∈ d.decode w := by
  obtain ⟨operands', h'⟩ := Opcode.assemble_unaliased h
  refine ⟨⟨o.unaliased.template, operands'⟩, (mem_decode aarch64_eq sound_aarch64 hcatalog).mpr
    ⟨o.unaliased.template_mem, ?_, Opcode.template_assemble.mpr h'⟩⟩
  rw [skips_template hexpected, Opcode.synthetic_unaliased, Bool.false_and]

/-- A call is read in one way only. -/
theorem decode_call {v w} (h : Opcode.bl.assemble [.rel v] = .ok w) :
    d.decode w = [⟨Opcode.bl.template, [.rel v]⟩] := by
  have hm : ∀ x, x ∈ d.decode w ↔ x = ⟨Opcode.bl.template, [.rel v]⟩ := by
    intro x
    rw [mem_decode aarch64_eq sound_aarch64 hcatalog]
    constructor
    · rintro ⟨ht, -, ha⟩
      obtain ⟨template, operands⟩ := x
      obtain ⟨o, rfl⟩ := Opcode.exists_template ht
      obtain ⟨rfl, rfl⟩ := Opcode.eq_bl (Opcode.template_assemble.mp ha) h
      rfl
    · rintro rfl
      refine ⟨Opcode.bl.template_mem, ?_, Opcode.template_assemble.mpr h⟩
      rw [skips_template hexpected]
      rfl
  exact decode_eq_singleton hcatalog hm

end

/-- The same disassembler with another preference. -/
def prefer (d : Disassembler) (preference : Preference) : Disassembler := { d with preference }

/-- The decoding of a word that is reported. -/
def reported? (d : Disassembler) (w : BitVec 32) : Option Decoding := d.select? (d.decode w)

theorem isSome_reported? {d : Disassembler} {w} : (d.reported? w).isSome = true ↔ ∃ x, x ∈ d.decode w := by
  constructor
  · intro h
    obtain ⟨x, hx⟩ := Option.isSome_iff_exists.mp h
    exact ⟨x, mem_of_select? hx⟩
  · rintro ⟨x, hx⟩
    exact select?_isSome _ hx

/-- **The views of the catalogue with and without aliases agree.** A word has at most one decoding
that is no alias and at most one that is, and with an alias also the other one. So both views report
it as an instruction or neither, and what is reported is assembled to the word. -/
theorem views_agree {d : Disassembler} (hcatalog : d.catalog = aarch64) (hexpected : d.expected = none)
    (w : BitVec 32) :
    ((d.prefer .raw).decode w).length ≤ 1 ∧
    (((d.prefer .synthetic).decode w).filter (·.template.synthetic)).length ≤ 1 ∧
    ((∃ x ∈ (d.prefer .synthetic).decode w, x.template.synthetic = true) →
      ∃ x ∈ (d.prefer .raw).decode w, x.template.synthetic = false) ∧
    ((d.prefer .raw).reported? w).isSome = ((d.prefer .synthetic).reported? w).isSome ∧
    ∀ preference x, (d.prefer preference).reported? w = some x →
      x.template ∈ aarch64.templates ∧ x.template.assemble x.operands = .ok w := by
  have hc : ∀ p, (d.prefer p).catalog = aarch64 := fun _ => hcatalog
  have he : ∀ p, (d.prefer p).expected = none := fun _ => hexpected
  have hm := fun p => @mem_decode _ _ aarch64_eq sound_aarch64 _ (hc p) w
  have hr : ∀ x ∈ (d.prefer .raw).decode w, x.template.synthetic = false := by
    intro x hx
    obtain ⟨ht, hsk, -⟩ := (hm .raw).mp hx
    obtain ⟨o, ho⟩ := Opcode.exists_template ht
    rw [ho, skips_template (he .raw)] at hsk
    rw [ho]
    show o.describe.synthetic = false
    simpa [prefer] using hsk
  have hot : ∀ {p q}, (∃ x, x ∈ (d.prefer p).decode w) → ∃ x, x ∈ (d.prefer q).decode w := by
    rintro p q ⟨x, hx⟩
    obtain ⟨ht, -, ha⟩ := (hm p).mp hx
    obtain ⟨o, ho⟩ := Opcode.exists_template ht
    rw [ho, Opcode.template_assemble] at ha
    exact exists_mem_decode (hc q) (he q) ha
  refine ⟨?_, ?_, ?_, ?_, ?_⟩
  · exact length_le_one (hc .raw) (List.Sublist.refl _) fun x hx y hy => (hr x hx).trans (hr y hy).symm
  · refine length_le_one (hc .synthetic) filter_sublist fun x hx y hy => ?_
    rw [(mem_filter.mp hx).2, (mem_filter.mp hy).2]
  · rintro ⟨x, hx, -⟩
    obtain ⟨y, hy⟩ := hot ⟨x, hx⟩
    exact ⟨y, hy, hr y hy⟩
  · rw [Bool.eq_iff_iff, isSome_reported?, isSome_reported?]
    exact ⟨hot, hot⟩
  · intro preference x hx
    obtain ⟨ht, -, ha⟩ := (hm preference).mp (mem_of_select? hx)
    exact ⟨ht, ha⟩

/-- The word of `mov x1, x2` is reported in both views. -/
theorem views_agree_move : ∃ x y, (({} : Disassembler).prefer .synthetic).reported? 0xAA0203E1 = some x ∧
    (({} : Disassembler).prefer .raw).reported? 0xAA0203E1 = some y ∧
    x.template.assemble x.operands = .ok 0xAA0203E1 ∧ y.template.assemble y.operands = .ok 0xAA0203E1 := by
  obtain ⟨-, -, -, hso, hr⟩ := views_agree (rfl : ({} : Disassembler).catalog = aarch64) rfl 0xAA0203E1
  have hm : Opcode.mov.assemble [.reg ⟨1⟩, .reg ⟨2⟩] = .ok 0xAA0203E1 := rfl
  have hx := isSome_reported?.mpr (@exists_mem_decode (({} : Disassembler).prefer .synthetic) rfl rfl _ _ _ hm)
  obtain ⟨x, hx⟩ := Option.isSome_iff_exists.mp hx
  rw [hx] at hso
  obtain ⟨y, hy⟩ := Option.isSome_iff_exists.mp hso
  exact ⟨x, y, hx, hy, (hr _ x hx).2, (hr _ y hy).2⟩

end Disassembler

/-! ## Calls inside a window -/

theorem distance_eq {source target} (hs : source < target + callReach) (ht : target < source + callReach) :
    distance source target = (target : Int) - source := by
  simp only [callReach] at hs ht
  exact Int.bmod_eq_of_le (by omega) (by omega)

theorem assemble_call (v : Int) : Opcode.bl.assemble [.rel v] =
    (Opcode.rel26.scaled "bl" v).map fun n => Opcode.bl.describe.opcode ||| BitVec.ofNat 32 n <<< 0 := by
  have he : Opcode.rel26.encode "bl" (.rel v) =
      (Opcode.rel26.scaled "bl" v).map fun n => BitVec.ofNat 32 n <<< 0 := rfl
  simp only [Opcode.assemble, Opcode.describe, Opcode.form, assemble, encodeFields,
    zip_cons_cons, zip_nil_left, length_cons, length_nil, he]
  cases Opcode.rel26.scaled "bl" v <;> rfl

section
variable {source target} (hs : source < target + callReach) (ht : target < source + callReach)
include hs ht

/-- In a window that is not larger than the reach, a call can be encoded over a number of words. -/
theorem encodeCall_isOk (h : source % 4 = target % 4) :
    ∃ w, encodeCall source target = .ok w ∧
      Opcode.bl.assemble [.rel ((target : Int) - source)] = .ok w := by
  rw [encodeCall, distance_eq hs ht, assemble_call]
  simp only [callReach] at hs ht
  have hr : Opcode.rel26.range = (-0x8000000, 0x7FFFFFC) := rfl
  have hsca : Opcode.rel26.scale = 4 := rfl
  obtain ⟨n, hsc⟩ : ∃ n, Opcode.rel26.scaled "bl" ((target : Int) - source) = .ok n := by
    refine ⟨_, Field.scaled_eq_ok.mpr ⟨?_, ?_, ?_, rfl⟩⟩
    · rw [hsca]
      omega
    · rw [hr]
      omega
    · rw [hr]
      omega
  rw [hsc]
  exact ⟨_, rfl, rfl⟩

theorem encodeCall_misaligned (h : source % 4 ≠ target % 4) :
    encodeCall source target = .error (.misaligned "bl" "label" ((target : Int) - source) 4) := by
  rw [encodeCall, distance_eq hs ht, assemble_call]
  have hsc : Opcode.rel26.scale = 4 := rfl
  unfold Field.scaled
  rw [if_pos (by rw [hsc]; omega)]
  rfl

end

end StackCompiler
