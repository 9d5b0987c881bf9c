/-
Assembling and decoding are inverse: the fields of a consistent template share
no bits, and a catalogue holds each template once.
-/
import StackCompiler.Machine.Disassembler
import StackCompiler.Proofs.FieldCodec
import StackCompiler.Proofs.GraphFacts

namespace StackCompiler

open Catalog List Template

/-! ## Templates -/

namespace Template

def maskOf : List Field → BitVec 32
  | [] => 0#32
  | f :: rest => f.mask ||| maskOf rest

theorem foldl_mask (fields : List Field) (taken : BitVec 32) :
    fields.foldl (fun m f => m ||| f.mask) taken = taken ||| maskOf fields := by
  induction fields generalizing taken with
  | nil => exact BitVec.or_zero.symm
  | cons f rest ih => rw [foldl_cons, ih, maskOf, BitVec.or_assoc]

theorem fieldMask_eq (t : Template) : t.fieldMask = maskOf t.fields :=
  (foldl_mask t.fields 0#32).trans BitVec.zero_or

/-- Fields that lie inside the word and share no bits. -/
def Apart : List Field → Prop
  | [] => True
  | f :: rest => f.Fits ∧ f.mask &&& maskOf rest = 0#32 ∧ Apart rest

variable {t : Template} {w : BitVec 32}

theorem checkFields_eq_ok : ∀ {fields : List Field} {taken all : BitVec 32},
    t.checkFields taken fields = .ok all →
      Apart fields ∧ taken &&& maskOf fields = 0#32 ∧ all = taken ||| maskOf fields
  | [], taken, all, h => by
    cases h
    exact ⟨trivial, BitVec.and_zero, BitVec.or_zero.symm⟩
  | f :: rest, taken, all, h => by
    unfold checkFields at h
    split at h
    · cases h
    next hfi =>
      split at h
      · cases h
      next hf =>
        obtain ⟨ha, ht, rfl⟩ := checkFields_eq_ok h
        rw [BitVec.and_comm, BitVec.and_or_distrib_left, BitVec.or_eq_zero_iff] at ht
        refine ⟨⟨⟨by omega, by omega⟩, ?_, ha⟩, ?_, ?_⟩
        · rw [BitVec.and_comm]
          exact ht.2
        · rw [maskOf, BitVec.and_or_distrib_left, BitVec.or_eq_zero_iff, BitVec.and_comm _ (maskOf rest)]
          exact ⟨Decidable.not_not.mp hf, ht.1⟩
        · rw [maskOf, BitVec.or_assoc]

theorem validate_eq_ok (h : t.validate = .ok ()) :
    Apart t.fields ∧ t.opcode &&& maskOf t.fields = 0#32 := by
  unfold validate at h
  split at h
  · cases h
  next all hal =>
    obtain ⟨ha, -, rfl⟩ := checkFields_eq_ok hal
    split at h
    · cases h
    next ho =>
      refine ⟨ha, ?_⟩
      rw [← @BitVec.zero_or 32 (maskOf t.fields)]
      exact Decidable.not_not.mp ho

theorem split_mask {cur bits mask rest} (hr : mask &&& rest = 0#32) (hcu : cur &&& (mask ||| rest) = 0#32)
    (hb : bits &&& mask = bits) :
    w &&& ~~~rest = cur ||| bits ↔ w &&& mask = bits ∧ w &&& ~~~(mask ||| rest) = cur := by
  simp only [BitVec.eq_of_getLsbD_eq_iff, BitVec.getLsbD_and, BitVec.getLsbD_or, BitVec.getLsbD_not]
    at hr hcu hb ⊢
  constructor
  · intro h
    constructor
    · intro i hi
      grind
    · intro i hi
      grind
  · rintro ⟨h, h'⟩ i hi
    grind

theorem mapM_cons_eq_some {α β : Type} {f : α → Option β} {x} {xs} {y} {ys} :
    (x :: xs).mapM f = some (y :: ys) ↔ f x = some y ∧ xs.mapM f = some ys := by
  simp [mapM_cons, Option.bind_eq_some_iff]

theorem length_of_mapM {α β : Type} {f} : ∀ {xs : List α} {ys : List β},
    xs.mapM f = some ys → ys.length = xs.length
  | [], ys, h => by
    cases h
    rfl
  | x :: xs, [], h => by simp [mapM_cons, Option.bind_eq_some_iff] at h
  | x :: xs, y :: ys, h => by
    rw [length_cons, length_cons, length_of_mapM (mapM_cons_eq_some.mp h).2]

/-- Fields on which encoding and decoding are inverse, once they fit the word. -/
def Sound (fields : List Field) : Prop := ∀ f ∈ fields, f.Made ∧ 0 < f.scale

/-- Operands give a word exactly when its fields hold them and the other bits are as they were. -/
theorem encodeFields_eq_ok : ∀ {fields : List Field} {operands : List Operand}
    {cur : BitVec 32}, Apart fields → Sound fields → operands.length = fields.length →
      cur &&& maskOf fields = 0#32 →
      (t.encodeFields cur (fields.zip operands) = .ok w ↔
        fields.mapM (·.decode? w) = some operands ∧ w &&& ~~~ maskOf fields = cur)
  | [], [], cur, _, _, _, _ => by
    have hal : w &&& ~~~ 0#32 = w := by rw [BitVec.not_zero, BitVec.and_allOnes]
    rw [maskOf, hal]
    simp [encodeFields, eq_comm]
  | f :: rest, a :: operands, cur, ha, hso, hl, hcu => by
    obtain ⟨hf, hr, ha⟩ := ha
    obtain ⟨⟨hm, hs⟩, hso⟩ := forall_mem_cons.mp hso
    have hc' := hcu
    rw [maskOf, BitVec.and_or_distrib_left, BitVec.or_eq_zero_iff] at hc'
    rw [mapM_cons_eq_some, Field.decode?_eq_some_iff hm hf hs, zip_cons_cons, encodeFields]
    cases he : f.encode t.mnemonic a with
    | error e => simp
    | ok bits =>
      have hb := Field.encode_masked hm hf hs he
      have hfr : (cur ||| bits) &&& maskOf rest = 0#32 := by
        rw [BitVec.and_comm, BitVec.and_or_distrib_left, BitVec.or_eq_zero_iff, BitVec.and_comm _ cur]
        refine ⟨hc'.2, ?_⟩
        rw [← hb, BitVec.and_comm, BitVec.and_assoc, hr, BitVec.and_zero]
      rw [encodeFields_eq_ok ha hso (Nat.succ.inj hl) hfr, split_mask hr hcu hb, maskOf,
        Except.ok.injEq, eq_comm (a := bits)]
      simp only [and_assoc, and_left_comm]

/-- A template whose fields and fixed bits share no bits. -/
structure Consistent (t : Template) : Prop where
  apart : Apart t.fields
  opcode : t.opcode &&& maskOf t.fields = 0#32
  sound : Sound t.fields

/-- A word is assembled if it has the fixed bits and its fields hold the operands. -/
theorem assemble_eq_ok (ht : t.Consistent) {operands} :
    t.assemble operands = .ok w ↔ t.operands? w = some operands ∧ w &&& t.opcodeMask = t.opcode ∧
      t.constraints.all (·.holds operands) = true := by
  have hm : t.opcodeMask = ~~~ maskOf t.fields := congrArg (~~~ ·) t.fieldMask_eq
  unfold assemble
  split
  next hl =>
    simp only [reduceCtorEq, false_iff]
    rintro ⟨ho, -⟩
    exact hl (length_of_mapM ho)
  next hl =>
    have he := @encodeFields_eq_ok t w _ _ _ ht.apart ht.sound (Decidable.not_not.mp hl) ht.opcode
    rw [hm, ← and_assoc]
    show _ ↔ (t.fields.mapM (·.decode? w) = some operands ∧ _) ∧ _
    rw [← he]
    cases t.encodeFields t.opcode (t.fields.zip operands) with
    | error e => simp
    | ok w' =>
      by_cases ha : t.constraints.all (·.holds operands) = true
      · simp [ha]
      · simp [ha]

theorem encodeFields_isOk : ∀ (pairs : List (Field × Operand)) (w : BitVec 32),
    (t.encodeFields w pairs).isOk = pairs.all fun (f, a) => (f.encode t.mnemonic a).isOk
  | [], _ => rfl
  | (f, a) :: rest, w => by
    cases he : f.encode t.mnemonic a with
    | error e =>
      simp only [encodeFields, he, all_cons]
      rfl
    | ok bits =>
      simp only [encodeFields, he, all_cons, encodeFields_isOk rest]
      rfl

theorem isLegal_eq (t : Template) (operands : List Operand) :
    t.isLegal operands = (t.assemble operands).isOk := by
  unfold isLegal assemble
  by_cases hl : operands.length = t.fields.length
  · rw [if_neg (not_not_intro hl), ← encodeFields_isOk (t.fields.zip operands) t.opcode,
      decide_eq_true hl, Bool.true_and]
    cases t.encodeFields t.opcode (t.fields.zip operands) with
    | error e => rfl
    | ok w =>
      by_cases ha : t.constraints.all (·.holds operands) = true
      · simp only [ha]
        rfl
      · simp only [ha]
        rfl
  · rw [if_pos hl, decide_eq_false hl, Bool.false_and, Bool.false_and]
    rfl

end Template

/-! ## Groups of a catalogue -/

namespace Catalog

/-- In the order of decoding: another template, and not a more specific one. -/
def Precedes (t t' : Template) : Prop := t ≠ t' ∧ t'.specificity ≤ t.specificity

variable {templates : List Template}

theorem mem_maskGroups {m} :
    m ∈ maskGroups templates ↔ m.templates = templates.filter (·.opcodeMask = m.mask) ∧
      ∃ t ∈ templates, t.opcodeMask = m.mask := by
  obtain ⟨mask, inMask⟩ := m
  simp only [maskGroups, mem_map, mem_eraseDups, MaskGroup.mk.injEq]
  constructor
  · rintro ⟨_, ⟨t, ht, rfl⟩, rfl, rfl⟩
    exact ⟨rfl, t, ht, rfl⟩
  · rintro ⟨hte, t, ht, rfl⟩
    exact ⟨_, ⟨t, ht, rfl⟩, rfl, hte.symm⟩

/-- The templates of a group whose fixed bits a word has. -/
def inGroup (w : BitVec 32) (g : SpecificityGroup) : List Template :=
  g.maskGroups.flatMap fun m => m.templates.filter fun t => t.opcode = w &&& m.mask

section
variable {templates : List Template} {g : SpecificityGroup} (hg : g ∈ groupsOf templates)
include hg

theorem mem_inGroup {w t} :
    t ∈ inGroup w g ↔ t ∈ templates ∧ t.specificity = g.specificity ∧ t.opcode = w &&& t.opcodeMask := by
  obtain ⟨n, -, rfl⟩ := mem_map.mp hg
  simp only [inGroup, mem_flatMap, mem_filter, decide_eq_true_eq]
  constructor
  · rintro ⟨m, hm, ht, ho⟩
    rw [(mem_maskGroups.mp hm).1] at ht
    simp only [mem_filter, decide_eq_true_eq] at ht
    obtain ⟨⟨ht, hs⟩, hma⟩ := ht
    exact ⟨ht, hs, by rw [hma, ho]⟩
  · rintro ⟨ht, hs, ho⟩
    have hme : t ∈ templates.filter (·.specificity = n) := mem_filter.mpr ⟨ht, decide_eq_true hs⟩
    let m : MaskGroup :=
      ⟨t.opcodeMask, (templates.filter (·.specificity = n)).filter (·.opcodeMask = t.opcodeMask)⟩
    have hm : m ∈ maskGroups (templates.filter (·.specificity = n)) := mem_maskGroups.mpr ⟨rfl, t, hme, rfl⟩
    exact ⟨m, hm, mem_filter.mpr ⟨hme, decide_eq_true rfl⟩, ho⟩

theorem inGroup_precede (hn : templates.Nodup) (w : BitVec 32) : (inGroup w g).Pairwise Precedes := by
  have hs : ∀ t ∈ inGroup w g, t.specificity = g.specificity := fun t ht => ((mem_inGroup hg).mp ht).2.1
  have hne : (inGroup w g).Pairwise (· ≠ ·) := by
    obtain ⟨n, -, rfl⟩ := mem_map.mp hg
    refine pairwise_flatMap.mpr ⟨fun m hm => ?_, ?_⟩
    · rw [(mem_maskGroups.mp hm).1]
      exact ((hn.filter _).filter _).filter _
    · rw [maskGroups, pairwise_map]
      refine (nodup_eraseDups _).imp ?_
      intro mask mask' hma t ht t' ht' heq
      simp only [mem_filter, decide_eq_true_eq] at ht ht'
      exact hma (by rw [← ht.1.2, ← ht'.1.2, heq])
  refine List.Pairwise.imp_of_mem ?_ hne
  intro t t' ht ht' h
  exact ⟨h, Nat.le_of_eq ((hs t' ht').trans (hs t ht).symm)⟩

end

theorem groupsOf_falling (templates : List Template) :
    (groupsOf templates).Pairwise fun g g' => g'.specificity < g.specificity := by
  let levels := (templates.map (·.specificity)).eraseDups
  have hs := @List.pairwise_mergeSort Nat (fun a b => decide (a ≥ b))
    (fun a b c hab hbc => decide_eq_true (Nat.le_trans (of_decide_eq_true hbc) (of_decide_eq_true hab)))
    (fun a b => by simpa using Nat.le_total b a) levels
  have hdi : (levels.mergeSort fun a b => a ≥ b).Nodup :=
    (mergeSort_perm _ _).nodup_iff.mpr (nodup_eraseDups _)
  rw [groupsOf, pairwise_map]
  refine (hs.and hdi).imp ?_
  rintro n n' ⟨hle, hne⟩
  exact Nat.lt_of_le_of_ne (of_decide_eq_true hle) (Ne.symm hne)

theorem candidates_precede (hn : templates.Nodup) (w : BitVec 32) :
    ((groupsOf templates).flatMap (inGroup w)).Pairwise Precedes := by
  refine pairwise_flatMap.mpr ⟨fun g hg => inGroup_precede hg hn w, ?_⟩
  refine List.Pairwise.imp_of_mem ?_ (groupsOf_falling templates)
  intro g g' hg hg' hlt t ht t' ht'
  have hs := ((mem_inGroup hg).mp ht).2.1
  have hs' := ((mem_inGroup hg').mp ht').2.1
  refine ⟨fun heq => ?_, by omega⟩
  rw [heq] at hs
  omega

theorem nodup_number (templates : List Template) : (number templates).Nodup := by
  have hs : (number templates).map (·.serial) = List.range templates.length := by
    refine ext_getElem (by simp [number]) fun i hi _ => ?_
    simp [number]
  have hdi : ((number templates).map (·.serial)).Nodup := hs ▸ nodup_range
  exact (pairwise_map.mp hdi).imp fun h heq => h (congrArg _ heq)

theorem validate_eq_ok : ∀ {templates : List Template}, validate templates = .ok () →
    ∀ t ∈ templates, t.validate = .ok ()
  | [], _, t, ht => absurd ht not_mem_nil
  | t :: rest, h, t', ht' => by
    unfold validate at h
    split at h
    · cases h
    next hv =>
      rcases mem_cons.mp ht' with rfl | ht'
      · exact hv
      · exact validate_eq_ok h t' ht'

theorem ofTemplates_eq_ok {c} (h : ofTemplates templates = .ok c) :
    c = ⟨(number templates).toArray, groupsOf (number templates)⟩ ∧ validate (number templates) = .ok () := by
  unfold ofTemplates at h
  simp only at h
  split at h
  · cases h
  next hv =>
    cases h
    exact ⟨rfl, hv⟩

section
variable {templates : List Template} {c : Catalog} (hc : ofTemplates templates = .ok c)
include hc

theorem templates_eq : c.templates.toList = number templates := by
  obtain ⟨rfl, -⟩ := ofTemplates_eq_ok hc
  rfl

theorem consistent_of_mem (hso : ∀ t ∈ templates, Template.Sound t.fields) {t} (ht : t ∈ c.templates) :
    t.Consistent := by
  obtain ⟨-, hv⟩ := ofTemplates_eq_ok hc
  have ht : t ∈ number templates := templates_eq hc ▸ Array.mem_toList_iff.mpr ht
  obtain ⟨ha, ho⟩ := Template.validate_eq_ok (validate_eq_ok hv t ht)
  refine ⟨ha, ho, ?_⟩
  obtain ⟨i, hi, rfl⟩ := mem_mapIdx.mp ht
  exact hso templates[i] (getElem_mem hi)

theorem mem_candidates {w t} :
    t ∈ c.candidates w ↔ t ∈ c.templates ∧ w &&& t.opcodeMask = t.opcode := by
  obtain ⟨rfl, -⟩ := ofTemplates_eq_ok hc
  show t ∈ (groupsOf (number templates)).flatMap (inGroup w) ↔ _
  rw [mem_flatMap, mem_toArray]
  constructor
  · rintro ⟨g, hg, ht⟩
    obtain ⟨ht, -, ho⟩ := (mem_inGroup hg).mp ht
    exact ⟨ht, ho.symm⟩
  · rintro ⟨ht, ho⟩
    have hl : t.specificity ∈ ((number templates).map (·.specificity)).eraseDups.mergeSort fun a b => a ≥ b :=
      mem_mergeSort.mpr (mem_eraseDups.mpr (mem_map_of_mem ht))
    have hg : (⟨t.specificity, maskGroups ((number templates).filter (·.specificity = t.specificity))⟩ :
        SpecificityGroup) ∈ groupsOf (number templates) := mem_map.mpr ⟨_, hl, rfl⟩
    exact ⟨_, hg, (mem_inGroup hg).mpr ⟨ht, rfl, ho.symm⟩⟩

end
end Catalog

/-! ## Decodings -/

namespace Disassembler

theorem decodeBy?_eq_some {d : Disassembler} {t} {w} (ht : t.Consistent) {x} :
    d.decodeBy? w t = some x ↔ d.skips t = false ∧ x.template = t ∧ t.assemble x.operands = .ok w := by
  obtain ⟨t', operands⟩ := x
  unfold decodeBy?
  cases hs : d.skips t with
  | true => simp
  | false =>
    cases ho : t.operands? w with
    | none =>
      simp only [Bool.false_eq_true, ite_false, reduceCtorEq, true_and, false_iff, not_and]
      rintro rfl ha
      rw [((assemble_eq_ok ht).mp ha).1] at ho
      cases ho
    | some decoded =>
      simp only [Bool.false_eq_true, ite_false, true_and, isLegal_eq]
      constructor
      · intro h
        split at h
        next =>
          split at h
          next w' ha =>
            split at h
            next heq =>
              cases h
              rw [heq] at ha
              exact ⟨rfl, ha⟩
            next => cases h
          next => cases h
        next => cases h
      · rintro ⟨rfl, ha⟩
        have heq : operands = decoded := Option.some.inj
          (((assemble_eq_ok ht).mp ha).1.symm.trans ho)
        subst heq
        rw [ha]
        simp [Except.isOk, Except.toBool]

section
variable {templates : List Template} {c : Catalog} (hc : ofTemplates templates = .ok c)
  (hso : ∀ t ∈ templates, Template.Sound t.fields) {d : Disassembler} (hd : d.catalog = c)
include hc hso hd

/-- The decodings of a word are the ways to assemble it. -/
theorem mem_decode {w x} : x ∈ d.decode w ↔
    x.template ∈ c.templates ∧ d.skips x.template = false ∧ x.template.assemble x.operands = .ok w := by
  rw [decode, mem_filterMap, hd]
  constructor
  · rintro ⟨t, ht, hx⟩
    have ht := ((mem_candidates hc).mp ht).1
    obtain ⟨hs, rfl, ha⟩ := (decodeBy?_eq_some (consistent_of_mem hc hso ht)).mp hx
    exact ⟨ht, hs, ha⟩
  · rintro ⟨ht, hs, ha⟩
    have hco := consistent_of_mem hc hso ht
    have ho := ((assemble_eq_ok hco).mp ha).2.1
    exact ⟨x.template, (mem_candidates hc).mpr ⟨ht, ho⟩,
      (decodeBy?_eq_some hco).mpr ⟨hs, rfl, ha⟩⟩

theorem decode_sublist (w : BitVec 32) : ((d.decode w).map (·.template)).Sublist (c.candidates w) := by
  have hco : ∀ t ∈ c.candidates w, t.Consistent := fun t ht =>
    consistent_of_mem hc hso ((mem_candidates hc).mp ht).1
  rw [decode, hd]
  generalize c.candidates w = ts at hco ⊢
  induction ts with
  | nil => exact List.Sublist.refl _
  | cons t ts ih =>
    obtain ⟨ht, hts⟩ := forall_mem_cons.mp hco
    cases hx : d.decodeBy? w t with
    | none =>
      rw [filterMap_cons_none hx]
      exact (ih hts).cons t
    | some x =>
      rw [filterMap_cons_some hx, map_cons, ((decodeBy?_eq_some ht).mp hx).2.1]
      exact (ih hts).cons_cons t

theorem decode_precede (w : BitVec 32) : ((d.decode w).map (·.template)).Pairwise Catalog.Precedes := by
  refine List.Pairwise.sublist (decode_sublist hc hso hd w) ?_
  obtain ⟨rfl, -⟩ := ofTemplates_eq_ok hc
  exact candidates_precede (nodup_number templates) w

end

end Disassembler

/-! ## The catalogue of the machine -/

theorem Opcode.mem_all (o : Opcode) : o ∈ all := by cases o <;> decide

theorem Opcode.sound_fields (o : Opcode) : Template.Sound o.describe.fields := by
  show ∀ f ∈ o.describe.fields, f.Made ∧ 0 < f.scale
  cases o <;> decide

theorem Catalog.aarch64_eq : ofTemplates (Opcode.all.map Opcode.describe) = .ok aarch64 := rfl

theorem Catalog.sound_aarch64 : ∀ t ∈ Opcode.all.map Opcode.describe, Template.Sound t.fields := by
  intro t ht
  obtain ⟨o, -, rfl⟩ := mem_map.mp ht
  exact o.sound_fields

theorem Opcode.template_mem (o : Opcode) : o.template ∈ aarch64.templates := by
  refine Array.mem_toList_iff.mp ?_
  rw [templates_eq aarch64_eq]
  have hlt : o.serial < all.length := idxOf_lt_length_of_mem o.mem_all
  refine mem_mapIdx.mpr ⟨o.serial, by rw [length_map]; exact hlt, ?_⟩
  rw [getElem_map, show all[o.serial] = o from getElem_idxOf hlt]
  rfl

namespace Disassembler

/-- **Assembling and decoding are inverse for every catalogue** of templates whose fields are made
by the constructors of fields. The decodings of a word are the templates that are not skipped, with
the operands that are assembled to the word; each template is there once, the most specific first.
Operands are legal exactly when they can be assembled. -/
theorem decode_exact {templates : List Template} {c : Catalog} (hc : ofTemplates templates = .ok c)
    (hfields : ∀ t ∈ templates, ∀ f ∈ t.fields, f.Made ∧ 0 < f.scale) {d : Disassembler} (hd : d.catalog = c)
    (w : BitVec 32) :
    c.templates.toList = number templates ∧
    (∀ t operands, ⟨t, operands⟩ ∈ d.decode w ↔
      t ∈ c.templates ∧ d.skips t = false ∧ t.assemble operands = .ok w) ∧
    ((d.decode w).map (·.template)).Nodup ∧
    (d.decode w).Pairwise (fun x y => y.template.specificity ≤ x.template.specificity) ∧
    ∀ (t : Template) (operands : List Operand), t.isLegal operands = true ↔ ∃ w', t.assemble operands = .ok w' := by
  have hp := decode_precede hc hfields hd w
  refine ⟨templates_eq hc, fun t operands => mem_decode hc hfields hd, hp.imp And.left,
    (pairwise_map.mp hp).imp And.right, fun t operands => ?_⟩
  rw [isLegal_eq]
  cases t.assemble operands with
  | error e => simp [Except.isOk, Except.toBool]
  | ok w' => simp [Except.isOk, Except.toBool]

/-- Two of the readings of `orr x1, xzr, x2`, in the catalogue of the machine. -/
theorem decode_exact_move : ofTemplates (Opcode.all.map Opcode.describe) = .ok aarch64 ∧
    ⟨Opcode.mov.template, [.reg ⟨1⟩, .reg ⟨2⟩]⟩ ∈ ({} : Disassembler).decode 0xAA0203E1 ∧
    ⟨Opcode.orrReg.template, [.reg ⟨1⟩, .reg ⟨31⟩, .reg ⟨2⟩]⟩ ∈ ({} : Disassembler).decode 0xAA0203E1 := by
  obtain ⟨-, hde, -⟩ := decode_exact aarch64_eq sound_aarch64
    (rfl : ({} : Disassembler).catalog = aarch64) 0xAA0203E1
  exact ⟨aarch64_eq, (hde _ _).mpr ⟨Opcode.mov.template_mem, rfl, rfl⟩,
    (hde _ _).mpr ⟨Opcode.orrReg.template_mem, rfl, rfl⟩⟩

end Disassembler
end StackCompiler
