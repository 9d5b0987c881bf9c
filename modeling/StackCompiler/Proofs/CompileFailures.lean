/-
Why a method that was built is not compiled: a distance is too far, or the code
cache refuses the bundle. The cache is looked at last, so a method rejected for
a reason of its own is rejected beside every cache.
-/
import StackCompiler.Proofs.DeferredLinking
import StackCompiler.Proofs.ExceptionTable
import StackCompiler.Proofs.LiteralLoads
import StackCompiler.Proofs.LoweredLiterals

namespace StackCompiler

open Convention List Emission CodeCache Buffer

/-! ## Linear code -/

/-- A place that the code of a method can refer to. -/
def Emission.Place.In (m : Linear.Method) : Place → Prop
  | .block id => id < m.blocks.size
  | .literal id => ∃ v, v ≠ .null ∧ m.literals[id]? = some (.ofValue v)

/-- A line inside a block that fails only if a distance is too far. -/
def Emission.Line.Codable (m : Linear.Method) : Line → Prop
  | .insn o operands => ∀ err, o.assemble operands = .error err → err.TooFar
  | .toPlace o operands place =>
    place.In m ∧ ∀ (v : Int) err, v % 4 = 0 → o.assemble (operands ++ [.rel v]) = .error err → err.TooFar
  | .stop .. | .trap => True
  | .block .. | .refuse _ => False

namespace Linear

/-- Linear code whose instructions have machine code, and that refers to what it has. -/
structure Method.Codable (m : Method) : Prop where
  insns : ∀ b ∈ m.blocks, ∀ i ∈ b.insns, i.Codable
  literals : ∀ b ∈ m.blocks, ∀ dst id, .literal dst id ∈ b.insns → (Emission.Place.literal id).In m
  successors : ∀ b ∈ m.blocks, ∀ t ∈ b.successors, t < m.blocks.size

section
variable {g : Graph} {S : Lowering} {start : BlockId → Nat}

theorem Follows.successors_lt {blocks reserved handler insns term nodes k}
    (h : Follows blocks reserved S g start handler insns term nodes k)
    (hk : ∀ e ∈ k.edges, start e.target < blocks.size) : ∀ t ∈ term.successors, t < blocks.size := by
  have hta : ∀ {e : Edge} {t : Nat}, start e.target < blocks.size →
      EdgeTarget blocks reserved S g start e t → t < blocks.size := by
    rintro e t he ⟨insns, -, ⟨-, rfl⟩ | ⟨-, -, hb⟩⟩
    · exact he
    · exact (Array.getElem?_eq_some_iff.mp hb).1
  induction h with
  | node _ _ _ ih => exact ih hk
  | call _ _ _ _ ih => exact ih hk
  | split _ hb =>
    exact forall_mem_singleton.mpr (Array.getElem?_eq_some_iff.mp hb).1
  | jump => exact forall_mem_singleton.mpr (hk _ mem_cons_self)
  | branch _ _ ht ht' =>
    refine forall_mem_cons.mpr ⟨hta (hk _ mem_cons_self) ht, ?_⟩
    exact forall_mem_singleton.mpr (hta (hk _ (mem_cons_of_mem _ mem_cons_self)) ht')
  | ret | retValue | raise => exact fun t ht => absurd ht not_mem_nil

/-- Lowered code can be assembled. -/
theorem lower_codable (hp : g.Proper) (hg : g.Codable g.reachable) : (lower g).Codable := by
  obtain ⟨S, start, hl⟩ := layout_lower hp
  obtain ⟨hli, hbl⟩ := codable_lower hg
  obtain ⟨-, -, hw⟩ := pooled_lower g
  have hs : ∀ {c : BlockId}, c ∈ g.reachable → start c < (lower g).blocks.size := by
    intro c hc
    rw [hl.start_eq hc]
    exact idxOf_lt_blocks hp hc
  refine ⟨fun b hb => (hbl b hb).1, fun b hb dst id hid => ?_, fun b hb t ht => ?_⟩
  · have hlt : id < (lower g).literals.size := hw b hb _ hid
    obtain ⟨v, hv, heq⟩ := hli _ (Array.getElem_mem hlt)
    exact ⟨v, hv, (Array.getElem?_eq_getElem hlt).trans (congrArg some heq)⟩
  rcases mem_append.mp ht with ht | ht
  · obtain ⟨i, hi⟩ := Array.getElem?_of_mem hb
    rcases hl.rest hi with ⟨-, c, hc, hte⟩ | ⟨c, hc, nodes, -, hr⟩
    · rw [hte] at ht
      rw [mem_singleton.mp ht]
      exact hs hc
    · refine hr.successors_lt (fun e he => hs ?_) t ht
      exact hp.target_reachable hc (mem_append_right _ he)
  · -- handlers are starts of blocks of the graph, also where no call is left
    obtain ⟨c, rfl⟩ := (hbl b hb).2 t (Option.mem_toList.mp ht)
    obtain ⟨c', hc', heq⟩ := exists_start_eq hp.entry_reachable c
    rw [heq, start_eq_idxOf hc']
    exact idxOf_lt_blocks hp hc'

end
end Linear

/-! ## Failing by distances only -/

/-- The error of a distance that is too far. -/
def CodegenError.TooFar (err : CodegenError) : Prop := ∃ e : AssemblyError, e.TooFar ∧ err = .assembly e

/-- A result with a property, unless a distance is too far. -/
def Attains {α : Type} (Q : α → Prop) : Except CodegenError α → Prop
  | .ok x => Q x
  | .error err => err.TooFar

section
variable {α β : Type} {P : α → Prop} {Q : β → Prop} {r : Except CodegenError α} {f : α → Except CodegenError β}

theorem Attains.bind (hr : Attains P r) (hf : ∀ x, P x → Attains Q (f x)) : Attains Q (r >>= f) := by
  cases r with
  | ok x => exact hf x hr
  | error err => exact hr

theorem Attains.of_ok {x} (h : r = .ok x) (hx : P x) : Attains P r := h ▸ hx

theorem Attains.imp {Q} (hr : Attains P r) (h : ∀ x, r = .ok x → P x → Q x) : Attains Q r := by
  cases r with
  | ok x => exact h x rfl hr
  | error err => exact hr

end

/-! ## Emission -/

namespace Emission

variable {m : Linear.Method} {a : Allocation} {method : String} {e e' : Emission}

/-- A placeholder that can be replaced by an instruction unless its label is too far. -/
structure Placeable (m : Linear.Method) (literals : List (LiteralId × Label)) (p : Placeholder) : Prop where
  aligned : p.offset % 4 = 0
  assembles : ∀ (v : Int) err, v % 4 = 0 → p.opcode.assemble (p.operands ++ [.rel v]) = .error err → err.TooFar
  label : p.label < m.blocks.size ∨ p.label ∈ literals.map (·.2)

/-- Code that can be finished unless a distance is too far, once all blocks are there. -/
structure Ready (m : Linear.Method) (e : Emission) : Prop where
  aligned : e.buffer.offset % 4 = 0
  bound : ∀ {l p : Nat}, e.buffer.labels[l]? = some (.bound p) → p % 4 = 0
  placeholders : ∀ p ∈ e.buffer.placeholders, Placeable m e.literals p
  literals : ∀ p ∈ e.literals, (Place.literal p.1).In m
  ranges : ∀ r ∈ e.ranges.toList, ∀ h, r.2 = some h → h < m.blocks.size

/-- Labels that are not bound yet stay so. -/
def Leaves (e e' : Emission) : Prop :=
  ∀ l : Nat, e.buffer.labels[l]? = some .unbound → e'.buffer.labels[l]? = some .unbound

theorem Placeable.mono {p old new} (h : Placeable m old p) (hl : old ⊆ new) : Placeable m new p :=
  ⟨h.aligned, h.assembles, h.label.imp id fun hla => map_subset _ hl hla⟩

theorem Ready.emitWord (he : e.Ready m) (w : BitVec 32) (stops : Array Stop) (inlineData : List InlineRun) :
    Ready m { e with buffer := e.buffer.emitWord w, stops, inlineData } := by
  refine ⟨?_, he.bound, he.placeholders, he.literals, he.ranges⟩
  rw [offset_emitWord]
  have ha := he.aligned
  omega

theorem Ready.label (he : e.Ready m) {place label e'} (hpl : place.In m) (h : Labels e place label e') :
    e'.Ready m ∧ Leaves e e' ∧ (label < m.blocks.size ∨ label ∈ e'.literals.map (·.2)) := by
  cases h with
  | block => exact ⟨he, fun _ h => h, .inl hpl⟩
  | old h => exact ⟨he, fun _ h => h, .inr (mem_map_of_mem h)⟩
  | new =>
    have ho : ∀ {l : Nat} {x : LabelState}, (e.buffer.labels.push .unbound)[l]? = some x →
        e.buffer.labels[l]? = some x ∨ x = .unbound := by
      intro l x hl
      rw [Array.getElem?_push] at hl
      split at hl
      · exact .inr (Option.some.inj hl).symm
      · exact .inl hl
    refine ⟨⟨he.aligned, fun hl => ?_, fun p hp => (he.placeholders p hp).mono (subset_append_left _ _),
      forall_mem_append.mpr ⟨he.literals, forall_mem_singleton.mpr hpl⟩, he.ranges⟩, fun l hl => ?_, ?_⟩
    · rcases ho hl with hl | hl
      · exact he.bound hl
      · cases hl
    · show (e.buffer.labels.push .unbound)[l]? = _
      rw [Array.getElem?_push_lt (Array.getElem?_eq_some_iff.mp hl).1, ← Array.getElem?_eq_getElem, hl]
    · exact .inr (mem_map.mpr ⟨_, mem_append_right _ mem_cons_self, rfl⟩)

theorem Ready.add (he : e.Ready m) {line} (hl : line.Codable m) :
    Attains (fun e' => e'.Ready m ∧ Leaves e e') (e.add method line) := by
  cases line with
  | insn o operands =>
    simp only [Emission.add]
    cases ha : o.assemble operands with
    | ok w => exact ⟨he.emitWord w _ _, fun _ h => h⟩
    | error err => exact ⟨err, hl err ha, rfl⟩
  | toPlace o operands place =>
    obtain ⟨hr, hle, hla⟩ := he.label hl.1 (labels_label e place)
    refine ⟨⟨?_, hr.bound, fun p hp => ?_, hr.literals, hr.ranges⟩, hle⟩
    · have hal := hr.aligned
      have ho := offset_emitWord (e.label place).2.buffer 0
      show ((e.label place).2.buffer.emitWord 0).offset % 4 = 0
      omega
    · rcases Array.mem_push.mp hp with hp | rfl
      · exact hr.placeholders p hp
      · exact ⟨hr.aligned, hl.2, hla⟩
  | stop kind bci slots registers =>
    exact ⟨⟨he.aligned, he.bound, he.placeholders, he.literals, he.ranges⟩, fun _ h => h⟩
  | trap => exact ⟨he.emitWord 0 _ _, fun _ h => h⟩
  | block id handler => exact hl.elim
  | refuse what => exact hl.elim

theorem Ready.addAll : ∀ {lines : List Line} {e : Emission}, e.Ready m → (∀ line ∈ lines, line.Codable m) →
    Attains (fun e' => e'.Ready m ∧ Leaves e e') (addAll method lines e)
  | [], _, he, _ => ⟨he, fun _ h => h⟩
  | line :: rest, e, he, hli => by
    obtain ⟨hlin, hr⟩ := forall_mem_cons.mp hli
    rw [addAll_cons_eq]
    refine (he.add hlin).bind fun e₁ he₁ => ?_
    exact (he₁.1.addAll hr).imp fun e₂ _ he₂ => ⟨he₂.1, fun l hl => he₂.2 l (he₁.2 l hl)⟩

theorem Ready.changeHandler (he : e.Ready m) {handler} (hh : ∀ h, handler = some h → h < m.blocks.size) :
    (e.changeHandler handler).Ready m := by
  obtain ⟨hb, -, hli⟩ := changeHandler_buffer e handler
  refine ⟨hb ▸ he.aligned, fun hl => he.bound (hb ▸ hl), by rw [hb, hli]; exact he.placeholders,
    hli ▸ he.literals, ?_⟩
  by_cases heq : handler = e.handler
  · rw [show e.changeHandler handler = e from if_pos heq]
    exact he.ranges
  · obtain ⟨front, hn, ho⟩ := changeHandler_ranges heq
    rw [hn]
    refine forall_mem_append.mpr ⟨fun r hr => he.ranges r ?_, forall_mem_singleton.mpr hh⟩
    rcases ho with ho | ⟨old, ho⟩
    · rw [ho]
      exact hr
    · rw [ho]
      exact mem_append_left _ hr

theorem Ready.addBlock (he : e.Ready m) {id handler} (hu : e.buffer.labels[id]? = some .unbound)
    (hh : ∀ h, handler = some h → h < m.blocks.size) :
    ∃ e', e.add method (.block id handler) = .ok e' ∧ e'.Ready m ∧
      ∀ l, id ≠ l → e.buffer.labels[l]? = some .unbound → e'.buffer.labels[l]? = some .unbound := by
  have hbi : e.buffer.bind id =
      .ok { e.buffer with labels := e.buffer.labels.setIfInBounds id (.bound e.buffer.offset) } := by
    unfold Buffer.bind
    rw [hu]
  have hb : Ready m { e with buffer := { e.buffer with
      labels := e.buffer.labels.setIfInBounds id (.bound e.buffer.offset) } } := by
    refine ⟨he.aligned, @fun l p hl => ?_, he.placeholders, he.literals, he.ranges⟩
    by_cases hid : id = l
    · subst hid
      have hs := Array.getElem?_setIfInBounds_self_of_lt (a := LabelState.bound e.buffer.offset)
        (Array.getElem?_eq_some_iff.mp hu).1
      cases hs.symm.trans hl
      exact he.aligned
    · exact he.bound ((Array.getElem?_setIfInBounds_ne hid).symm.trans hl)
  refine ⟨_, by simp only [Emission.add, hbi], hb.changeHandler hh, fun l hid hl => ?_⟩
  rw [(changeHandler_buffer _ handler).1]
  exact (Array.getElem?_setIfInBounds_ne hid).trans hl

theorem Line.Shape.codable {c s P} {line : Line} (h : line.Shape a c s P) (hc : c)
    (hp : ∀ place, P place → place.In m) : line.Codable m := by
  cases h with
  | word _ h => exact fun err he => nomatch h.symm.trans he
  | load => exact fun _ he => Opcode.tooFar_slot (.inl rfl) he
  | store => exact fun _ he => Opcode.tooFar_slot (.inr rfl) he
  | toPlace h _ ho => exact ⟨hp _ h, ho⟩
  | poll => exact fun err he => nomatch he
  | stop | trap => trivial
  | refuse h => exact absurd hc h

theorem codable_frame {size line} (hl : line ∈ prologue size ++ epilogue size) : line.Codable m := by
  obtain ⟨_, _, _, rfl, h⟩ := assemble_frame hl
  exact fun err he => nomatch h.symm.trans he

theorem codable_block (hm : m.Codable) {b} (hb : b ∈ m.blocks) (id : Nat) :
    ∃ inside, block m a id b = .block id b.handler :: inside ∧ ∀ line ∈ inside, line.Codable m := by
  refine ⟨_, block_eq b, forall_mem_append.mpr ⟨fun line hl => ?_, fun line hl => ?_⟩⟩
  · obtain ⟨p, hp, hl⟩ := mem_flatMap.mp hl
    have hi : p.1 ∈ b.insns := (mem_zipIdx hp).2.2 ▸ getElem_mem _
    refine (shaped_insn m id p.2 p.1 line hl).codable (hm.insns b hb _ hi) ?_
    rintro _ ⟨dst, l, heq, rfl⟩
    exact hm.literals b hb dst l (heq ▸ hi)
  · rcases shape_terminator _ hl with hl | hl
    · exact codable_frame (mem_append_right _ hl)
    · refine hl.codable trivial ?_
      rintro _ ⟨t, ht, rfl⟩
      exact hm.successors b hb t (mem_append_left _ ht)

/-- Blocks are added in their order, so the label of each is still free. -/
theorem Ready.addBlocks (hm : m.Codable) : ∀ {blocks : List Linear.Block} {k : Nat} {e : Emission}, e.Ready m →
    (∀ b ∈ blocks, b ∈ m.blocks) → (∀ l, k ≤ l → l < k + blocks.length → e.buffer.labels[l]? = some .unbound) →
    Attains (Ready m) (Emission.addAll method ((blocks.zipIdx k).flatMap fun p => block m a p.2 p.1) e)
  | [], _, _, he, _, _ => he
  | b :: rest, k, e, he, hb, hf => by
    rw [forall_mem_cons] at hb
    obtain ⟨inside, hli, hi⟩ := @codable_block m a hm b hb.1 k
    obtain ⟨e₁, ha, he₁, hl⟩ := @Ready.addBlock m method e he k b.handler
      (hf k (Nat.le_refl k) (by rw [length_cons]; omega))
      fun h hh => hm.successors b hb.1 h (mem_append_right _ (Option.mem_toList.mpr hh))
    rw [zipIdx_cons, flatMap_cons, hli, cons_append, addAll_cons_eq, ha]
    show Attains _ (Emission.addAll method _ e₁)
    rw [addAll_append_eq]
    refine (he₁.addAll hi).bind fun e₂ he₂ => ?_
    refine he₂.1.addBlocks hm hb.2 fun l hle hlt => he₂.2 l (hl l (by omega) (hf l (by omega) ?_))
    rw [length_cons]
    omega

theorem ready_start (m : Linear.Method) : (start m).Ready m := by
  refine ⟨rfl, @fun l p hl => ?_, fun p hp => absurd hp (Array.not_mem_empty p),
    fun p hp => absurd hp not_mem_nil, fun r hr h hh => ?_⟩
  · have hl : (Array.replicate m.blocks.size LabelState.unbound)[l]? = some (.bound p) := hl
    rw [Array.getElem?_replicate] at hl
    split at hl <;> cases hl
  · unfold start at hr
    dsimp only at hr
    split at hr
    · rw [mem_singleton.mp hr] at hh
      cases hh
    · cases hr

theorem ofMethod_attains (hm : m.Codable) (a : Allocation) : Attains (Ready m) (ofMethod m a) := by
  unfold ofMethod
  rw [lines_eq, addAll_append_eq]
  refine ((ready_start m).addAll fun _ hl => codable_frame (mem_append_left _ hl)).bind fun e he => ?_
  refine he.1.addBlocks hm (fun b hb => Array.mem_toList_iff.mp hb) fun l _ hlt => he.2 l ?_
  rw [Nat.zero_add, Array.length_toList] at hlt
  show (Array.replicate m.blocks.size LabelState.unbound)[l]? = _
  rw [Array.getElem?_replicate, if_pos hlt]

end Emission

/-! ## Bundles -/

namespace LiteralPool

theorem image_ofValue {v w} (hw : w ≠ .null) (h : Literal.scalar v = .ofValue w) :
    ∃ image, Convention.dataModel.image v = .ok image := by
  cases w with
  | null => exact absurd rfl hw
  | reference r => cases h
  | _ =>
    cases h
    exact ⟨_, rfl⟩

theorem write_isOk : ∀ {scalars : List (Value × Label)} {offset : Nat} (placed : List (Label × Nat)) {bytes : Bytes},
    bytes.size = offset → (∀ p ∈ scalars, ∃ image, Convention.dataModel.image p.1 = .ok image) →
      ∃ r, write offset placed bytes scalars = .ok r
  | [], _, placed, bytes, hs, _ => by
    unfold write
    rw [if_neg (not_not_intro hs)]
    exact ⟨_, rfl⟩
  | (v, label) :: rest, offset, placed, bytes, hs, hi => by
    rw [forall_mem_cons] at hi
    obtain ⟨⟨image, him⟩, hr⟩ := hi
    unfold write
    rw [if_neg (not_not_intro hs), him]
    refine write_isOk _ ?_ hr
    have hl : image.length = v.kind.width := by
      rw [image_scalar him, Literal.length_bytes]
      rfl
    rw [← Array.length_toList, Array.toList_appendList, length_append, Array.length_toList, hs, hl]

theorem pack_isOk {used} (h : ∀ p ∈ used, ∃ v, v ≠ .null ∧ p.1 = .ofValue v) :
    ∃ pool, pack used = .ok pool := by
  obtain ⟨r, hwr⟩ : ∃ r, write 0 [] #[] (sortedScalars used) = .ok r := by
    refine write_isOk [] rfl fun p hp => ?_
    obtain ⟨⟨literal, label⟩, hq, hs⟩ := mem_filterMap.mp ((mergeSort_perm _ _).mem_iff.mp hp)
    obtain ⟨w, hw, hl⟩ := h _ hq
    cases literal with
    | reference r => cases hs
    | scalar v =>
      cases hs
      exact image_ofValue hw hl
  unfold sortedScalars at hwr
  unfold pack
  simp only
  rw [hwr]
  exact ⟨_, rfl⟩

end LiteralPool

namespace Buffer

variable {b : Buffer}

theorem fix_isOk {label} (h : label < b.labels.size) (address : Nat) :
    b.fix label address = .ok { b with labels := b.labels.setIfInBounds label (.fixed address) } := by
  unfold fix
  rw [Array.getElem?_eq_getElem h]

end Buffer

theorem distance_aligned {source target} (hs : source % 4 = 0) (ht : target % 4 = 0) :
    distance source target % 4 = 0 := by
  unfold distance
  rw [Int.bmod_def]
  split <;> omega

namespace Bundle
open LiteralPool

variable {m : Linear.Method} {a : Allocation} {e : Emission} {pool : LiteralPool} {buffer : Buffer} {base : Nat}

theorem fixLabels_isOk : ∀ {addresses : List (Label × Nat)} {b : Buffer},
    (∀ p ∈ addresses, p.1 < b.labels.size) → ∃ b', fixLabels b addresses = .ok b'
  | [], b, _ => ⟨b, rfl⟩
  | (label, address) :: rest, b, h => by
    rw [forall_mem_cons] at h
    unfold fixLabels
    rw [fix_isOk h.1]
    refine fixLabels_isOk fun p hp => ?_
    rw [Array.size_setIfInBounds]
    exact h.2 p hp

theorem catchBlocks_isOk {method b} : ∀ {labels : List (Option Label)},
    (∀ label, some label ∈ labels → ∃ position, b.position label = .ok position ∧ position ≠ 0) →
      ∃ blocks, catchBlocks method b labels = .ok blocks
  | [], _ => ⟨[], rfl⟩
  | none :: rest, h => by
    obtain ⟨blocks, hb⟩ := catchBlocks_isOk fun label hl => h label (mem_cons_of_mem _ hl)
    exact ⟨0 :: blocks, by rw [catchBlocks, hb]; rfl⟩
  | some label :: rest, h => by
    obtain ⟨blocks, hb⟩ := catchBlocks_isOk fun label hl => h label (mem_cons_of_mem _ hl)
    obtain ⟨position, hp, hne⟩ := h label mem_cons_self
    refine ⟨position :: blocks, ?_⟩
    rw [catchBlocks, hp]
    simp only
    rw [if_neg hne, hb]
    rfl

theorem usedLiterals_storable (hr : e.Ready m) :
    ∀ p ∈ usedLiterals m e, ∃ v, v ≠ .null ∧ p.1 = .ofValue v := by
  intro p hp
  obtain ⟨q, hq, rfl⟩ := mem_map.mp hp
  obtain ⟨v, hv, hl⟩ := hr.literals q ((mergeSort_perm _ _).mem_iff.mp hq)
  refine ⟨v, hv, ?_⟩
  show m.literals.getD q.1 default = _
  rw [Array.getD_eq_getD_getElem?, hl]
  rfl

section
variable (he : ofMethod m a = .ok e)
include he

theorem exists_fixed (hp : pack (usedLiterals m e) = .ok pool)
    (hb : bundleAlignment ∣ base) (hf : fixLabels e.buffer (pool.addresses 0 base) = .ok buffer) {l}
    (hl : l ∈ e.literals.map (·.2)) :
    ∃ address, buffer.labels[l]? = some (.fixed address) ∧ address % 4 = 0 := by
  obtain ⟨q, hq, rfl⟩ := mem_map.mp hl
  obtain ⟨place, hs⟩ := slot_of_literal m hq base
  refine ⟨place, fixed_slot (labelled_ofMethod he) hp hf hs, ?_⟩
  have hd : (m.literals.getD q.1 default).width ∣ place := aligned_slots hb _ hs
  rcases (m.literals.getD q.1 default).width_cases with hw | hw <;> rw [hw] at hd <;> omega

/-- With all labels in place a placeholder fails only if its label is too far. -/
theorem resolve_tooFar (hr : e.Ready m)
    (hpa : pack (usedLiterals m e) = .ok pool) (hba : bundleAlignment ∣ base)
    (hfi : fixLabels e.buffer (pool.addresses 0 base) = .ok buffer) {start}
    (hst : bundleAlignment ∣ start) {p} (hp : p ∈ e.buffer.placeholders) {err}
    (h : { buffer with start }.resolve p = .error err) : err.TooFar := by
  have hpl := hr.placeholders p hp
  have hst : start % 8 = 0 := Nat.mod_eq_zero_of_dvd hst
  have hal := hpl.aligned
  have hs : (start + p.offset) % 4 = 0 := by omega
  rcases hpl.label with hla | hla
  · have hb := label_block he (Array.getElem?_eq_getElem hla)
    have hlab : buffer.labels[p.label]? = some (.bound (blockPosition a m p.label)) :=
      labels_block he (fun l hl => labels_literals hpa hfi hl) (Array.getElem?_eq_getElem hla)
    have hpo := hr.bound hb
    rw [resolve_bound (b := { buffer with start }) hlab] at h
    have ht : (start + blockPosition a m p.label) % 4 = 0 := by omega
    exact hpl.assembles _ err (distance_aligned hs ht) h
  · obtain ⟨address, hf, ha⟩ := exists_fixed he hpa hba hfi hla
    rw [resolve_fixed (b := { buffer with start }) hf] at h
    exact hpl.assembles _ err (distance_aligned hs ha) h

theorem ofEmission_attains (hre : e.Ready m) :
    Attains (fun _ => True) (ofEmission m a e) := by
  obtain ⟨pool, hpa⟩ := pack_isOk (usedLiterals_storable hre)
  let literals : Layout := ⟨pool.scalarBytes.size, pool.referenceBytes, 0, bundleAlignment⟩
  have hba : bundleAlignment ∣ literals.offset .references := dvd_alignUp (by decide)
  have hs : bundleAlignment ∣ literals.offset .code := dvd_alignUp (by decide)
  obtain ⟨buffer, hfi⟩ : ∃ buffer, fixLabels e.buffer (pool.addresses 0 (literals.offset .references)) =
      .ok buffer := by
    refine fixLabels_isOk fun p hp => ?_
    have hla := mem_addresses hpa hp
    rw [usedLiterals, map_map] at hla
    obtain ⟨q, hq, heq⟩ := mem_map.mp (((mergeSort_perm _ _).map _).mem_iff.mp hla)
    rw [← heq]
    exact (labelled_ofMethod he).lt q hq
  unfold ofEmission
  refine Attains.bind (Attains.of_ok hpa (P := fun x => x = pool) rfl) fun x hx => ?_
  subst hx
  refine Attains.bind (Attains.of_ok hfi (P := fun x => x = buffer) rfl) fun x hx => ?_
  subst hx
  generalize hf : finish _ = result
  obtain ⟨buffer', finished⟩ := result
  cases finished with
  | error err =>
    obtain ⟨p, hp, hres⟩ := finish_fails hf
    refine ⟨err, resolve_tooFar he hre hpa hba hfi hs ?_ hres, rfl⟩
    rw [← (fixLabels_code hfi).2]
    exact hp
  | ok code =>
    obtain ⟨blocks, hb⟩ : ∃ blocks, catchBlocks m.key.text buffer' (e.ranges.toList.map (·.2)) =
        .ok blocks := by
      refine catchBlocks_isOk fun label hl => ?_
      obtain ⟨r, hr, hla⟩ := mem_map.mp hl
      refine ⟨_, position_block he (fun l hl => ?_) (Array.getElem?_eq_getElem (hre.ranges r hr label hla)),
        Nat.ne_of_gt (blockPosition_pos a m label)⟩
      rw [(finish_spec hf).1]
      exact labels_literals hpa hfi hl
    have hc : catchTableOf m.key.text { e with buffer := buffer' } = .ok ⟨e.ranges.toList.map (·.1), blocks⟩ := by
      simp only [catchTableOf]
      rw [hb]
      rfl
    exact (Attains.of_ok hc (P := fun _ => True) trivial).bind fun _ _ => trivial

end

/-- The bundle of linear code, still without a place. -/
def ofCode (m : Linear.Method) : Except CodegenError Bundle :=
  ofMethod m (.ofCode m) >>= ofEmission m (.ofCode m)

theorem ofCode_attains (hm : m.Codable) : Attains (fun _ => True) (ofCode m) := by
  have hem := (ofMethod_attains hm (.ofCode m)).imp fun e he hr => And.intro he hr
  exact hem.bind fun e he => ofEmission_attains he.1 he.2

end Bundle

/-! ## Installation -/

namespace CodeCache

theorem installBundle_outcome (s : CodeCache) (key : MethodKey) (b : Bundle) (link : Bool) :
    (∃ cm, (s.installBundle key b link).1 = .ok cm) ∨ ∃ e, (s.installBundle key b link).1 = .error (.cache e) := by
  rcases hp : s.allocate b.ownLayout.size bundleAlignment with ⟨e | p, t⟩
  · rw [installBundle_of_full hp]
    exact .inr ⟨e, rfl⟩
  · rw [installBundle_of_place hp]
    cases (t.install (b.placed key p) (b.placed key p).image link).1 with
    | error e => exact .inr ⟨e, rfl⟩
    | ok => exact .inl ⟨_, rfl⟩

end CodeCache

/-! ## Sessions -/

namespace Session
variable {m : Method} {g : Graph}

/-- A method that was built is compiled, unless a branch, a load or an access to the frame reaches
too far, which leaves the session alone, or the code cache refuses the bundle. -/
theorem compile_fails_by_distance_or_cache {order : Graph.HandlerOrder m} (hg : Graph.build m order = .ok g)
    (s : Session) (provider : MethodProvider) :
    ∃ code, linear s.config.compiler.optimizer provider m order = .ok code ∧
      ((∃ err : AssemblyError, err.TooFar ∧ Bundle.ofCode code = .error (.assembly err) ∧
          s.compile provider m order = (.error (.codegen (.assembly err)), s)) ∨
        ∃ b, Bundle.ofCode code = .ok b ∧ ((∃ cm, (s.compile provider m order).1 = .ok cm) ∨
          ∃ e, (s.cache.installBundle code.key b (!s.config.compiler.bootImage)).1 = .error (.cache e) ∧
            (s.compile provider m order).1 = .error (.cache e))) := by
  obtain ⟨p, k, live, T⟩ := Graph.build_eq_ok hg
  have hl : linear s.config.compiler.optimizer provider m order =
      .ok (Linear.lower (g.optimize s.config.compiler.optimizer provider).1) := by
    rw [linear, hg]
    rfl
  have hp := (Graph.optimize_ordered T.proper T.placed s.config.compiler.optimizer provider).1
  have hc := Linear.lower_codable hp
    (Graph.optimize_codable T.proper T.placed T.codable s.config.compiler.optimizer provider)
  refine ⟨_, hl, ?_⟩
  have ha := Bundle.ofCode_attains hc
  generalize Linear.lower _ = code at hl ha
  cases hb : Bundle.ofCode code with
  | error err =>
    rw [hb] at ha
    obtain ⟨err, hf, rfl⟩ := ha
    exact .inl ⟨err, hf, rfl, compile_of_linear hl (generate_of_error hb _ _)⟩
  | ok b =>
    refine .inr ⟨b, rfl, ?_⟩
    have ho := s.cache.installBundle_outcome code.key b (!s.config.compiler.bootImage)
    rcases hi : s.cache.installBundle code.key b (!s.config.compiler.bootImage) with ⟨result, cache⟩
    rw [hi] at ho
    rw [compile_of_linear hl ((generate_of_bundle hb _ _).trans hi)]
    rcases ho with ⟨cm, rfl⟩ | ⟨e, rfl⟩
    · exact .inl ⟨cm, rfl⟩
    · exact .inr ⟨e, rfl, rfl⟩

/-- `guarded` reaches nowhere too far, and a new cache of one page takes it. -/
theorem compile_guarded_succeeds : ∃ g cache code b cm, Graph.build guarded = .ok g ∧
    CodeCache.create ⟨2048, 1, 2048⟩ = .ok cache ∧ linear {} (fun _ => none) guarded = .ok code ∧
    Bundle.ofCode code = .ok b ∧
    (compile ⟨{ compiler := { bootImage := true } }, cache⟩ (fun _ => none) guarded).1 = .ok cm := by
  obtain ⟨g, hg, -, hc⟩ := lower_guarded
  obtain ⟨cache, cm, hca, h⟩ := generate_guarded
  let s : Session := ⟨{ compiler := { bootImage := true } }, cache⟩
  have hl : linear s.config.compiler.optimizer (fun _ => none) guarded = .ok guardedCode := by
    rw [linear, hg]
    exact congrArg Except.ok hc
  have hok : (s.compile (fun _ => none) guarded).1 = .ok cm := by
    rcases hge : cache.generate guardedCode (.ofCode guardedCode) false with ⟨result, t⟩
    rw [hge] at h
    have hr : result = .ok cm := h
    rw [compile_of_linear hl hge, hr]
    rfl
  obtain ⟨code, hc, ⟨err, -, -, hf⟩ | ⟨b, hb, -⟩⟩ := compile_fails_by_distance_or_cache hg s fun _ => none
  · rw [hf] at hok
    cases hok
  · exact ⟨g, cache, code, b, cm, hg, hca, hc, hb, hok⟩

end Session

/-! ## Rejected methods -/

theorem CompileError.ne_cache_of_ofCodegen {e} (h : ∀ err, ofCodegen e ≠ .cache err) :
    ∀ err, e ≠ .cache err := by
  rintro err rfl
  exact h err rfl

theorem CodeCache.generate_rejected {s : CodeCache} {m a link e} (h : (s.generate m a link).1 = .error e)
    (hc : ∀ err, e ≠ .cache err) (t : CodeCache) : t.generate m a link = (.error e, t) := by
  cases hb : Bundle.make m a with
  | error err =>
    rw [generate_of_error hb] at h
    cases h
    exact generate_of_error hb t link
  | ok b =>
    -- the method has its bundle: from here on only the cache fails
    rw [generate_of_bundle hb] at h
    obtain ⟨cm, hcm⟩ | ⟨err, he⟩ := s.installBundle_outcome m.key b link
    · rw [hcm] at h
      cases h
    · rw [he] at h
      cases h
      exact absurd rfl (hc err)

namespace Session

/-- **A rejected method leaves no trace.** If compiling a method fails and the code cache is not to
blame, the session is as it was before. Nor does the cache matter: beside any other cache the same
method fails with the same error, and that cache is left alone too. -/
theorem rejected_method_leaves_no_trace (s : Session) (provider : MethodProvider) (m : Method)
    (order : Graph.HandlerOrder m) (e : CompileError) (h : (s.compile provider m order).1 = .error e)
    (hcache : ∀ err, e ≠ .cache err) : (s.compile provider m order).2 = s ∧
      ∀ cache, compile { s with cache } provider m order = (.error e, { s with cache }) := by
  have ha : ∀ cache, compile { s with cache } provider m order = (.error e, { s with cache }) := by
    intro cache
    cases hl : linear s.config.compiler.optimizer provider m order with
    | error err =>
      rw [compile_of_rejected hl] at h
      cases h
      exact compile_of_rejected hl
    | ok code =>
      rcases hg : s.cache.generate code (.ofCode code) (!s.config.compiler.bootImage) with ⟨result, t⟩
      rw [compile_of_linear hl hg] at h
      cases result with
      | ok cm => cases h
      | error err =>
        cases h
        have hr := generate_rejected (congrArg Prod.fst hg)
          (CompileError.ne_cache_of_ofCodegen hcache) cache
        rw [compile_of_linear (s := { s with cache }) hl hr]
        rfl
  exact ⟨congrArg Prod.snd (ha s.cache), ha⟩

/-- A method whose two ways to its last instruction disagree about the stack. -/
def uneven : Method where
  key := ⟨"T", "u", "(I)I"⟩
  locals := []
  code := [.stack (.load 0), .stack (.load 0), .ifZero .eq 4, .stack (.load 0), .retValue]
  handlers := []

theorem linear_uneven : linear {} (fun _ => none) uneven = .error (.stackMismatch uneven.key.text 4) := by
  have h : Graph.build uneven = .error (.stackMismatch uneven.key.text 4) := by decide +kernel
  rw [linear, h]
  rfl

/-- A slot that no store reaches. -/
def distant : Allocation := ⟨#[some (.stack 5000)], 5001, #[]⟩

/-- `uneven` is rejected after `guarded` has been installed, and all of it stays, as it does where
the assembler rejects `guarded` with its argument too far away. -/
theorem uneven_leaves_no_trace : ∃ cache cm t, CodeCache.create ⟨2048, 1, 2048⟩ = .ok cache ∧
    cache.generate guardedCode (.ofCode guardedCode) false = (.ok cm, t) ∧
    (compile ⟨{}, t⟩ (fun _ => none) uneven).1 = .error (.bytecode (.stackMismatch uneven.key.text 4)) ∧
    (compile ⟨{}, t⟩ (fun _ => none) uneven).2 = ⟨{}, t⟩ ∧
    (compile ⟨{}, cache⟩ (fun _ => none) uneven).2 = ⟨{}, cache⟩ ∧
    t.generate guardedCode distant false = (.error (.assembly (.outOfRange "str" "pimm12" 40000)), t) := by
  obtain ⟨cache, cm, hc, hcm⟩ := generate_guarded
  rcases hg : cache.generate guardedCode (.ofCode guardedCode) false with ⟨result, t⟩
  rw [hg] at hcm
  have hre : result = .ok cm := hcm
  have hr := compile_of_rejected (s := ⟨{}, t⟩) linear_uneven
  have her := congrArg Prod.fst hr
  have h := rejected_method_leaves_no_trace ⟨{}, t⟩ (fun _ => none) uneven _ _ her fun _ he => by cases he
  exact ⟨cache, cm, t, hc, hre ▸ hg, her, h.1, congrArg Prod.snd (h.2 cache),
    CodeCache.generate_of_error (by cbv) t false⟩

end Session
end StackCompiler
