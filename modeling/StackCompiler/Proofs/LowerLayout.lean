/-
From a point inside a block on, `Finishes` says what the rest of the block will be
and that the other blocks stay as they are; it is proved from the end of a block
back to its beginning. As in the steps, code is described in a later state `S`.
-/
import StackCompiler.Proofs.LoweringSteps

namespace StackCompiler.Linear

open List

namespace Lower

open Lowering

variable {src : Source} {s s' s₁ S : Lowering} {size reserved : Nat} {code : List Insn} {u : Unit}
  {start : BlockId → Nat}

/-! ## Blocks -/

/-- A block is open in a state: names are in order, and the block is there. -/
structure Open (size reserved : Nat) (s : Lowering) : Prop where
  named : s.Named size
  current_lt : s.current < s.blocks.size
  reserved_le : reserved ≤ s.blocks.size

theorem Open.emit (h : Open size reserved s) : Open size reserved { s with code := s.code ++ code } :=
  ⟨h.named.keep, h.current_lt, h.reserved_le⟩

/-- Blocks may have been added besides variables and literals. -/
structure Reserves (start : BlockId → Nat) (size : Nat) (s s' : Lowering) : Prop where
  grows : s.Grows s'
  named : s'.Named size
  size : s.blocks.size ≤ s'.blocks.size
  old : ∀ i, i < s.blocks.size → s'.blocks[i]? = s.blocks[i]?
  new : ∀ i b, s.blocks.size ≤ i → s'.blocks[i]? = some b → b.Passing start
  current : s'.current = s.current
  code : s'.code = s.code
  handler : s'.handler = s.handler

theorem Reserves.of_adds (h : Adds size s s') : Reserves start size s s' := by
  refine ⟨h.grows, h.named, Nat.le_of_eq (by rw [h.blocks]), fun _ _ => by rw [h.blocks], fun i b hi hb => ?_,
    h.current, h.code, h.handler⟩
  rw [h.blocks, Array.getElem?_eq_none hi] at hb
  cases hb

theorem Reserves.trans {s''} (h : Reserves start size s s') (h' : Reserves start size s' s'') :
    Reserves start size s s'' where
  grows := h.grows.trans h'.grows
  named := h'.named
  size := Nat.le_trans h.size h'.size
  old i hi := (h'.old i (Nat.lt_of_lt_of_le hi h.size)).trans (h.old i hi)
  new i b hi hb := by
    by_cases hlt : i < s'.blocks.size
    · exact h.new i b hi ((h'.old i hlt).symm.trans hb)
    · exact h'.new i b (Nat.le_of_not_lt hlt) hb
  current := h'.current.trans h.current
  code := h'.code.trans h.code
  handler := h'.handler.trans h.handler

theorem Open.reserve (h : Open size reserved s) (hr : Reserves start size s s') : Open size reserved s' :=
  ⟨hr.named, Nat.lt_of_lt_of_le (hr.current ▸ h.current_lt) hr.size, Nat.le_trans h.reserved_le hr.size⟩

theorem Open.adds (h : Open size reserved s) (ha : Adds size s s') : Open size reserved s' :=
  h.reserve (.of_adds ha : Reserves id size s s')

/-- What is known of the rest of a block: its handler, instructions and terminator. -/
abbrev Rest := Option Nat → List Insn → Terminator → Prop

/-- Lowering goes on from `s` until the current block is closed, by code with the property `P`.
Other blocks stay as they are; new ones pass arguments on, or the current one goes on in them. -/
structure Finishes (start : BlockId → Nat) (size : Nat) (s s' : Lowering) (P : Rest) : Prop where
  grows : s.Grows s'
  named : s'.Named size
  size : s.blocks.size ≤ s'.blocks.size
  old : ∀ i, i < s.blocks.size → i ≠ s.current → s'.blocks[i]? = s.blocks[i]?
  linked : ∀ i b, s.blocks.size ≤ i → s'.blocks[i]? = some b → b.Passing start ∨
    Continues s'.blocks s.blocks.size s.current i
  block : ∃ rest term handler, s'.blocks[s.current]? = some { s.blocks.getD s.current default with
      insns := s.code.toList ++ rest, term, handler } ∧ P handler rest term ∧
    (s.code.any (·.isCall) = true → handler = s.handler)

/-- The rest of a block is done in it, or in a new one that it jumps to. -/
def Splits (reserved : Nat) (s s' : Lowering) (P : Rest) : Rest := fun handler rest term =>
  P handler rest term ∨ (handler = s.handler ∧ rest = []) ∧ ∃ i b, reserved ≤ i ∧ term = .jump i ∧
    s'.blocks[i]? = some b ∧ b.isCatch = false ∧ P b.handler b.insns b.term

namespace Finishes

variable {P P' : Rest}

theorem imp (h : Finishes start size s s' P) (hP : ∀ {handler rest term}, P handler rest term →
    P' handler rest term) : Finishes start size s s' P' := by
  obtain ⟨rest, term, handler, hb, hin, hc⟩ := h.block
  exact { h with block := ⟨rest, term, handler, hb, hP hin, hc⟩ }

theorem of_close (start : BlockId → Nat) {term} (ho : Open size reserved s) (h : close term s = (u, s')) :
    Finishes start size s s' fun handler rest term' => rest = [] ∧ term' = term ∧ handler = s.handler := by
  cases h
  refine ⟨⟨Nat.le_refl _, id, .inl, id⟩, ho.named.keep, by simp, fun i _ hi => ?_, fun i b hi hb => ?_, [], term,
    s.handler, by simp [ho.current_lt], ⟨rfl, rfl, rfl⟩, fun _ => rfl⟩
  · exact Array.getElem?_setIfInBounds_ne (Ne.symm hi)
  · rw [Array.getElem?_eq_none (by simpa using hi)] at hb
    cases hb

theorem emit (hr : Reserves start size s s₁) (ho : Open size reserved s)
    (hf : Finishes start size { s₁ with code := s₁.code ++ code } s' P) :
    Finishes start size s s' fun handler rest term => ∃ rest', rest = code ++ rest' ∧
      P handler rest' term ∧ (code.any (·.isCall) = true → handler = s.handler) := by
  obtain ⟨rest, term, handler, hb, hP, hca⟩ := hf.block
  have hcu := ho.current_lt
  have hfi : s.code.any (·.isCall) = true ∨ code.any (·.isCall) = true → handler = s.handler := by
    intro ha
    refine (hca ?_).trans hr.handler
    rw [← Array.any_toList] at ha ⊢
    simpa [hr.code] using ha
  have hol : s₁.blocks.getD s.current default = s.blocks.getD s.current default := by
    rw [Array.getD_eq_getD_getElem?, hr.old _ hcu, ← Array.getD_eq_getD_getElem?]
  refine ⟨hr.grows.trans hf.grows.keep, hf.named, Nat.le_trans hr.size hf.size, fun i hi hne => ?_,
    fun i b hi hb => ?_, code ++ rest, term, handler, ?_, ⟨rest, rfl, hP, fun h => hfi (.inr h)⟩,
    fun h => hfi (.inl h)⟩
  · rw [hf.old i (Nat.lt_of_lt_of_le hi hr.size) (by simpa [hr.current] using hne), hr.old i hi]
  · by_cases hlt : i < s₁.blocks.size
    · have hne : i ≠ s₁.current := by
        rw [hr.current]
        omega
      exact .inl (hr.new i b hi ((hf.old i hlt hne).symm.trans hb))
    · refine (hf.linked i b (Nat.le_of_not_lt hlt) hb).imp id fun hc => ?_
      rw [← hr.current]
      exact hc.mono hr.size fun _ _ _ hk => hk
  · simpa only [hr.current, hol, Array.toList_appendList, append_assoc, hr.code] using hb

/-- Names and blocks may be added first. -/
theorem after (hr : Reserves start size s s₁) (ho : Open size reserved s) (hf : Finishes start size s₁ s' P) :
    Finishes start size s s' P := by
  have hc : { s₁ with code := s₁.code ++ ([] : List Insn) } = s₁ := by simp
  refine (emit hr ho (hc.symm ▸ hf)).imp ?_
  rintro handler rest term ⟨_, rfl, hP, _⟩
  exact hP

end Finishes

/-- Code under another handler comes in the current block if that has no call, else in a new one. -/
theorem underHandler_spec (start : BlockId → Nat) {h} (ho : Open size reserved s)
    (hu : underHandler h s = (u, s₁)) :
    Open size reserved s₁ ∧ s₁.handler = h ∧ ∀ {s' P}, Finishes start size s₁ s' P →
      Finishes start size s s' (Splits reserved s s' P) := by
  have hcur := ho.current_lt
  obtain ⟨_, _, hg, hu⟩ := bind_run.mp hu
  cases hg
  split at hu
  · next heq =>
    cases hu
    exact ⟨ho, heq, fun hf => hf.imp .inl⟩
  · split at hu
    · obtain ⟨i, s₃, hn, hu⟩ := bind_run.mp hu
      obtain ⟨_, s₄, hcl, hu⟩ := bind_run.mp hu
      cases hn
      cases hcl
      cases hu
      refine ⟨⟨ho.named.keep, by simp, by simpa using Nat.le_succ_of_le ho.reserved_le⟩, rfl, fun {s' P} hf => ?_⟩
      have hne : s.current ≠ s.blocks.size := Nat.ne_of_lt hcur
      have hs : ∀ b, ((s.blocks.push {}).setIfInBounds s.current b).size = s.blocks.size + 1 := by simp
      obtain ⟨rest, term, handler, hb, hP, _⟩ := hf.block
      rw [getD_setIfInBounds, if_neg fun hc => hne hc.1, getD_push, if_pos rfl] at hb
      have hcu := (hf.old s.current (by simp; omega) hne).trans
        (Array.getElem?_setIfInBounds_self_of_lt (by simp; omega))
      refine ⟨hf.grows.keep (s := s), hf.named, ?_, ?_, ?_, [], .jump s.blocks.size, s.handler, ?_,
        .inr ⟨⟨rfl, rfl⟩, _, _, ho.reserved_le, rfl, hb, rfl, hP⟩, fun _ => rfl⟩
      · have := hf.size
        simp only [hs] at this
        omega
      · intro i hi hic
        rw [hf.old i (by simp; omega) (Nat.ne_of_lt hi), Array.getElem?_setIfInBounds_ne (Ne.symm hic),
          Array.getElem?_push_lt hi, Array.getElem?_eq_getElem hi]
      · intro i b hi hbi
        rcases Nat.eq_or_lt_of_le hi with rfl | hlt
        · exact .inr (.next hcu rfl (Nat.le_refl _) (.refl _))
        · refine (hf.linked i b (by simp; omega) hbi).imp id fun hc => ?_
          exact .next hcu rfl (Nat.le_refl _) (hc.mono (by simp) fun _ _ _ hk => hk)
      · rw [hcu, getD_push, if_neg hne, append_nil]
    · next hca =>
      cases hu
      refine ⟨⟨ho.named.keep, hcur, ho.reserved_le⟩, rfl, fun hf => ?_⟩
      obtain ⟨rest, term, handler, hb, hP, _⟩ := hf.block
      exact ⟨hf.grows.keep, hf.named, hf.size, hf.old, hf.linked, rest, term, handler, hb, .inl hP,
        fun h => absurd h hca⟩

/-- Protected code: the moves, then the code itself, then what follows. -/
def Protected (S : Lowering) (src : Source) (edge : Option Edge) (code : List Insn) (P : Rest) : Rest :=
  fun handler rest term => ∃ insns rest', rest = insns ++ code ++ rest' ∧
    Protects S src.graph src.start edge handler insns ∧ P handler rest' term

/-- Code with a call is protected by its edge, in the current block or in a new one. -/
theorem protect_spec {edge} (ho : Open src.graph.nodes.size reserved s)
    (he : ∀ e, edge = some e → EdgeOk src.graph e) (hp : protect src edge s = (u, s₁)) :
    Open src.graph.nodes.size reserved s₁ ∧ ∀ {code : List Insn} {s₂ s' P}, code.any (·.isCall) = true →
      Adds src.graph.nodes.size s₁ s₂ →
      Finishes src.start src.graph.nodes.size { s₂ with code := s₂.code ++ code } s' P → s'.Grows S →
      Finishes src.start src.graph.nodes.size s s' (Splits reserved s s' (Protected S src edge code P)) := by
  obtain ⟨_, s₀, hu, hp⟩ := bind_run.mp hp
  obtain ⟨ho₀, hh₀, hs⟩ := underHandler_spec src.start ho hu
  cases edge with
  | none =>
    cases hp
    refine ⟨ho₀, fun hc ha hf hS => hs ((Finishes.emit (.of_adds ha) ho₀ hf).imp ?_)⟩
    rintro handler rest term ⟨rest', rfl, hP, hh⟩
    exact ⟨[], rest', rfl, ⟨(hh hc).trans hh₀, rfl⟩, hP⟩
  | some e =>
    obtain ⟨insns, s₃, hm, hp⟩ := bind_run.mp hp
    cases hp
    obtain ⟨ha₀, hco⟩ := (makes_edgeMoves (S := S) (he e rfl)).spec ho₀.named hm
    have ho₃ := ho₀.adds ha₀
    refine ⟨ho₃.emit, fun hc ha hf hS => hs ?_⟩
    have hf₁ := Finishes.emit (.of_adds ha) ho₃.emit hf
    refine (Finishes.emit (.of_adds ha₀) ho₀ hf₁).imp ?_
    rintro handler rest term ⟨_, rfl, ⟨rest', rfl, hP, hh⟩, _⟩
    refine ⟨insns, rest', by rw [append_assoc], ⟨?_, hco (hf₁.grows.keep.trans hS)⟩, hP⟩
    exact (hh hc).trans (ha₀.handler.trans hh₀)

theorem edgeTarget_spec {e t} (ho : Open src.graph.nodes.size reserved s) (he : EdgeOk src.graph e)
    (h : edgeTarget src e s = (t, s')) : Reserves src.start src.graph.nodes.size s s' ∧ (s'.Grows S →
      (∀ b, s.blocks.size ≤ t → s'.blocks[t]? = some b → S.blocks[t]? = some b) →
      EdgeTarget S.blocks reserved S src.graph src.start e t) := by
  obtain ⟨insns, s₁, hm, h⟩ := bind_run.mp h
  obtain ⟨ha, hc⟩ := (makes_edgeMoves he).spec ho.named hm
  split at h
  · cases h
    exact ⟨.of_adds ha, fun hS _ => ⟨[], hc hS, .inl ⟨rfl, rfl⟩⟩⟩
  · next hne =>
    cases h
    refine ⟨⟨ha.grows.trans ⟨Nat.le_refl _, id, .inl, id⟩, ha.named.keep, ?_, fun i hi => ?_,
      fun i b hi hb => ?_, ha.current, ha.code, ha.handler⟩,
      fun hS hb => ⟨insns, hc hS.keep, .inr ⟨hne, ?_, ?_⟩⟩⟩
    · simp [ha.blocks]
    · rw [ha.blocks, Array.getElem?_push_lt hi, Array.getElem?_eq_getElem hi]
    · rw [ha.blocks, Array.getElem?_push] at hb
      split at hb
      · cases hb
        exact ⟨(((makes_edgeMoves he).spec ho.named hm).2 (.refl _)).eq_move, e.target, rfl⟩
      · rw [Array.getElem?_eq_none hi] at hb
        cases hb
    · rw [ha.blocks]
      exact ho.reserved_le
    · exact hb _ (by simp [ha.blocks]) (by simp)

/-- In a later state the names and the added blocks are still there. -/
structure Later (reserved : Nat) (s S : Lowering) : Prop where
  grows : s.Grows S
  block : ∀ i b, reserved ≤ i → s.blocks[i]? = some b → S.blocks[i]? = some b

/-- The rest of a block is done under the handler that it has, or it has a call. -/
def Opens (s : Lowering) (handler : Option Nat) (rest : List Insn) : Prop :=
  handler = s.handler ∨ rest.any (·.isCall) = true

theorem Splits.follows {P handler rest term nodes k} (h : Splits reserved s s' P handler rest term)
    (hS : Later reserved s' S) (hP : ∀ {handler rest term}, P handler rest term →
      Follows S.blocks reserved S src.graph src.start handler rest term nodes k ∧ rest.any (·.isCall) = true) :
    Follows S.blocks reserved S src.graph src.start handler rest term nodes k ∧ Opens s handler rest := by
  rcases h with hin | ⟨⟨hs, rfl⟩, i, b, hi, rfl, hb, hc, hin⟩
  · exact (hP hin).imp id .inr
  · exact ⟨.split hi (hS.block i b hi hb) hc (.inr (hP hin).2) (hP hin).1, .inl hs⟩

def ContOk (g : Graph) (k : Continuation) : Prop :=
  (∀ x ∈ k.inputs, x < g.nodes.size) ∧ ∀ e ∈ k.edges, EdgeOk g e

theorem cont_spec {k term} (ho : Open src.graph.nodes.size reserved s) (hk : ContOk src.graph k)
    (hc : cont src k s = (term, s₁)) (hcl : close term s₁ = (u, s')) (hS : Later reserved s' S) :
    Finishes src.start src.graph.nodes.size s s' fun handler rest term =>
      Follows S.blocks reserved S src.graph src.start handler rest term [] k ∧ Opens s handler rest := by
  cases k with
  | jump e =>
    obtain ⟨insns, s₂, hm, hc⟩ := bind_run.mp hc
    obtain ⟨_, s₃, he, hc⟩ := bind_run.mp hc
    cases he
    cases hc
    obtain ⟨had, hco⟩ := (makes_edgeMoves (hk.2 e mem_cons_self)).spec ho.named hm
    have hf := Finishes.of_close src.start (ho.adds had).emit hcl
    refine (Finishes.emit (.of_adds had) ho hf).imp ?_
    rintro handler rest term ⟨_, rfl, ⟨rfl, rfl, rfl⟩, _⟩
    rw [append_nil]
    exact ⟨.jump (hco (hf.grows.keep.trans hS.grows)), .inl had.handler⟩
  | branch cond lhs rhs taken notTaken =>
    obtain ⟨a, s₂, ha, hc⟩ := bind_run.mp hc
    obtain ⟨b, s₃, hb, hc⟩ := bind_run.mp hc
    obtain ⟨t, s₄, ht, hc⟩ := bind_run.mp hc
    obtain ⟨t', s₅, ht', hc⟩ := bind_run.mp hc
    cases hc
    obtain ⟨ha₁, hl⟩ := (makes_var (hk.1 lhs (by simp [Continuation.inputs]))).spec ho.named ha
    obtain ⟨ha₂, hrh⟩ := (makes_var (hk.1 rhs (by simp [Continuation.inputs]))).spec ha₁.named hb
    have ho₃ := ho.adds (ha₁.trans ha₂)
    obtain ⟨hr, hta⟩ := edgeTarget_spec ho₃ (hk.2 taken (by simp [Continuation.edges])) ht
    have ho₄ := ho₃.reserve hr
    obtain ⟨hr', hno⟩ := edgeTarget_spec ho₄ (hk.2 notTaken (by simp [Continuation.edges])) ht'
    have hal := (Reserves.of_adds (ha₁.trans ha₂)).trans (hr.trans hr')
    have hf := Finishes.of_close src.start (ho₄.reserve hr') hcl
    have hg := hf.grows.trans hS.grows
    -- the blocks with the moves of the edges stay as they are when the current one is closed
    have hke : ∀ {i b}, s.blocks.size ≤ i → s₁.blocks[i]? = some b → S.blocks[i]? = some b := by
      intro i b hi hb
      have hcu := ho.current_lt
      refine hS.block i b (Nat.le_trans ho.reserved_le hi) ((hf.old i (Array.getElem?_eq_some_iff.mp hb).1 ?_).trans hb)
      rw [hal.current]
      omega
    refine (Finishes.after hal ho hf).imp ?_
    rintro handler rest term ⟨rfl, rfl, rfl⟩
    have hs : s₃.blocks.size = s.blocks.size := by rw [(ha₁.trans ha₂).blocks]
    refine ⟨.branch (hl (ha₂.grows.trans ((hr.trans hr').grows.trans hg)))
      (hrh ((hr.trans hr').grows.trans hg)) (hta (hr'.grows.trans hg) fun b hle hb => ?_)
      (hno hg fun b hle hb => hke ?_ hb), .inl hal.handler⟩
    · exact hke (hs ▸ hle) ((hr'.old t (Array.getElem?_eq_some_iff.mp hb).1).trans hb)
    · exact Nat.le_trans (hs ▸ hr.size) hle
  | ret value =>
    cases value with
    | none =>
      cases hc
      refine (Finishes.of_close src.start ho hcl).imp ?_
      rintro handler rest term ⟨rfl, rfl, rfl⟩
      exact ⟨.ret, .inl rfl⟩
    | some x =>
      obtain ⟨v, s₂, hv, hc⟩ := bind_run.mp hc
      cases hc
      obtain ⟨had, hn⟩ := (makes_var (hk.1 x (by simp [Continuation.inputs]))).spec ho.named hv
      have hf := Finishes.of_close src.start (ho.adds had) hcl
      refine (Finishes.after (.of_adds had) ho hf).imp ?_
      rintro handler rest term ⟨rfl, rfl, rfl⟩
      exact ⟨.retValue (hn (hf.grows.trans hS.grows)), .inl had.handler⟩
  | raise x edge =>
    obtain ⟨_, s₂, hp, hc⟩ := bind_run.mp hc
    obtain ⟨v, s₃, hv, hc⟩ := bind_run.mp hc
    obtain ⟨_, s₄, he, hc⟩ := bind_run.mp hc
    cases he
    cases hc
    have hed : ∀ e, edge = some e → EdgeOk src.graph e := by
      rintro e rfl
      exact hk.2 e (by simp [Continuation.edges])
    obtain ⟨ho₂, hpro⟩ := protect_spec (S := S) ho hed hp
    obtain ⟨had, hn⟩ := (makes_var (hk.1 x (by simp [Continuation.inputs]))).spec ho₂.named hv
    have hf := Finishes.of_close src.start (ho₂.adds had).emit hcl
    refine (hpro (by simp [Insn.isCall]) had hf hS.grows).imp fun h => h.follows hS ?_
    rintro handler rest term ⟨insns, _, rfl, hpr, rfl, rfl, _⟩
    rw [append_nil]
    exact ⟨.raise hpr (hn (hf.grows.keep.trans hS.grows)), by simp [Insn.isCall]⟩

def NodeOk (g : Graph) (n : NodeId) : Prop :=
  n < g.nodes.size ∧ (∀ x ∈ (g.node n).op.inputs, x < g.nodes.size) ∧
    ∀ e, (g.node n).handler = some e → EdgeOk g e

/-- The nodes of a body and the continuation close the block. -/
theorem body_spec {nodes k term s₂ u'} (ho : Open src.graph.nodes.size reserved s)
    (hnod : ∀ n ∈ nodes, NodeOk src.graph n) (hk : ContOk src.graph k)
    (hbo : nodes.forM (bodyNode src) s = (u, s₁)) (hc : cont src k s₁ = (term, s₂))
    (hcl : close term s₂ = (u', s')) (hS : Later reserved s' S) :
    Finishes src.start src.graph.nodes.size s s' fun handler rest term =>
      Follows S.blocks reserved S src.graph src.start handler rest term nodes k ∧ Opens s handler rest := by
  induction nodes generalizing s with
  | nil =>
    cases hbo
    exact cont_spec ho hk hc hcl hS
  | cons n nodes ih =>
    obtain ⟨_, s₃, hno, hbo⟩ := bind_run.mp hbo
    obtain ⟨⟨hn, hi, he⟩, hnod⟩ := forall_mem_cons.mp hnod
    unfold bodyNode at hno
    dsimp only at hno
    split at hno
    · next throws =>
      obtain ⟨_, s₄, hp, hno⟩ := bind_run.mp hno
      obtain ⟨code, s₅, hco, hno⟩ := bind_run.mp hno
      cases hno
      obtain ⟨ho₄, hpro⟩ := protect_spec (S := S) ho he hp
      obtain ⟨ha, hco⟩ := (makes_node hn hi).spec ho₄.named hco
      have hf := ih (ho₄.adds ha).emit hnod hbo
      have hco := hco (hf.grows.keep.trans hS.grows)
      have hca := hco.isCall throws
      refine (hpro hca ha hf hS.grows).imp fun h => h.follows hS ?_
      rintro handler rest term ⟨insns, rest', rfl, hpr, hr, -⟩
      exact ⟨.call throws hpr hco hr, by simp [hca]⟩
    · next quiet =>
      obtain ⟨code, s₅, hco, hno⟩ := bind_run.mp hno
      cases hno
      obtain ⟨ha, hco⟩ := (makes_node hn hi).spec ho.named hco
      have hf := ih (ho.adds ha).emit hnod hbo
      refine (Finishes.emit (.of_adds ha) ho hf).imp ?_
      rintro handler rest term ⟨rest', rfl, ⟨hr, hop⟩, _⟩
      refine ⟨.node (Bool.eq_false_iff.mpr quiet) (hco (hf.grows.keep.trans hS.grows)) hr,
        hop.imp (·.trans ha.handler) fun hca => ?_⟩
      rw [any_append, hca, Bool.or_true]

/-- While blocks are lowered, those in `done` have their code, the rest are as they were reserved. -/
structure Laid (src : Source) (reserved : Nat) (S s : Lowering) (done todo : List BlockId) : Prop where
  named : s.Named src.graph.nodes.size
  reserved_le : reserved ≤ s.blocks.size
  block : Later reserved s S → ∀ b ∈ done, ∃ blk, s.blocks[src.start b]? = some blk ∧
    blk.isCatch = (src.graph.block b).isHandler ∧ blk.Calls ∧
    Follows S.blocks reserved S src.graph src.start blk.handler blk.insns blk.term
      (src.graph.block b).body (src.graph.block b).cont
  isCatch : ∀ b ∈ todo, (s.blocks.getD (src.start b) default).isCatch = (src.graph.block b).isHandler
  linked : ∀ (i : Nat) (blk : Block), reserved ≤ i → s.blocks[i]? = some blk → blk.Passing src.start ∨
    ∃ b ∈ done, Continues s.blocks reserved (src.start b) i

/-- Lowering a block gives it its code and leaves the other reserved blocks alone. -/
theorem block_laid {done todo b} (h : Laid src reserved S s done (b :: todo))
    (hlt : ∀ c ∈ done ++ b :: todo, src.start c < reserved)
    (hne : ∀ c ∈ done ++ todo, src.start c ≠ src.start b)
    (hn : ∀ n ∈ (src.graph.block b).body, NodeOk src.graph n)
    (hk : ContOk src.graph (src.graph.block b).cont) (hb : block src b s = (u, s')) :
    Laid src reserved S s' (done ++ [b]) todo := by
  obtain ⟨_, s₁, he, hb⟩ := bind_run.mp hb
  cases he
  obtain ⟨_, s₂, hbo, hb⟩ := bind_run.mp hb
  obtain ⟨term, s₃, hco, hcl⟩ := bind_run.mp hb
  have hs : src.start b < reserved := hlt b (by simp)
  have hle := h.reserved_le
  have hbo : ∀ {T}, Later reserved s' T → _ := fun hT => body_spec
    (s := { s with current := src.start b, code := #[], handler := none })
    ⟨h.named.keep, Nat.lt_of_lt_of_le hs hle, hle⟩ hn hk hbo hco hcl hT
  have hf := hbo ⟨.refl s', fun _ _ _ hb => hb⟩
  have hol : ∀ i, i < s.blocks.size → i ≠ src.start b → s'.blocks[i]? = s.blocks[i]? := hf.old
  have ho : ∀ c ∈ done ++ todo, s'.blocks[src.start c]? = s.blocks[src.start c]? := by
    intro c hc
    have hl' := hlt c (perm_middle.mem_iff.mpr (mem_cons_of_mem b hc))
    exact hol _ (Nat.lt_of_lt_of_le hl' hle) (hne c hc)
  have hke : ∀ i blk, reserved ≤ i → s.blocks[i]? = some blk → s'.blocks[i]? = some blk := by
    intro i blk hi hbl
    rw [hol i (Array.getElem?_eq_some_iff.mp hbl).1 (by omega), hbl]
  refine ⟨hf.named, Nat.le_trans hle hf.size, fun hS c hc => ?_, fun c hc => ?_, fun i blk hi hbl => ?_⟩
  · rcases mem_append.mp hc with hc | hc
    · rw [ho c (mem_append_left _ hc)]
      exact h.block ⟨hf.grows.keep.trans hS.grows, fun i b hi hb => hS.block i b hi (hke i b hi hb)⟩ c hc
    · rw [mem_singleton.mp hc]
      obtain ⟨rest, term, handler, hbl, ⟨hfo, hop⟩, _⟩ := (hbo hS).block
      exact ⟨_, hbl, h.isCatch b mem_cons_self, hop, hfo⟩
  · rw [Array.getD_eq_getD_getElem?, ho c (mem_append_right _ hc), ← Array.getD_eq_getD_getElem?]
    exact h.isCatch c (mem_cons_of_mem _ hc)
  · by_cases hl' : i < s.blocks.size
    · rw [hol i hl' (by omega)] at hbl
      refine (h.linked i blk hi hbl).imp id ?_
      rintro ⟨c, hc, hch⟩
      refine ⟨c, mem_append_left _ hc, hch.mono (Nat.le_refl _) ?_⟩
      rintro k blk' (rfl | hk) hb'
      · rw [ho c (mem_append_left _ hc), hb']
      · exact hke k blk' hk hb'
    · refine (hf.linked i blk (Nat.le_of_not_lt hl') hbl).imp id fun hch => ?_
      exact ⟨b, by simp, hch.mono hle fun _ _ _ hk => hk⟩

/-- Lowering blocks one after the other gives all of them their code. -/
theorem blocks_laid {done todo} (h : Laid src reserved S s done todo)
    (hlt : ∀ c ∈ done ++ todo, src.start c < reserved)
    (hi : ∀ c ∈ done ++ todo, ∀ d ∈ done ++ todo, src.start c = src.start d → c = d)
    (hn : (done ++ todo).Nodup)
    (hno : ∀ b ∈ todo, ∀ n ∈ (src.graph.block b).body, NodeOk src.graph n)
    (hk : ∀ b ∈ todo, ContOk src.graph (src.graph.block b).cont)
    (hr : todo.forM (block src) s = (u, s')) : Laid src reserved S s' (done ++ todo) [] := by
  induction todo generalizing s done with
  | nil =>
    cases hr
    rw [append_nil]
    exact h
  | cons b todo ih =>
    obtain ⟨_, s₁, hb, hr⟩ := bind_run.mp hr
    have hpe : done ++ b :: todo = (done ++ [b]) ++ todo := by simp
    have hne : ∀ c ∈ done ++ todo, src.start c ≠ src.start b := by
      intro c hc heq
      have hcb := hi c (perm_middle.mem_iff.mpr (mem_cons_of_mem b hc)) b (by simp) heq
      exact (nodup_cons.mp (perm_middle.nodup_iff.mp hn)).1 (hcb ▸ hc)
    have hl := block_laid h hlt hne (hno b mem_cons_self) (hk b mem_cons_self) hb
    rw [hpe] at hlt hi hn ⊢
    exact ih hl hlt hi hn (fun c hc => hno c (mem_cons_of_mem _ hc))
      (fun c hc => hk c (mem_cons_of_mem _ hc)) hr

end Lower

/-! ## The whole method -/

theorem getD_starts (order : List BlockId) : ∀ (table : Array Nat) (k b : Nat), order.Nodup →
    (∀ x ∈ order, x < table.size) →
    ((order.zipIdx k).foldl (fun table (id, start) => table.setIfInBounds id start) table).getD b 0 =
      if b ∈ order then order.idxOf b + k else table.getD b 0 := by
  induction order with
  | nil => simp
  | cons c order ih =>
    intro table k b hn hlt
    obtain ⟨hc, hn⟩ := nodup_cons.mp hn
    have hs : c < table.size := hlt c mem_cons_self
    rw [zipIdx_cons, foldl_cons, ih _ _ _ hn fun x hx => by
      simpa using hlt x (mem_cons_of_mem _ hx), getD_setIfInBounds]
    by_cases hb : b = c
    · subst hb
      simp [hc, hs]
    · have hcb : c ≠ b := Ne.symm hb
      by_cases hm : b ∈ order
      · simp only [hm, if_true, mem_cons, or_true]
        rw [idxOf_cons, beq_eq_false_iff_ne.mpr hcb]
        exact (Nat.add_assoc _ 1 k).symm ▸ congrArg _ (Nat.add_comm k 1)
      · simp [hm, hb, hcb]

section
variable {g : Graph} {b : BlockId}

theorem start_of (b : BlockId) :
    (Source.of g).start b = if b ∈ g.reachable then g.reachable.idxOf b else 0 := by
  rw [Source.start, Source.of, starts, getD_starts _ _ _ _ g.mem_reachable_nodup fun x hx => by
    rw [Array.size_replicate]
    exact Graph.lt_of_mem_reachable hx]
  have hz : (Array.replicate g.blocks.size 0).getD b 0 = 0 := by
    rw [Array.getD_eq_getD_getElem?, Array.getElem?_replicate]
    split <;> rfl
  rw [hz, Nat.add_zero]

theorem start_eq_idxOf (hb : b ∈ g.reachable) : (Source.of g).start b = g.reachable.idxOf b := by
  rw [start_of, if_pos hb]

section
variable (hp : g.Proper) (hb : b ∈ g.reachable)
include hp hb

theorem edgeOk_of_proper {e} (he : e ∈ g.edges b) :
    Lower.EdgeOk g e :=
  ⟨fun _ hq => hp.param_lt (hp.target_reachable hb he) hq, fun _ ha => hp.args hb he ha⟩

theorem nodeOk_of_proper {n} (hn : n ∈ (g.block b).body) :
    Lower.NodeOk g n := by
  refine ⟨hp.body hb hn, fun x hx => hp.inputs hb hn hx, fun e he => edgeOk_of_proper hp hb ?_⟩
  exact mem_append_left _ (mem_filterMap.mpr ⟨n, hn, he⟩)

theorem contOk_of_proper : Lower.ContOk g (g.block b).cont :=
  ⟨fun _ hx => hp.cont hb hx, fun _ he => edgeOk_of_proper hp hb (mem_append_right _ he)⟩

end

theorem exists_start_eq (h : Graph.entry ∈ g.reachable) (c : BlockId) :
    ∃ b ∈ g.reachable, (Source.of g).start c = (Source.of g).start b := by
  by_cases hc : c ∈ g.reachable
  · exact ⟨c, hc, rfl⟩
  · have hpo : 0 < g.reachable.length := length_pos_of_mem h
    refine ⟨g.reachable[0], getElem_mem hpo, ?_⟩
    rw [start_eq_idxOf (getElem_mem hpo), g.mem_reachable_nodup.idxOf_getElem 0 hpo, start_of, if_neg hc]

theorem initial_laid (S : Lowering) (g : Graph) :
    Lower.Laid (.of g) g.reachable.length S (.initial g) [] g.reachable := by
  refine ⟨Lowering.named_initial g, by simp, by simp, fun b hb => ?_, fun i blk hi hbl => ?_⟩
  · have hg := getElem?_eq_getElem (idxOf_lt_length_of_mem hb)
    rw [getElem_idxOf] at hg
    simp only [start_eq_idxOf hb, Array.getD_eq_getD_getElem?, getElem?_toArray, getElem?_map, hg]
    rfl
  · rw [Array.getElem?_eq_none (by simpa using hi)] at hbl
    cases hbl

theorem start_lt (hb : b ∈ g.reachable) : (Source.of g).start b < g.reachable.length := by
  rw [start_eq_idxOf hb]
  exact idxOf_lt_length_of_mem hb

theorem exists_laid (hp : g.Proper) : ∃ S : Lowering, Lower.Laid (.of g) g.reachable.length S S g.reachable [] ∧
    (lower g).literals = S.literals ∧ (lower g).blocks = S.blocks := by
  have hi : ∀ b ∈ g.reachable, ∀ c ∈ g.reachable, (Source.of g).start b = (Source.of g).start c → b = c := by
    intro b hb c hc heq
    rw [start_eq_idxOf hb, start_eq_idxOf hc] at heq
    exact (idxOf_inj hb).mp heq
  have hl := fun S => Lower.blocks_laid (initial_laid S g) (fun _ => start_lt) hi g.mem_reachable_nodup
    (fun b hb n hn => nodeOk_of_proper hp hb hn) (fun b hb => contOk_of_proper hp hb) rfl
  exact ⟨_, hl _, rfl, rfl⟩

/-- Lowering lays a graph out. -/
theorem layout_lower (hp : g.Proper) : ∃ S start, Layout g (lower g) S start := by
  obtain ⟨S, hla, hli, hblo⟩ := exists_laid hp
  have hbl := hla.block ⟨.refl S, fun _ _ _ hb => hb⟩
  rw [← hblo] at hbl
  have hl : ∀ {i : Nat} {blk : Block}, (lower g).blocks[i]? = some blk → blk.Passing (Source.of g).start ∨
      ∃ b ∈ g.reachable, Continues (lower g).blocks g.reachable.length ((Source.of g).start b) i := by
    intro i blk hblk
    by_cases hi : i < g.reachable.length
    · refine .inr ⟨g.reachable[i], getElem_mem hi, ?_⟩
      rw [start_eq_idxOf (getElem_mem hi), g.mem_reachable_nodup.idxOf_getElem i hi]
      exact .refl i
    · rw [hblo] at hblk ⊢
      exact hla.linked i blk (Nat.le_of_not_lt hi) hblk
  refine ⟨S, _, hla.named, hli, start_eq_idxOf, fun hb => ?_, fun hb hblk => ?_, hl, fun hblk => ?_⟩
  · obtain ⟨blk, hblk, hc, -, hf⟩ := hbl _ hb
    exact ⟨blk, hblk, hc, hf⟩
  · obtain ⟨blk, hb', -, hca, -⟩ := hbl _ hb
    cases hb'.symm.trans hblk
    exact hca
  refine (hl hblk).imp ?_ ?_
  · rintro ⟨hm, c, ht⟩
    obtain ⟨b, hb, hs⟩ := exists_start_eq hp.entry_reachable c
    exact ⟨hm, b, hb, ht.trans (congrArg Terminator.jump hs)⟩
  rintro ⟨b, hb, hch⟩
  obtain ⟨blk', hb', -, -, hf⟩ := hbl b hb
  refine ⟨b, hb, hf.continues (fun e he => ?_) hb' hch hblk⟩
  refine start_lt (hp.target_reachable hb (mem_append_right _ ?_))
  rw [he]
  exact mem_cons_self

end

end StackCompiler.Linear
