/-
A graph is built from a method exactly when the method is verified. If a graph
was built, every state of the kind machine lies in the reading of a block
(`Plan.At`). If the method is verified, every open block stands for a state of
the kind machine (`Draft.Typed`), so its instructions can be read.
-/
import StackCompiler.Proofs.BuildKinds
import StackCompiler.Proofs.BuildMeaning

namespace StackCompiler.Graph

open List Plan Signature

/-- The stack with which a block starts: what its parameters hold beside the locals, or the
exception. -/
def Plan.shape (p : Plan) (g : Graph) (b : BlockId) : List Kind :=
  if (g.block b).isHandler then [.reference]
  else (((g.block b).params.map g.kindOf).drop p.context.localKinds.length).reverse

namespace Plan

variable {p : Plan} {g : Graph} {live : List Nat}

theorem ParamsValid.kinds_eq {b} (h : p.ParamsValid g b) (hp : (g.block b).isHandler = false) :
    (g.block b).params.map g.kindOf = p.context.localKinds ++ (p.shape g b).reverse := by
  obtain ⟨rest, hr⟩ := h.kinds
  rw [shape, if_neg (by rw [hp]; decide), reverse_reverse, ← hr, drop_left]

theorem Enters.shape {frame target e} (h : p.Enters g frame target e)
    (hl : frame.locals.map g.kindOf = p.context.localKinds) :
    frame.stack.map g.kindOf = p.shape g e.target := by
  rw [Plan.shape, if_neg (by rw [h.plain]; decide), ← h.kinds, h.args, Frame.values, map_append,
    hl, drop_left, map_reverse, reverse_reverse]

theorem Closes.enters {frame exit cont target} (h : p.Closes g live frame exit cont) (ht : target ∈ exit.targets) :
    target ∈ live ∧ ∃ e, p.Enters g frame target e := by
  cases h with
  | jump hl he =>
    rw [Exit.targets, mem_singleton] at ht
    exact ht ▸ ⟨hl, _, he⟩
  | branch hl he hl' he' =>
    simp only [Exit.targets, mem_cons, not_mem_nil, or_false] at ht
    rcases ht with rfl | rfl
    · exact ⟨hl, _, he⟩
    · exact ⟨hl', _, he'⟩
  | ret value => cases ht
  | raise exception handler => cases ht

theorem Entrance.kinds {base e} (h : p.Entrance g live base e) :
    (List.range' base p.context.localKinds.length).map g.kindOf = p.context.localKinds := by
  refine ext_getElem (by simp) fun i h₁ h₂ => ?_
  have := h.node i p.context.localKinds[i] (getElem?_eq_getElem h₂)
  simp only [getElem_map, getElem_range', Nat.one_mul, kindOf, this]

/-- A state of the kind machine lies in the reading of a block, at its start or further inside. -/
def At (p : Plan) (g : Graph) (live : List Nat) (σ : KindState) : Prop :=
  ∃ start b c, start ∈ live ∧ p.outline.block? start = some b ∧
    (∃ base, c.Valid p (g.block b).params base) ∧
    p.Finishes g live start b σ.pc c ∧ σ.stack = c.kinds ∧
    (σ.pc = start ∧ σ.stack = p.shape g b ∨ start < σ.pc ∧ p.outline.isLeader σ.pc = false)

end Plan

/-- The kinds at the start of the reading of a block, in a later graph. -/
theorem Draft.kinds_cursor {p} {d : Draft} {g} {b pc base params}
    (hv : (d.cursor p b pc).Valid p params base) (he : Extends (d.cursor p b pc).graph g)
    (hpa : (d.graph.block b).params = (g.block b).params)
    (hf : (d.graph.block b).isHandler = (g.block b).isHandler) (hp : p.ParamsValid g b) :
    (d.cursor p b pc).kinds = p.shape g b := by
  rcases hh : (g.block b).isHandler with _ | _
  · rw [Cursor.kinds, ← he.map_kindOf hv.stack_lt,
      Draft.cursor_of_plain p pc (hf.trans hh), hpa, shape, if_neg (by rw [hh]; decide),
      map_reverse, map_drop]
  · have hl : (g.block b).params.length = p.context.localKinds.length := by
      simpa using congrArg List.length (hp.handler hh)
    have hd : (d.graph.block b).params.drop p.context.localKinds.length = [] := by
      rw [hpa, ← hl, drop_length]
    rw [Draft.cursor_of_handler p pc (hf.trans hh), hd, shape, if_pos hh,
      Cursor.kinds_pushNew _ _ _ (by simp)]
    rfl

/-! ## A method with a graph is verified -/

section
variable {m : Method} {entries live : List Nat} {g : Graph} {p : Plan} {s : Signature} {σ τ : KindState}

namespace Translation

variable {pc : Nat} {b : BlockId}

section
variable (T : Translation m entries g p s live)
include T

theorem entry_isLeader (h : pc ∈ entries) : p.outline.isLeader pc = true := by
  obtain ⟨x, hx, rfl⟩ := (T.mem_entries pc).mp h
  rw [T.outline]
  exact Outline.isLeader_iff.mpr (Outline.entry_mem_leaders T.check hx)

theorem at_block (h : pc ∈ live) (hb : p.outline.block? pc = some b) :
    p.At g live ⟨pc, p.shape g b⟩ := by
  obtain ⟨⟨d, base, c, exit, hr⟩, hp⟩ := T.built h hb
  obtain ⟨_, _, hg⟩ := hr.run.valid hr.valid
  have hk := Draft.kinds_cursor hr.valid (hg.graph.trans hr.graph) hr.params hr.isHandler hp
  exact ⟨pc, b, d.cursor p b pc, h, hb, ⟨base, hr.valid⟩, hr.finishes, hk.symm, .inl ⟨rfl, rfl⟩⟩

theorem at_target {c : Cursor} {exit} {cont params base} (hv : c.Valid p params base)
    (hext : Extends c.graph g) (hc : p.Closes g live c.frame exit cont) (hpc : pc ∈ exit.targets) :
    p.At g live ⟨pc, c.kinds⟩ ∧ pc ∉ entries := by
  obtain ⟨hli, e, he⟩ := hc.enters hpc
  have hs : c.kinds = p.shape g e.target := by
    rw [← he.shape (hv.kinds_locals hext)]
    exact (hext.map_kindOf hv.stack_lt).symm
  rw [hs]
  refine ⟨T.at_block hli he.block, fun hm => ?_⟩
  have hf := T.flag he.block
  rw [he.plain, contains_iff_mem.mpr hm] at hf
  cases hf

/-- **One step**: the kind machine comes from inside the reading of a block to another such place. -/
theorem at_step (h : p.At g live σ) :
    ∃ behind, m.kindStep? s σ = some behind ∧ ∀ τ ∈ behind, p.At g live τ ∧ τ.pc ∉ entries := by
  suffices h : ∃ insn stack, m.code[σ.pc]? = some insn ∧
      insn.kinds? (m.localKinds s) s.result σ.stack = some stack ∧
      ∀ pc ∈ insn.next σ.pc, p.At g live ⟨pc, stack⟩ ∧ pc ∉ entries by
    obtain ⟨insn, stack, hi, hk, hnex⟩ := h
    exact ⟨_, Method.kindStep?_eq_some.mpr ⟨insn, stack, hi, hk, rfl⟩,
      forall_mem_map.mpr hnex⟩
  obtain ⟨start, b, c, hli, hb, ⟨base, hv⟩, ⟨c₁, exit, hr, he, hbo, hcl⟩, hst, hp⟩ := h
  have hn : ¬ (σ.pc ≠ start ∧ p.outline.isLeader σ.pc = true) := by
    rcases hp with ⟨hpc, _⟩ | ⟨_, hpc⟩
    · exact fun hc => hc.1 hpc
    · rw [hpc]
      simp
  have hle : start ≤ σ.pc := by
    rcases hp with ⟨hpc, _⟩ | ⟨hpc, _⟩
    · exact Nat.le_of_eq hpc.symm
    · exact Nat.le_of_lt hpc
  have hsi : c.graph.signature = s := by
    obtain ⟨_, _, hg⟩ := hr.valid hv
    rw [← T.signature_eq, (hg.graph.trans he).signature]
  cases hr with
  | leader hne hl => exact absurd ⟨hne, hl⟩ hn
  | @exit _ insn _ _ _ _ hi hs =>
    obtain ⟨hk, hnex, _⟩ := hs.kinds hv
    rw [hsi, T.localKinds, ← hst] at hk
    refine ⟨insn, _, T.method ▸ hi, hk, fun pc hpc => ?_⟩
    rw [hnex] at hpc
    exact T.at_target (hs.valid hv).1 he hcl hpc
  | @next _ insn _ c' _ _ _ hi hs hr =>
    obtain ⟨hk, hnex, _⟩ := hs.kinds hv
    rw [hsi, T.localKinds, ← hst] at hk
    refine ⟨insn, _, T.method ▸ hi, hk, fun pc hpc => ?_⟩
    rw [hnex, Exit.behind, mem_singleton] at hpc
    have hv' := (hs.valid hv).1
    -- The block goes on behind the instruction, or ends before the start of the next one.
    rcases hl : p.outline.isLeader (σ.pc + 1) with _ | _
    · refine hpc ▸ ⟨⟨start, b, c', hli, hb, ⟨base, hv'⟩, ⟨c₁, exit, hr, he, hbo, hcl⟩, rfl,
        .inr ⟨Nat.lt_succ_of_le hle, hl⟩⟩, fun hm => ?_⟩
      rw [T.entry_isLeader hm] at hl
      cases hl
    · have hne : σ.pc + 1 ≠ start := by omega
      cases hr with
      | leader => exact T.at_target hv' he hcl (by rw [hpc]; exact mem_singleton.mpr rfl)
      | exit hin | next hin => exact absurd ⟨hne, hl⟩ hin

/-- **Every state** that the kind machine comes to lies in the reading of a block. -/
theorem at_of_reached (h : m.KindReached s σ) : p.At g live σ := by
  induction h with
  | start =>
    obtain ⟨base, e, he⟩ := T.entered
    have hat := T.at_block he.live he.enters.block
    rw [← he.enters.shape he.kinds] at hat
    exact hat
  | @handler h hm =>
    obtain ⟨hen, hli, b, hb⟩ := T.handler hm
    have hat := T.at_block hli hb
    rw [shape, if_pos ((T.flag hb).trans (contains_iff_mem.mpr hen))] at hat
    exact hat
  | step _ hs hm ih =>
    obtain ⟨behind, hs', hbe⟩ := T.at_step ih
    cases hs.symm.trans hs'
    exact (hbe _ hm).1

theorem at_leader (h : m.KindReached s σ) (hb : p.outline.block? σ.pc = some b) :
    σ.pc ∈ live ∧ σ.stack = p.shape g b := by
  obtain ⟨start, b', c, hl, hb', _, _, _, ⟨hpc, hs⟩ | ⟨_, hpc⟩⟩ := T.at_of_reached h
  · rw [← hpc, hb] at hb'
    rw [hs, Option.some.inj hb', hpc]
    exact ⟨hl, rfl⟩
  · rw [Outline.isLeader, hb] at hpc
    cases hpc

theorem before_inside (h : m.KindReached s σ) (hn : p.outline.block? σ.pc = none) :
    ∃ τ insn, m.KindReached s τ ∧ σ.pc = τ.pc + 1 ∧
      m.code[τ.pc]? = some insn ∧ insn.kinds? (m.localKinds s) s.result τ.stack = some σ.stack := by
  obtain ⟨hne, hta, _⟩ := Outline.check_eq_ok.mp T.check
  have hno : σ.pc ∉ (Outline.of m).leaders := fun hc => by
    rw [T.outline, Outline.block?_of, if_pos hc] at hn
    cases hn
  cases h with
  | start => exact absurd (Outline.mem_leaders.mpr ⟨length_pos_iff.mpr hne, mem_cons_self⟩) hno
  | handler hm => exact absurd (Outline.entry_mem_leaders T.check hm) hno
  | @step τ _ _ hτ hs hm =>
    obtain ⟨insn, stack, hi, hk, rfl⟩ := Method.kindStep?_eq_some.mp hs
    obtain ⟨pc, hpc, rfl⟩ := mem_map.mp hm
    refine ⟨τ, insn, hτ, ?_, hi, hk⟩
    rcases mem_append.mp hpc with hpc | hpc
    · have ht : insn.target? = some pc := Option.mem_toList.mp hpc
      exact absurd (Outline.mem_leaders_of_target hi ht (.inl rfl)
        (hta insn (mem_of_getElem? hi) pc ht)) hno
    · split at hpc
      · cases hpc
      · exact mem_singleton.mp hpc

theorem stack_unique (pc : Nat) : ∀ σ τ,
    m.KindReached s σ → m.KindReached s τ → σ.pc = pc → τ.pc = pc → σ.stack = τ.stack := by
  induction pc using Nat.strongRecOn with
  | ind pc ih =>
    intro σ τ hσ hτ hpc hp'
    rcases hb : p.outline.block? pc with _ | b
    · obtain ⟨σ', insn, hσ', hn, hi, hk⟩ := T.before_inside hσ (hpc.symm ▸ hb)
      obtain ⟨τ', insn', hτ', hn', hi', hk'⟩ := T.before_inside hτ (hp'.symm ▸ hb)
      have hs : τ'.pc = σ'.pc := by omega
      have hst := ih σ'.pc (by omega) σ' τ' hσ' hτ' rfl hs
      rw [hs, hi] at hi'
      cases hi'
      rw [← hst, hk] at hk'
      exact Option.some.inj hk'
    · rw [(T.at_leader hσ (hpc.symm ▸ hb)).2, (T.at_leader hτ (hp'.symm ▸ hb)).2]

/-- **A method that has a graph is verified.** -/
theorem verified : m.Verified s := by
  obtain ⟨hn, ht, hha⟩ := Outline.check_eq_ok.mp T.check
  have hp : parse? m.key.descriptor = some s := by
    have hsi := T.signature
    unfold MethodKey.signature parse at hsi
    split at hsi
    · next hs =>
      cases hsi
      exact hs
    · cases hsi
  refine
    { callable := callable?_eq_some.mpr ⟨hp, T.few⟩
      nonempty := hn, targets := ht, handlers := hha
      not_stuck := fun σ hσ => ?_
      handler_entry := fun σ hσ h hh hpc => ?_
      unique := fun σ τ hσ hτ hpc => T.stack_unique τ.pc σ τ hσ hτ hpc rfl }
  · obtain ⟨behind, hst, _⟩ := T.at_step (T.at_of_reached hσ)
    rw [hst, Option.isSome_some]
  · have hm : σ.pc ∈ entries := (T.mem_entries σ.pc).mpr ⟨h, hh, hpc.symm⟩
    cases hσ with
    | start =>
      obtain ⟨base, e, he⟩ := T.entered
      have hf := T.flag he.enters.block
      rw [he.enters.plain, contains_iff_mem.mpr hm] at hf
      cases hf
    | step hτ hst hb =>
      obtain ⟨behind, hs', hno⟩ := T.at_step (T.at_of_reached hτ)
      cases hst.symm.trans hs'
      exact (hno _ hb).2 hm

end

end Translation
end

/-! ## A verified method has a graph -/

/-- The plan of a method whose handlers start at the given positions. -/
structure Plan.Fits (p : Plan) (m : Method) (s : Signature) (entries : List Nat) : Prop where
  method : p.method = m
  outline : p.outline = Outline.of p.method
  localKinds : p.context.localKinds = m.localKinds s
  mem_entries : ∀ pc, pc ∈ entries ↔ ∃ h ∈ m.handlers, h.entry = pc

/-- Every open block stands for a state that the kind machine comes to. -/
def Draft.Typed (p : Plan) (m : Method) (s : Signature) (d : Draft) : Prop :=
  ∀ pc b, p.outline.block? pc = some b → d.started.getD b false = true →
    m.KindReached s ⟨pc, p.shape d.graph b⟩

section
variable {m : Method} {entries live done : List Nat} {p : Plan} {s : Signature} {d : Draft}

theorem Plan.Fits.exists_block (F : p.Fits m s entries) {pc} (h : pc ∈ (Outline.of m).leaders) :
    ∃ b, p.outline.block? pc = some b := by
  rw [F.outline, F.method]
  exact ⟨_, Outline.block?_eq_some.mpr ⟨h, rfl⟩⟩

/-- A block can be read from a state that the kind machine comes to, and leaves to others. -/
theorem Plan.run_progress (F : p.Fits m s entries) (V : m.Verified s) {params base} (start : Nat) :
    ∀ {insns : List Instruction} {pc : Nat} {c : Cursor},
    insns = m.code.drop pc → c.Valid p params base → c.graph.signature = s →
    m.KindReached s ⟨pc, c.kinds⟩ → (pc ≠ start → m.KindEntered s ⟨pc, c.kinds⟩) →
    ∃ c' exit, p.run start pc insns c = .ok (c', exit) ∧ ∀ target ∈ exit.targets,
      m.KindEntered s ⟨target, c'.kinds⟩ ∧ target ∈ (Outline.of m).leaders
  | [], pc, c, hc, _, _, hr, _ => by
    have hle : m.code.length ≤ pc := drop_eq_nil_iff.mp hc.symm
    exact absurd (V.pc_lt hr) (Nat.not_lt_of_le hle)
  | insn :: rest, pc, c, hc, hv, hs, hr, he => by
    have hi : m.code[pc]? = some insn := by
      rw [← head?_drop, ← hc, head?_cons]
    have hre : rest = m.code.drop (pc + 1) := by
      rw [← tail_drop, ← hc, tail_cons]
    rw [run]
    by_cases hn : pc ≠ start ∧ p.outline.isLeader pc = true
    · rw [if_pos hn]
      refine ⟨c, .jump pc, rfl, fun target ht => ?_⟩
      rw [mem_singleton.mp ht]
      refine ⟨he hn.1, Outline.isLeader_iff.mp ?_⟩
      rw [← F.method, ← F.outline]
      exact hn.2
    · rw [if_neg hn]
      obtain ⟨insn', stack, hi', hk, hne⟩ := V.step hr
      cases hi.symm.trans hi'
      obtain ⟨c', x, hst⟩ := @step_progress p pc c hv.locals insn stack
        (by rw [F.localKinds, hs]; exact hk)
        (fun t ht => by rw [F.method]; exact V.pc_lt (hne t ht).reached)
      have hsp := step_stepSpec hst
      obtain ⟨hk', hb, hend⟩ := hsp.kinds hv
      rw [F.localKinds, hs] at hk'
      cases hk.symm.trans hk'
      rw [hst]
      cases x with
      | some exit =>
        refine ⟨c', exit, rfl, fun target ht => ?_⟩
        have hm : target ∈ insn.next pc := hb ▸ ht
        have hen := hne target hm
        refine ⟨hen, ?_⟩
        -- An instruction with an exit either branches or has nothing behind it.
        rcases hta : insn.target? with _ | t
        · rw [hta] at hend
          have hf : insn.endsFlow = true := hend.symm
          simp [Instruction.next, hta, hf] at hm
        · refine Outline.mem_leaders_of_target hi hta ?_ (V.pc_lt hen.reached)
          rw [Instruction.next, hta] at hm
          rcases mem_append.mp hm with hm | hm
          · exact .inl (mem_singleton.mp hm)
          · split at hm
            · cases hm
            · exact .inr (mem_singleton.mp hm)
      | none =>
        have hen := hne (pc + 1) (by rw [hb]; exact mem_singleton.mpr rfl)
        exact run_progress F V start hre (hsp.valid hv).1
          ((Cursor.Grown.of_stepSpec hsp).graph.signature.trans hs) hen.reached fun _ => hen

namespace Draft

theorem Inv.shape_eq (h : Inv p s entries d live done) {g} (hk : p.Keeps live d.graph g) {pc b}
    (hb : p.outline.block? pc = some b) (hpc : pc ∈ live) :
    p.shape g b = p.shape d.graph b := by
  rw [shape, shape, hk.flag, hk.params pc b hpc hb,
    hk.graph.map_kindOf (h.params pc b hb hpc).lt]

theorem Typed.keep (hT : Typed p m s d) (h : Inv p s entries d live done) {g} (hk : p.Keeps live d.graph g)
    (pending : List Nat) :
    Typed p m s { d with graph := g, pending } := fun pc b hb hs => by
  have hl := (h.started pc b hb).mp hs
  change m.KindReached s ⟨pc, p.shape g b⟩
  rw [h.shape_eq hk hb hl]
  exact hT pc b hb hs

theorem Typed.finish (hT : Typed p m s d) (b : BlockId) (body : List NodeId) (cont : Continuation) :
    Typed p m s (d.finish b body cont) := fun pc b' hb' hs' => by
  have hb : (d.finish b body cont).graph.block b' = if b = b' ∧ b < d.graph.blocks.size then
      { d.graph.block b with body, cont } else d.graph.block b' := block_setBlock _ _ _ _
  have hs : p.shape (d.finish b body cont).graph b' = p.shape d.graph b' := by
    rw [shape, shape, hb]
    split
    · next hc =>
      rw [← hc.1]
      rfl
    · rfl
  rw [hs]
  exact hT pc b' hb' hs'

section
variable (F : p.Fits m s entries) (V : m.Verified s) (h : Inv p s entries d live done)
  (hT : Typed p m s d)
include F V h hT

theorem edgeTo_progress {frame target} (pc : Nat) (hlo : frame.locals.map d.graph.kindOf = p.context.localKinds)
    (ht : m.KindEntered s ⟨target, frame.stack.map d.graph.kindOf⟩) (hle : target ∈ (Outline.of m).leaders) :
    ∃ e d', d.edgeTo p target frame pc = .ok (e, d') ∧ Typed p m s d' := by
  obtain ⟨b, hb⟩ := F.exists_block hle
  have hk : frame.values.map d.graph.kindOf =
      p.context.localKinds ++ (frame.stack.map d.graph.kindOf).reverse := by
    rw [Frame.values, map_append, hlo, map_reverse]
  have he : entries.contains target = false := by
    refine Bool.eq_false_iff.mpr fun hc => ?_
    obtain ⟨x, hx, hpc⟩ := (F.mem_entries target).mp (contains_iff_mem.mp hc)
    exact V.handler_entry _ ht x hx hpc.symm
  have hp : (d.graph.block b).isHandler = false := (h.flag target b hb).trans he
  simp only [edgeTo, hb, hp, Bool.false_eq_true, if_false]
  by_cases hs : d.started.getD b false = true
  · have hl := (h.started target b hb).mp hs
    have hsh : p.shape d.graph b = frame.stack.map d.graph.kindOf :=
      V.unique _ _ (hT target b hb hs) ht.reached rfl
    have hsa : (d.graph.block b).params.map d.graph.kindOf = frame.values.map d.graph.kindOf := by
      rw [(h.params target b hb hl).kinds_eq hp, hk, hsh]
    rw [if_pos hs, if_pos hsa]
    exact ⟨_, d, rfl, hT⟩
  · have hl : target ∉ live := fun hc => hs ((h.started target b hb).mpr hc)
    rw [if_neg hs]
    refine ⟨_, _, rfl, fun pc' b' hb' hs' => ?_⟩
    obtain ⟨hi, hke, hn, _, _⟩ := h.start hb hl (hk ▸ prefix_append _ _)
      (fun hc => by rw [he] at hc; cases hc)
    rcases mem_append.mp ((hi.started pc' b' hb').mp hs') with hp' | hp'
    · rw [h.shape_eq hke hb' hp']
      exact hT pc' b' hb' ((h.started pc' b' hb').mpr hp')
    · rw [mem_singleton.mp hp'] at hb' ⊢
      cases hb.symm.trans hb'
      have hpl' : ((d.start b target (frame.values.map d.graph.kindOf)).graph.block b).isHandler =
          false := (hke.flag b).trans hp
      rw [shape, if_neg (by rw [hpl']; decide), hn, hk, drop_left,
        reverse_reverse]
      exact ht.reached

theorem close_progress {frame} (pc : Nat) {exit} (hl : frame.locals.map d.graph.kindOf = p.context.localKinds)
    (hlt : ∀ n ∈ frame.values, n < d.graph.nodes.size)
    (hexi : ∀ target ∈ exit.targets, m.KindEntered s ⟨target, frame.stack.map d.graph.kindOf⟩ ∧
      target ∈ (Outline.of m).leaders) :
    ∃ cont d', d.close p frame pc exit = .ok (cont, d') ∧ Typed p m s d' := by
  cases exit with
  | jump target =>
    obtain ⟨ht, hle⟩ := hexi target (mem_singleton.mpr rfl)
    obtain ⟨e, d', he, hT'⟩ := edgeTo_progress F V h hT pc hl ht hle
    exact ⟨.jump e, d', bind_eq_ok.mpr ⟨_, he, rfl⟩, hT'⟩
  | branch cond lhs rhs target next =>
    obtain ⟨ht, hle⟩ := hexi target (by simp [Exit.targets])
    obtain ⟨hne, hl'⟩ := hexi next (by simp [Exit.targets])
    obtain ⟨e₁, d₁, he₁, hT₁⟩ := edgeTo_progress F V h hT pc hl ht hle
    obtain ⟨live₁, hi₁, ho, _, _⟩ := h.edgeTo hl hlt he₁
    -- The first edge adds nodes only, so the frame has the same kinds for the second one.
    have hext := ho.keeps.graph
    have hl₁ := (hext.map_kindOf fun n hn => hlt n (mem_append_left _ hn)).trans hl
    have hs₁ : frame.stack.map d₁.graph.kindOf = frame.stack.map d.graph.kindOf :=
      hext.map_kindOf fun n hn => hlt n (mem_append_right _ (mem_reverse.mpr hn))
    obtain ⟨e₂, d₂, he₂, hT₂⟩ := edgeTo_progress F V hi₁ hT₁ pc hl₁
      (hs₁ ▸ hne) hl'
    exact ⟨.branch cond lhs rhs e₁ e₂, d₂,
      bind_eq_ok.mpr ⟨_, he₁, bind_eq_ok.mpr ⟨_, he₂, rfl⟩⟩, hT₂⟩
  | ret value => exact ⟨_, d, rfl, hT⟩
  | raise exception handler => exact ⟨_, d, rfl, hT⟩

theorem fill_progress {pc} (hpc : pc ∈ live) :
    ∃ d', d.fill p pc = .ok d' ∧ Typed p m s d' := by
  obtain ⟨b, hb⟩ := h.exists_block hpc
  obtain ⟨hv, he, hblo⟩ := h.cursor_valid hb hpc
  have hbl := block_congr hblo
  have hk : (d.cursor p b pc).kinds = p.shape d.graph b := by
    rw [Draft.kinds_cursor hv (.refl _) (by rw [hbl]) (by rw [hbl])
      ((h.params pc b hb hpc).mono he (by rw [hbl]) (by rw [hbl])), shape, shape, hbl,
      he.map_kindOf (h.params pc b hb hpc).lt]
  have hr : m.KindReached s ⟨pc, (d.cursor p b pc).kinds⟩ := by
    rw [hk]
    exact hT pc b hb ((h.started pc b hb).mpr hpc)
  obtain ⟨c, exit, hru, hexi⟩ := run_progress F V pc rfl hv
    (he.signature.trans h.signature) hr fun hc => absurd rfl hc
  obtain ⟨hv', _, hgr⟩ := (runs_of_run (by rw [F.method]) hru).valid hv
  have hg : Extends d.graph c.graph := he.trans hgr.graph
  have hs : c.graph.blocks = d.graph.blocks := hgr.blocks.trans hblo
  have hke : p.Keeps live d.graph c.graph := .extend hg (block_congr hs)
  have hva := hv'.values_lt
  obtain ⟨cont, d₁, hcl, hT₁⟩ := close_progress F V (h.extend hg hs d.pending)
    (hT.keep h hke d.pending) pc hv'.locals hva hexi
  obtain ⟨live', hi, ho, _⟩ :=
    (h.extend hg hs d.pending).close hv'.locals hva hcl
  refine ⟨d₁.finish b c.body.toList cont, ?_, hT₁.finish b _ cont⟩
  simp only [fill, hb, Option.getD_some, bind_eq_ok]
  exact ⟨(c, exit), by rw [F.method]; exact hru, (cont, d₁), hcl, rfl⟩

end

theorem drain_progress (F : p.Fits m s entries) (V : m.Verified s) : ∀ (fuel : Nat) {d : Draft}
    {done : List Nat}, Inv p s entries d (done ++ d.pending) done → Typed p m s d →
    ∃ d', drain p fuel d = .ok d'
  | 0, d, _, _, _ => ⟨d, rfl⟩
  | fuel + 1, d, done, h, hT => by
    unfold drain
    split
    · exact ⟨d, rfl⟩
    · next pc pending hp =>
      rw [hp] at h
      have hm : pc ∈ done ++ pc :: pending := mem_append_right _ mem_cons_self
      have hi := h.extend (.refl _) rfl pending
      obtain ⟨d₁, hf, hT₁⟩ := fill_progress F V hi (hT.keep h (.refl _ _ _) pending) hm
      obtain ⟨new, hi₁, hpe, _, _⟩ := hi.fill hm h.not_mem_done hf
      have hl : done ++ pc :: pending ++ new = (done ++ [pc]) ++ d₁.pending := by
        rw [hpe]
        simp
      rw [hl] at hi₁
      obtain ⟨d', hd⟩ := drain_progress F V fuel hi₁ hT₁
      exact ⟨d', bind_eq_ok.mpr ⟨d₁, hf, hd⟩⟩

theorem begin_typed (F : p.Fits m s entries) (h : Inv p s entries d entries []) : Typed p m s d := by
  intro pc b hb hs
  have hm := (h.started pc b hb).mp hs
  obtain ⟨x, hx, rfl⟩ := (F.mem_entries pc).mp hm
  rw [shape, if_pos ((h.flag x.entry b hb).trans (contains_iff_mem.mpr hm))]
  exact .handler hx

theorem enter_progress (F : p.Fits m s entries) (V : m.Verified s)
    (h : Inv p s entries d live []) (hT : Typed p m s d) :
    ∃ d', d.enter p = .ok d' ∧ Typed p m s d' := by
  obtain ⟨hext, hb, hf, _, _, _⟩ := d.entryCursor_spec p
  obtain ⟨hl, hv⟩ := d.entryCursor_kinds p
  have hk : p.Keeps live d.graph (d.entryCursor p).graph := .extend hext (block_congr hb)
  have hz : (0 : Nat) ∈ (Outline.of m).leaders :=
    Outline.mem_leaders.mpr ⟨length_pos_iff.mpr V.nonempty, mem_cons_self⟩
  have hs : m.KindEntered s
      ⟨0, (d.entryCursor p).frame.stack.map (d.entryCursor p).graph.kindOf⟩ := by
    rw [hf]
    exact .start
  obtain ⟨e, d₁, he, hT₁⟩ := edgeTo_progress F V (h.extend hext hb d.pending)
    (hT.keep h hk d.pending) 0 hl hs hz
  refine ⟨d₁.finish entry (d.entryCursor p).body.toList (.jump e), ?_, hT₁.finish entry _ _⟩
  rw [enter_eq]
  exact bind_eq_ok.mpr ⟨(e, d₁), he, rfl⟩

end Draft

/-- **A verified method has a graph**, for any order of its handlers. -/
theorem buildFrom_of_verified (V : m.Verified s) (hn : entries.Nodup)
    (he : ∀ pc, pc ∈ entries ↔ ∃ h ∈ m.handlers, h.entry = pc) :
    ∃ g, buildFrom entries m = .ok g := by
  obtain ⟨hp, hf⟩ := callable?_eq_some.mp V.callable
  have hs : m.key.signature = .ok s := by simp only [MethodKey.signature, parse, hp]
  have hc : Outline.check m.key.text m = .ok () :=
    Outline.check_eq_ok.mpr ⟨V.nonempty, V.targets, V.handlers⟩
  have F : Plan.Fits ⟨m, ⟨m.key.text, m.localKinds s⟩, Outline.of m⟩ m s entries := ⟨rfl, rfl, rfl, he⟩
  have hl : ∀ pc ∈ entries, pc ∈ (Outline.of m).leaders := by
    intro pc hpc
    obtain ⟨x, hx, rfl⟩ := (he pc).mp hpc
    exact Outline.entry_mem_leaders hc hx
  obtain ⟨hi₀, hp₀⟩ := Draft.begin_inv (s := s) F.outline hn hl
  obtain ⟨d₁, hen, hT₁⟩ := Draft.enter_progress F V hi₀ (Draft.begin_typed F hi₀)
  obtain ⟨new, hi₁, hp₁, _⟩ := hi₀.enter hen
  rw [hp₀] at hp₁
  rw [← hp₁] at hi₁
  obtain ⟨d₂, hd⟩ := @Draft.drain_progress m entries _ s F V (Outline.of m).leaders.length d₁ []
    hi₁ hT₁
  refine ⟨d₂.graph, bind_eq_ok.mpr ⟨s, hs, ?_⟩⟩
  dsimp only
  rw [if_neg (Nat.not_lt_of_le hf)]
  simp only [bind_eq_ok]
  exact ⟨(), hc, d₁, hen, d₂, hd, rfl⟩

end

/-- A graph is built from a method, in whatever order its handlers are opened, if and only if the
method is verified: the reader of bytecode accepts exactly what the kind machine runs. -/
theorem build_succeeds_iff_verified (m : Method) (order : HandlerOrder m) :
    (∃ g, build m order = .ok g) ↔ ∃ s, m.Verified s := by
  constructor
  · rintro ⟨g, hg⟩
    obtain ⟨p, s, live, T⟩ := build_eq_ok hg
    exact ⟨s, T.verified⟩
  · rintro ⟨s, V⟩
    exact buildFrom_of_verified V order.nodup order.mem_entries

end StackCompiler.Graph
