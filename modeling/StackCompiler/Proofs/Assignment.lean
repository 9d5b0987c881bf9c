/-
No variable of lowered code is read before it has been assigned. What is read in
an optimized graph is known, and known values become assigned variables. The
allocator also takes the end of a protected block for a way into the handler; no
variable gets in that way (`Layout.not_held`).
-/
import StackCompiler.Proofs.AcceptedCallees
import StackCompiler.Proofs.LowerLayout
import StackCompiler.Proofs.ReferenceMaps

namespace StackCompiler

open StackCompiler.Graph Program

/-! ## Scopes of optimized graphs -/

namespace Graph

theorem LocalUses.emptyScope {g : Graph} {blocks} (hl : g.LocalUses blocks fun _ => False)
    (hr : ∀ {b}, b ∈ g.reachable → b ∈ blocks) (he : (g.block entry).params = []) :
    g.Scoped fun _ _ => False := by
  have hk : ∀ {b before x}, b ∈ g.reachable → g.Uses b before x → g.Known (fun _ _ => False) b before x :=
    fun hb hu => .inr ((hl.reads (hr hb) hu).resolve_right fun h => h.1)
  exact ⟨fun _ h => h, he, fun hb hbo x hx => hk hb (.input hbo hx), fun hb x hx => hk hb (.cont hx),
    fun hb hle x hx => hk hb (.arg hle (hx.resolve_right id))⟩

theorem Translation.optimize_scopes {m entries g p s live} (T : Translation m entries g p s live) {provider}
    (hp : Accepts provider) (options : OptimizerOptions) :
    ∃ scope, (g.optimize options provider).1.Scoped scope := by
  obtain ⟨hi, hc⟩ := optimize_steps T.proper T.placed options provider
  have ho := hi.inOrder T.inOrder
  have hs : (inlineAsked options provider g).1.Scoped fun _ _ => False := by
    clear hi hc
    revert ho
    rw [inlineAsked]
    split <;> intro ho
    · have hu := T.unfolds provider options.inlineLimit
      have hf := hu.fed_of_accepts T hp
      refine (hu.localUses T.inOrder (T.localUses _) fun x m hm hr hus =>
        hf.given hus ⟨m, hm, hr⟩).emptyScope ho.mem_of_reachable ?_
      rw [hu.params]
      exact T.emptyScope.entry_params
    · exact T.emptyScope
  exact hc.scopes ho.proper ho.placed hs

end Graph

/-! ## Paths through linear code -/

namespace Linear

variable {M : Method} {v : Var}

theorem HeldAt.assigned {In}
    (hIn : ∀ {i assigned blk}, In i assigned → M.blocks[i]? = some blk →
      Covers In True blk.handler blk.term blk.insns assigned) {handler rest term} (h : HeldAt M v handler rest term)
    {assigned} (hc : Covers In True handler term rest assigned) : assigned v := by
  induction h generalizing assigned with
  | use h => exact hc.1 v h
  | step hd _ ih => exact (ih hc.2.2).resolve_right hd
  | throw hca hb _ ih => exact ih (hIn (hc.2.1 hca _ rfl) hb)
  | termUse h => exact hc.1 v h
  | goes hi hb _ ih => exact ih (hIn (hc.2.1 _ hi) hb)
  | leaves hb _ ih => exact ih (hIn (hc.2.2 trivial _ rfl) hb)

/-- Nothing is held at the start of lowered code, for nothing is known there. -/
theorem Layout.not_held {g S start scope} (hl : Layout g M S start) (hp : g.Proper) (hpl : g.Placed)
    (hs : g.Scoped scope) {blk} (hb : M.blocks[start entry]? = some blk) :
    ¬ HeldAt M v blk.handler blk.insns blk.term := by
  intro h
  have hk : HasKnown S g scope entry [] fun _ => False := by
    rintro x v - (hx | hx | ⟨hx, -⟩)
    · exact hs.entry x hx
    · rw [hs.entry_params] at hx
      cases hx
    · cases hx
  exact h.assigned (Enterable.covers hp hpl hs hl)
    ((Enterable.of_start hl hp.entry_reachable hk).covers hp hpl hs hl hb)

/-- A point that code gets to, before the instructions `rest` of a block, with the variables
assigned on the way. A call may go on behind it, or in the handler of its block without its result.
-/
inductive Path (M : Method) : Nat → Block → List Insn → List Var → Prop
  | entry {b : Block} (hb : M.blocks[0]? = some b) : Path M 0 b b.insns []
  | step {id : Nat} {b : Block} {insn : Insn} {rest : List Insn} {assigned : List Var}
      (h : Path M id b (insn :: rest) assigned) : Path M id b rest (insn.def?.toList ++ assigned)
  | throw {id i : Nat} {b blk : Block} {insn : Insn} {rest : List Insn} {assigned : List Var}
      (h : Path M id b (insn :: rest) assigned) (hcall : insn.isCall = true) (hi : b.handler = some i)
      (hblk : M.blocks[i]? = some blk) : Path M i blk blk.insns assigned
  | goes {id i : Nat} {b blk : Block} {assigned : List Var} (h : Path M id b [] assigned)
      (hi : i ∈ b.term.successors) (hblk : M.blocks[i]? = some blk) : Path M i blk blk.insns assigned

section
variable {id : Nat} {b : Block} {rest : List Insn} {assigned : List Var}

theorem Path.block (h : Path M id b rest assigned) : M.blocks[id]? = some b := by
  induction h with
  | entry hb => exact hb
  | step _ ih => exact ih
  | throw _ _ _ hbl _ => exact hbl
  | goes _ _ hbl _ => exact hbl

theorem Path.assigned_of_held (hs : ∀ {b}, M.blocks[0]? = some b → ¬ HeldAt M v b.handler b.insns b.term)
    (h : Path M id b rest assigned) (hv : HeldAt M v b.handler rest b.term) : v ∈ assigned := by
  induction h with
  | entry hb => exact absurd hv (hs hb)
  | @step _ _ insn _ _ _ ih =>
    by_cases hd : insn.def? = some v
    · rw [hd]
      exact List.mem_cons_self
    · exact List.mem_append_right _ (ih (.step hd hv))
  | throw _ hc hi hbl ih =>
    refine ih ?_
    rw [hi]
    exact .throw hc hbl hv
  | goes _ hi hbl ih => exact ih (.goes hi hbl hv)

end

/-- The code of an accepted method reads no variable that was not assigned, with all options and any
provider of accepted methods, nor is one said to be live at a call or a safepoint. Nothing is live
at the start. -/
theorem assigned_before_use {m : StackCompiler.Method} {order : Graph.HandlerOrder m} {g : Graph}
    (hg : build m order = .ok g)
    {provider : MethodProvider} (hprovider : Graph.Accepts provider) (options : OptimizerOptions) :
    let M := lower (g.optimize options provider).1
    (Liveness.compute M).liveIn 0 = .empty ∧
      (∀ id b insn rest assigned, Path M id b (insn :: rest) assigned → ∀ v ∈ insn.uses, v ∈ assigned) ∧
      (∀ id b assigned, Path M id b [] assigned → ∀ v ∈ b.term.uses, v ∈ assigned) ∧
      ∀ id b pre insn rest assigned, Path M id b (insn :: rest) assigned → b.insns = pre ++ insn :: rest →
        insn.isStop = true →
          ∀ v ∈ (Allocation.ofMethod Convention.allocatable M).liveAt id pre.length, v ∈ assigned := by
  intro M
  obtain ⟨p, s, live, T⟩ := build_eq_ok hg
  obtain ⟨scope, hs⟩ := T.optimize_scopes hprovider options
  obtain ⟨hp, hpl⟩ := optimize_ordered T.proper T.placed options provider
  obtain ⟨S, start, hl⟩ := layout_lower hp
  have hz : start entry = 0 := by
    obtain ⟨rest, hr⟩ := reachable_head hp.entry_lt
    rw [hl.start_eq hp.entry_reachable, hr, List.idxOf_cons_self]
  have hst : ∀ {v b}, M.blocks[0]? = some b → ¬ HeldAt M v b.handler b.insns b.term := fun hb =>
    hl.not_held hp hpl hs (hz.symm ▸ hb)
  refine ⟨?_, fun id b insn rest assigned hpa v hv => hpa.assigned_of_held hst (.use hv),
    fun id b assigned hpa v hv => hpa.assigned_of_held hst (.termUse hv),
    fun id b pre insn rest assigned hpa hi hsto v hv => ?_⟩
  · obtain ⟨b, hb, -⟩ := hl.block hp.entry_reachable
    rw [hz] at hb
    refine VarSet.ext fun v => ⟨fun hv => ?_, fun hv => ?_⟩
    · rw [Liveness.liveIn_eq_before hb] at hv
      exact absurd (Liveness.mem_before_iff.mp hv) (hst hb)
    · exact absurd hv (VarSet.not_mem_empty v)
  · exact hpa.assigned_of_held hst ((Emission.mem_liveAt hpa.block hi hsto).mp hv).before

/-- In `polling`, the handler returns what was assigned before the call that threw. -/
theorem assigned_before_use_polling : ∃ g, build polling = .ok g ∧
    Graph.Accepts (find? ⟨[polling]⟩) ∧
    let M := lower (g.optimize {} (find? ⟨[polling]⟩)).1
    (Liveness.compute M).liveIn 0 = .empty ∧ ∀ b assigned, Path M 2 b [] assigned → 0 ∈ assigned := by
  obtain ⟨g, hg, hte⟩ : ∃ g, build polling = .ok g ∧
      (lower (g.optimize {} (find? ⟨[polling]⟩)).1).blocks[2]?.map Block.term = some (.ret (some 0)) :=
    exists_ok_of_map (by decide +kernel)
  have ha : Graph.Accepts (find? ⟨[polling]⟩) := accepts_find? (by decide +kernel)
  obtain ⟨hin, -, ht, -⟩ := assigned_before_use hg ha {}
  refine ⟨g, hg, ha, hin, fun b assigned hp => ht 2 b assigned hp 0 ?_⟩
  rw [hp.block] at hte
  rw [Option.some.inj hte]
  exact List.mem_cons_self

end Linear
end StackCompiler
