/-
Calls that may throw into a handler. The arguments for the handler are moved into
place before the call, on the normal path as well. That disturbs it only where a
call stands in the code of its own handler, and there if a parameter is
overwritten with another value and read once more behind the call.
-/
import StackCompiler.Proofs.BuildWellFormed
import StackCompiler.Proofs.LinearMachine
import StackCompiler.Proofs.LivePaths
import StackCompiler.Proofs.LowerLayout

namespace StackCompiler.Linear

open Lowering StackCompiler.Graph List Store

/-! ## Runs through a part of a block -/

namespace Method

variable {m : Method} {w : World}

variable {past : List Event} {target : CallTarget} {args : List Var} {result : Option Var}

/-- An instruction that is no call goes on behind it and changes its own variable only. -/
theorem stepInsn_frame {new s s' insn} (hc : insn.isCall = false) (h : m.stepInsn w past s insn = (new, .going s')) :
    ∃ env, s' = { s with env } ∧ ∀ v, insn.def? ≠ some v → env v = s.env v := by
  have ha : ∀ {dst : Var} {x : Option Value}, assign s dst x = (new, .going s') →
      ∃ env, s' = { s with env } ∧ ∀ v, some dst ≠ some v → env v = s.env v := by
    intro dst x hx
    cases x with
    | none => cases hx
    | some x =>
      cases hx
      exact ⟨_, rfl, fun v hv => set_ne _ _ fun h => hv (h ▸ rfl)⟩
  cases insn with
  | call => cases hc
  | safepoint =>
    cases h
    exact ⟨_, rfl, fun _ _ => rfl⟩
  | move =>
    cases h
    exact ⟨_, rfl, fun v hv => set_ne _ _ fun h => hv (h ▸ rfl)⟩
  | _ =>
    simp only [stepInsn] at h
    exact ha h

/-- A call that goes on returns, and changes its result only, or leads into the handler. -/
theorem stepInsn_call {new s s' noreturn bci}
    (h : m.stepInsn w past s (.call target args result noreturn bci) = (new, .going s')) :
    (∃ env, s' = { s with env } ∧ ∀ v, result ≠ some v → env v = s.env v) ∨
      s'.rest = (m.block s'.block).insns := by
  simp only [stepInsn] at h
  split at h
  · simp only [Prod.mk.injEq] at h
    obtain ⟨_, h⟩ := h
    split at h
    · split at h
      · cases h
      · cases h
        refine .inl ?_
        cases result with
        | none => exact ⟨_, rfl, fun _ _ => rfl⟩
        | some dst => exact ⟨_, rfl, fun v hv => set_ne _ _ fun h => hv (h ▸ rfl)⟩
    · unfold throwTo at h
      split at h
      · cases h
        exact .inr rfl
      · cases h
  · cases h

/-- A run through some instructions and a call that returns changes only what they assign. -/
theorem run_frame {i post noreturn bci v} (hre : result ≠ some v) :
    ∀ {quiet : List Insn}, (∀ insn ∈ quiet, insn.isCall = false ∧ insn.def? ≠ some v) →
    ∀ {pre : List Insn}, (m.block i).insns = pre ++ (quiet ++ .call target args result noreturn bci :: post) →
    ∀ {past events : List Event} {env env' : Store} {caught : Option Value},
    (m.machine w).run (quiet.length + 1) past
      ⟨i, quiet ++ .call target args result noreturn bci :: post, env, caught⟩ =
      (events, .going ⟨i, post, env', caught⟩) → env' v = env v
  | [], _, pre, hbl, past, events, env, env', caught, h => by
    simp only [length_nil, Machine.run] at h
    split at h
    · next new s' hs =>
      cases h
      have hca : m.stepInsn w past ⟨i, post, env, caught⟩ (.call target args result noreturn bci) =
        _ := hs
      rcases stepInsn_call hca with ⟨_, ⟨⟩, hf⟩ | hres
      · exact hf v hre
      · -- control in the handler would stand at the start of a block
        have hl := congrArg List.length (hres.trans hbl)
        simp at hl
        omega
    · cases h
  | insn :: quiet, hq, pre, hbl, past, events, env, env', caught, h => by
    simp only [length_cons, Machine.run] at h
    split at h
    · next new s' hs =>
      obtain ⟨hca, hd⟩ := hq insn mem_cons_self
      obtain ⟨_, rfl, hf⟩ := stepInsn_frame hca hs
      rw [run_frame hre (fun x hx => hq x (mem_cons_of_mem _ hx))
        (hbl.trans (append_cons pre insn _)) h]
      exact hf v hd
    · cases h

/-- Where every variable has a value and calls return, loads of constants and a call run to their end. -/
theorem run_total {i post bci caught S} (hr : ∀ past call, ∃ v, w.oracle past call = .value v)
    (hl : m.literals = S.literals) :
    ∀ {setup : List Insn}, (∀ insn ∈ setup, ∃ dst v, ConstantCode S dst v insn) →
    ∀ (past : List Event) (env : Store), (∀ x, (env x).isSome) → ∃ events env',
    (m.machine w).run (setup.length + 1) past
      ⟨i, setup ++ .call target args result false bci :: post, env, caught⟩ =
      (events, .going ⟨i, post, env', caught⟩)
  | [], _, past, env, ht => by
    have hre : ∀ xs : List Var, ∃ vs, env.read xs = some vs := by
      intro xs
      refine ⟨xs.map fun x => (env x).get (ht x), read_eq_some.mpr ?_⟩
      simp
    have hc : ∃ callee, State.callee? ⟨i, post, env, caught⟩ target = some callee := by
      cases target with
      | indirect a =>
        obtain ⟨x, hx⟩ := Option.isSome_iff_exists.mp (ht a)
        exact ⟨.indirect x, by simp [State.callee?, hx]⟩
      | _ => exact ⟨_, rfl⟩
    obtain ⟨vs, hvs⟩ := hre args
    obtain ⟨callee, hc⟩ := hc
    obtain ⟨v, hv⟩ := hr past ⟨callee, vs⟩
    have hs : (m.machine w).step past ⟨i, .call target args result false bci :: post, env, caught⟩ =
        ([.called ⟨callee, vs⟩ (.value v)],
          .going ⟨i, post, result.elim env fun dst => env.set dst (some v), caught⟩) := by
      change m.stepInsn w past ⟨i, post, env, caught⟩ (.call target args result false bci) = _
      simp only [stepInsn, State.call?, hc, hvs, World.reply, hv]
      cases result with
      | none => rfl
      | some dst => rfl
    exact ⟨_, _, Machine.run_one_going hs⟩
  | insn :: setup, hse, past, env, ht => by
    obtain ⟨dst, v, hco⟩ := hse insn mem_cons_self
    have hs : (m.machine w).step past
        ⟨i, insn :: setup ++ .call target args result false bci :: post, env, caught⟩ =
        ([], .going ⟨i, setup ++ .call target args result false bci :: post, env.set dst (some v), caught⟩) :=
      step_constant hl hco w past _
    have ht' : ∀ x, ((env.set dst (some v)) x).isSome := by
      intro x
      by_cases hx : x = dst
      · rw [hx, set_self]
        rfl
      · rw [set_ne _ _ hx]
        exact ht x
    obtain ⟨events, env', hru⟩ := run_total hr hl
      (fun x hx => hse x (mem_cons_of_mem _ hx)) (past ++ []) _ ht'
    refine ⟨events, env', ?_⟩
    rw [length_cons, Machine.run_step_going hs]
    exact hru

end Method

/-! ## Where protected calls stand -/

theorem exists_append_of_not_mem {l₁ l₂ pre post} {c : Insn}
    (h : l₁ ++ l₂ = pre ++ c :: post) (hc : c ∉ l₁) : ∃ mid, pre = l₁ ++ mid ∧ l₂ = mid ++ c :: post := by
  rcases append_eq_append_iff.mp h with ⟨mid, rfl, hl₂⟩ | ⟨mid, rfl, hl₂⟩
  · exact ⟨mid, rfl, hl₂⟩
  · cases mid with
    | nil => exact ⟨[], by simp, by simpa using hl₂.symm⟩
    | cons x mid =>
      injection hl₂ with hx _
      exact absurd (mem_append_right _ (hx ▸ mem_cons_self)) hc

section
variable {g : Graph} {S : Lowering} {start : BlockId → Nat} {blocks : Array Block} {reserved : Nat}

/-- A call that may return belongs to a node, behind the moves that protect it. -/
theorem Follows.call_site {handler rest term nodes k}
    (h : Follows blocks reserved S g start handler rest term nodes k)
    (hop : ∀ n ∈ nodes, ∀ c i, (g.node n).op ≠ .blockParam c i) {target args result bci pre post}
    (hr : rest = pre ++ .call target args result false bci :: post) :
    ∃ before n after pre' insns setup, nodes = before ++ n :: after ∧ pre = pre' ++ insns ++ setup ∧
      Protects S g start (g.node n).handler handler insns ∧
      NodeShape S g n setup (.call target args result false bci) ∧
      Follows blocks reserved S g start handler post term after k := by
  induction h generalizing pre with
  | @node _ n nodes _ code rest' _ quiet hc _ ih =>
    obtain ⟨setup, last, rfl, hs⟩ := hc.shape (hop n mem_cons_self)
    have hn : Insn.call target args result false bci ∉ setup ++ [last] := by
      intro hm
      rcases mem_append.mp hm with hm | hm
      · obtain ⟨t, v, hl, _⟩ := hs.load _ hm
        cases hl.load.2.1
      · have := hs.isCall
        rw [← mem_singleton.mp hm, quiet] at this
        cases this
    obtain ⟨mid, rfl, hr'⟩ := exists_append_of_not_mem hr hn
    obtain ⟨before, n', after, pre', insns, setup', rfl, rfl, hsi⟩ :=
      ih (fun x hx => hop x (mem_cons_of_mem _ hx)) hr'
    exact ⟨n :: before, n', after, setup ++ [last] ++ pre', insns, setup', rfl, by simp, hsi⟩
  | @call _ n nodes _ insns code rest' _ throws hp hc hf ih =>
    obtain ⟨setup, last, rfl, hs⟩ := hc.shape (hop n mem_cons_self)
    have hn : Insn.call target args result false bci ∉ insns ++ setup := by
      intro hm
      rcases mem_append.mp hm with hm | hm
      · obtain ⟨dst, src, hmo⟩ := hp.eq_move _ hm
        cases hmo
      · obtain ⟨t, v, hl, _⟩ := hs.load _ hm
        cases hl.load.2.1
    have hsp : insns ++ setup ++ last :: rest' = pre ++ .call target args result false bci :: post := by
      rw [← hr]
      simp
    obtain ⟨mid, rfl, hr'⟩ := exists_append_of_not_mem hsp hn
    cases mid with
    | nil =>
      injection hr' with hla hpo
      subst hla hpo
      exact ⟨[], n, nodes, [], insns, setup, rfl, by simp, hp, hs, hf⟩
    | cons x mid =>
      injection hr' with hla hpo
      subst hla
      obtain ⟨before, n', after, pre', insns', setup', rfl, rfl, hsi⟩ :=
        ih (fun x hx => hop x (mem_cons_of_mem _ hx)) hpo
      exact ⟨n :: before, n', after, insns ++ setup ++ last :: pre', insns', setup', rfl, by simp, hsi⟩
  | jump he =>
    obtain ⟨dst, src, hmo⟩ := he.eq_move (.call target args result false bci) (by simp [hr])
    cases hmo
  | raise hp hx =>
    have hm : Insn.call target args result false bci ∈ pre ++ .call target args result false bci :: post := by
      simp
    rw [← hr] at hm
    rcases mem_append.mp hm with hm | hm
    · obtain ⟨dst, src, hmo⟩ := hp.eq_move _ hm
      cases hmo
    · cases mem_singleton.mp hm
  | split | branch | ret | retValue => simp at hr

end

/-! ## The normal path -/

/-- What the variables hold before and after a run through `code`, up to the instructions `post`. -/
def RunsThrough (M : Method) (i : Nat) (code post : List Insn) (env env' : Store) : Prop :=
  ∃ w past events caught, (M.machine w).run code.length past ⟨i, code ++ post, env, caught⟩ =
    (events, .going ⟨i, post, env', caught⟩)

/-- Whatever the variables hold: when the moves, the loads `setup` and the call have run and the
call has returned, each variable that is live behind the call, except for the call's result, holds
what it held before the moves. -/
def KeepsNormalPath (M : Method) (i : Nat) (insns setup : List Insn) (call : Insn)
    (post : List Insn) : Prop :=
  ∀ env env', RunsThrough M i (insns ++ setup ++ [call]) post env env' →
    ∀ v, LiveAt M v (M.block i).handler post (M.block i).term → call.def? ≠ some v → env' v = env v

section
variable {g : Graph} {M : Method} {S : Lowering} {start : BlockId → Nat} {insns : List Insn}

/-- A protected call as it comes out of lowering: the node `n` of block `b` that it belongs to, the
moves for the edge `e`, the loads and what follows. -/
structure CallSite (g : Graph) (M : Method) (S : Lowering) (start : BlockId → Nat) (b : BlockId)
    (n : NodeId) (e : Edge) (i : Nat) (insns setup : List Insn) (call : Insn) (post : List Insn) :
    Prop where
  reachable : b ∈ g.reachable
  isCall : ∃ target args result bci, call = .call target args result false bci
  block : ∃ pre, (M.block i).insns = pre ++ (insns ++ (setup ++ call :: post))
  moves : EdgeCode S g e insns
  shape : NodeShape S g n setup call
  body : ∃ before after, (g.block b).body = before ++ n :: after ∧ (g.node n).handler = some e ∧
    Follows M.blocks g.reachable.length S g start (M.block i).handler post (M.block i).term after
      (g.block b).cont

namespace CallSite

variable {b : BlockId} {n : NodeId} {e : Edge} {i : Nat} {insns setup post : List Insn} {call : Insn}

section
variable (h : CallSite g M S start b n e i insns setup call post)
include h

theorem defines_of_live (hp : g.Proper) (hpl : g.Placed) (hs : g.Scoped fun _ _ => False) (hl : Layout g M S start)
    {v} (hv : LiveAt M v (M.block i).handler post (M.block i).term) :
    ∃ x, S.var? x = some v ∧ g.Defines b x := by
  obtain ⟨before, after, hb, _, hf⟩ := h.body
  have hb' : (g.block b).body = (before ++ [n]) ++ after := by rw [hb]; simp
  obtain ⟨x, hx, hk⟩ := hf.known_of_live hp hpl hs hl h.reachable hb' hv
  refine ⟨x, hx, ?_⟩
  rcases hk with hsc | hpa | ⟨hm, _⟩
  · exact hsc.elim
  · exact .inl hpa
  · exact .inr (hb' ▸ mem_append_left _ hm)

theorem setup_def {x v} (hx : S.var? x = some v) :
    ∀ insn ∈ setup, insn.isCall = false ∧ insn.def? ≠ some v := by
  intro insn hi
  obtain ⟨t, c, hc, ht⟩ := h.shape.load insn hi
  refine ⟨hc.load.2.1, fun hd => ht.2 x ?_⟩
  rw [Option.some.inj (hc.load.2.2.symm.trans hd)]
  exact hx

theorem edge_mem : e ∈ g.edges b := by
  obtain ⟨before, after, hb, hh, _⟩ := h.body
  exact Graph.mem_edges.mpr ⟨before, .catches hb hh⟩

/-- If parameters of the call's own block that get another value are dead behind the call, the
normal path is kept. -/
theorem keeps (hp : g.Proper) (hpl : g.Placed) (hs : g.Scoped fun _ _ => False)
    (hl : Layout g M S start)
    (hde : e.target = b → ∀ q a, (q, a) ∈ (g.block e.target).params.zip e.args → q ≠ a →
      ∀ v, S.var? q = some v → ¬ LiveAt M v (M.block i).handler post (M.block i).term) :
    KeepsNormalPath M i insns setup call post := by
  rintro env env' ⟨w, past, events, caught, hru⟩ v hli hr
  obtain ⟨x, hx, hd⟩ := h.defines_of_live hp hpl hs hl hli
  obtain ⟨dsts, srcs, fresh, hpas⟩ := h.moves
  have hm : ∀ insn ∈ insns, insn.isCall = false ∧ insn.def? ≠ some v := by
    intro insn hi
    refine ⟨?_, fun hdef => ?_⟩
    · obtain ⟨dst, src, rfl⟩ := h.moves.eq_move insn hi
      rfl
    · rcases hpas.assigned hi hdef with ⟨-, ht⟩ | ⟨q, a, hqa, hne, hq⟩
      · exact ht.2 x hx
      · -- the variable belongs to a parameter of the handler and is computed in this block
        have hpa : g.Defines e.target x := hl.named.inj hq hx ▸ .inl (of_mem_zip hqa).1
        have hse := hpl.defines_unique hp (hp.target_reachable h.reachable h.edge_mem) h.reachable
          hpa hd
        exact hde hse q a hqa hne v hq hli
  obtain ⟨target, args, result, bci, rfl⟩ := h.isCall
  obtain ⟨pre, hb⟩ := h.block
  have hqu : ∀ insn ∈ insns ++ setup, insn.isCall = false ∧ insn.def? ≠ some v := fun insn hi =>
    (mem_append.mp hi).elim (hm insn) (h.setup_def hx insn)
  rw [← append_assoc insns] at hb
  rw [length_append, append_assoc _ _ post] at hru
  exact Method.run_frame hr hqu hb hru

/-- A parameter of the handler that gets another value and is live behind the call is disturbed. -/
theorem dead_of_keeps (hp : g.Proper) (hpl : g.Placed) (hl : Layout g M S start)
    (hke : KeepsNormalPath M i insns setup call post) {q a} (hqa : (q, a) ∈ (g.block e.target).params.zip e.args)
    (hne : q ≠ a) {v} (hv : S.var? q = some v) : ¬ LiveAt M v (M.block i).handler post (M.block i).term := by
  intro hli
  obtain ⟨dsts, srcs, fresh, hpas⟩ := h.moves
  obtain ⟨target, args, result, bci, rfl⟩ := h.isCall
  obtain ⟨pre, hb⟩ := h.block
  have hpa := hp.params_nodup (hp.target_reachable h.reachable h.edge_mem)
  -- the parameter's variable and that of its argument hold different values before the moves
  let cells : Store := fun x => some (if x = v then .int 0 else .int 1)
  obtain ⟨v', u, hv', hu, ha⟩ := hpas.after hl.named hpa hqa cells
  cases hv.symm.trans hv'
  have huv : u ≠ v := fun huv => hne (hl.named.inj hv (huv ▸ hu))
  have hr : result ≠ some v := by
    rintro rfl
    have hnq : n = q := hl.named.inj (h.shape.var_eq rfl) hv
    obtain ⟨before, after, hbo, _⟩ := h.body
    have hn : n ∈ (g.block b).body := by rw [hbo]; simp
    obtain ⟨j, hj⟩ := hp.param_op (hp.target_reachable h.reachable h.edge_mem) (of_mem_zip hqa).1
    exact hpl.op h.reachable hn _ _ (hnq ▸ hj)
  let w : World := ⟨.standard [] fun _ _ => .value .null, fun _ _ => .value .null⟩
  have hm : (M.machine w).run insns.length []
      ⟨i, insns ++ (setup ++ .call target args result false bci :: post), cells, none⟩ =
      ([], .going ⟨i, setup ++ .call target args result false bci :: post, afterMoves cells insns, none⟩) :=
    Method.run_moves M w [] insns cells h.moves.eq_move
  obtain ⟨events, env', hre⟩ : ∃ events env', (M.machine w).run (setup.length + 1) []
      ⟨i, setup ++ .call target args result false bci :: post, afterMoves cells insns, none⟩ =
      (events, .going ⟨i, post, env', none⟩) :=
    Method.run_total (fun _ _ => ⟨_, rfl⟩) hl.literals
      (fun insn hi => (h.shape.load insn hi).imp fun t ⟨c, hc, _⟩ => ⟨c, hc⟩) _ _
      (afterMoves_isSome (fun _ => rfl))
  have hru : RunsThrough M i (insns ++ setup ++ [.call target args result false bci]) post cells env' := by
    refine ⟨w, [], events, none, ?_⟩
    simpa [Nat.add_assoc] using (Machine.run_add hm (setup.length + 1)).trans hre
  have hk : env' v = cells v := hke cells env' hru v hli hr
  have hmo : env' v = cells u := by
    rw [← ha]
    rw [← append_assoc pre] at hb
    exact Method.run_frame hr (h.setup_def hv) hb hre
  rw [hmo] at hk
  simp [cells, huv] at hk

end

end CallSite

/-- Every call in a block with a handler that may return is a protected call. -/
theorem Layout.callSite (hpl : g.Placed) (hl : Layout g M S start) {i h blk} (hi : M.blocks[i]? = some blk)
    (hh : blk.handler = some h) {pre post target args result bci}
    (hin : blk.insns = pre ++ .call target args result false bci :: post) :
    ∃ b n e pre' insns setup, pre = pre' ++ insns ++ setup ∧ h = start e.target ∧
      CallSite g M S start b n e i insns setup (.call target args result false bci) post := by
  have hbl := Method.block_eq hi
  rcases hl.rest hi with ⟨hm, -⟩ | ⟨b, hb, nodes, ⟨before, hbo⟩, hf⟩
  · obtain ⟨dst, src, hc⟩ := hm (.call target args result false bci) (by rw [hin]; simp)
    cases hc
  · have hop : ∀ n ∈ nodes, ∀ c j, (g.node n).op ≠ .blockParam c j := fun n hn =>
      hpl.op hb (hbo ▸ mem_append_right _ hn)
    obtain ⟨before', n, after, pre', insns, setup, rfl, rfl, hp, hs, hr⟩ :=
      hf.call_site hop hin
    rw [hh] at hp
    cases he : (g.node n).handler with
    | none =>
      rw [he] at hp
      cases hp.1
    | some e =>
      rw [he] at hp
      cases hp.1
      refine ⟨b, n, e, pre', insns, setup, rfl, rfl, hb, ⟨_, _, _, _, rfl⟩, ⟨pre', ?_⟩, hp.2,
        hs, before ++ before', after, ?_, he, hbl ▸ hr⟩
      · rw [hbl, hin]
        simp
      · rw [← hbo, append_assoc]

end

/-- The moves that pass the arguments of an edge, with the variables that `name` gives to nodes. -/
def passing (g : Graph) (name : NodeId → Var) (e : Edge) (fresh : Var) : List Insn :=
  moves fresh (assignments ((g.block e.target).params.map name) (e.args.map name))

/-- **When protecting a call keeps its normal path.** Every call that may return, in a block with a
handler, belongs to a node with an edge to that handler, and the moves of the edge stand before it.
They keep the normal path exactly if the call does not stand in the handler's own block, or no
parameter there that gets another value is live behind the call. -/
theorem lower_keeps_normal_path_iff {m : StackCompiler.Method} {order : HandlerOrder m} {g : Graph}
    (hb : build m order = .ok g) :
    ∃ name : NodeId → Var, ∀ {i h : Nat} {blk : Block} {pre post : List Insn} {target : CallTarget}
      {args : List Var} {result : Option Var} {bci : Nat},
      (lower g).blocks[i]? = some blk → blk.handler = some h →
      blk.insns = pre ++ .call target args result false bci :: post →
      ∃ b ∈ g.reachable, ∃ before n after e, (g.block b).body = before ++ n :: after ∧
        (g.node n).handler = some e ∧ h = g.reachable.idxOf e.target ∧
        (∀ v, result = some v → v = name n) ∧
        ∃ pre' fresh setup, pre = pre' ++ passing g name e fresh ++ setup ∧
          (KeepsNormalPath (lower g) i (passing g name e fresh) setup
              (.call target args result false bci) post ↔
            (e.target = b → ∀ q a, (q, a) ∈ (g.block e.target).params.zip e.args → q ≠ a →
              ¬ LiveAt (lower g) (name q) (some h) post blk.term)) := by
  obtain ⟨p, s, live, T⟩ := build_eq_ok hb
  obtain ⟨S, start, hl⟩ := layout_lower T.proper
  refine ⟨S.name, fun {i h blk pre post target args result bci} hi hh hin => ?_⟩
  obtain ⟨b, n, e, pre', insns, setup, rfl, rfl, hs⟩ := hl.callSite T.placed hi hh hin
  have ht := T.proper.target_reachable hs.reachable hs.edge_mem
  obtain ⟨before, after, hbo, hha, _⟩ := hs.body
  obtain ⟨dsts, srcs, fresh, hp⟩ := hs.moves
  have hm : passing g S.name e fresh = insns := by
    rw [passing, map_name hp.params, map_name hp.args, hp.eq]
  refine ⟨b, hs.reachable, before, n, after, e, hbo, hha, hl.start_eq ht, ?_, pre',
    fresh, setup, by rw [hm], ?_⟩
  · rintro v rfl
    exact (name_eq (hs.shape.var_eq rfl)).symm
  rw [hm, ← hh, ← Method.block_eq hi]
  constructor
  · intro hk _ q a hqa hne
    obtain ⟨v, _, hv, _⟩ := hp.after hl.named (T.proper.params_nodup ht) hqa .empty
    rw [name_eq hv]
    exact hs.dead_of_keeps T.proper T.placed hl hk hqa hne hv
  · intro hd
    refine hs.keeps T.proper T.placed T.emptyScope hl fun hse q a hqa hne v hv => ?_
    rw [← name_eq hv]
    exact hd hse q a hqa hne

/-- The call in the handler of `retrying`. -/
def retryingCall : Insn := .call (.direct ⟨"T", "f", "()V"⟩) [] none false 7

/-- The handler of `retrying`: the local is changed, and moved into the parameter before the call. -/
theorem lower_retrying : ∃ g, build retrying = .ok g ∧ (lower g).blocks[2]? = some
    { insns := [.caught 4, .const 5 (.int 1), .move 2 5, retryingCall]
      term := .ret (some 2), handler := some 2, isCatch := true } :=
  exists_ok_of_map (by decide +kernel)

/-- The call in the handler of `retrying` falls to that handler. -/
theorem lower_keeps_normal_path_iff_retrying : ∃ g, build retrying = .ok g ∧
    ∃ name : NodeId → Var, ∃ b ∈ g.reachable, ∃ e ∈ g.edges b, 2 = g.reachable.idxOf e.target ∧
      ∃ pre fresh setup,
        [.caught 4, .const 5 (.int 1), .move 2 5] = pre ++ passing g name e fresh ++ setup ∧
        (KeepsNormalPath (lower g) 2 (passing g name e fresh) setup retryingCall [] ↔
          (e.target = b → ∀ q a, (q, a) ∈ (g.block e.target).params.zip e.args → q ≠ a →
            ¬ LiveAt (lower g) (name q) (some 2) [] (.ret (some 2)))) := by
  obtain ⟨g, hb, hbl⟩ := lower_retrying
  obtain ⟨name, h⟩ := lower_keeps_normal_path_iff hb
  have hi : [.caught 4, .const 5 (.int 1), .move 2 5, retryingCall] =
    [Insn.caught 4, .const 5 (.int 1), .move 2 5] ++ retryingCall :: [] := rfl
  obtain ⟨b, hr, before, n, after, e, hbo, hh, ht, _, pre, fresh, setup, hp, hif⟩ :=
    h hbl rfl hi
  exact ⟨g, hb, name, b, hr, e, Graph.mem_edges.mpr ⟨before, .catches hbo hh⟩, ht, pre,
    fresh, setup, hp, hif⟩

/-- The handler of `retrying` returns the local as it was before it was changed, which the move
before its call has overwritten. -/
theorem retrying_disturbs_normal_path : ∃ g, build retrying = .ok g ∧
    ∃ blk, (lower g).blocks[2]? = some blk ∧ blk.handler = some 2 ∧
      blk.insns = [.caught 4, .const 5 (.int 1)] ++ [.move 2 5] ++ [retryingCall] ∧
      ¬ KeepsNormalPath (lower g) 2 [.move 2 5] [] retryingCall [] := by
  obtain ⟨g, hb, hbl⟩ := lower_retrying
  refine ⟨g, hb, _, hbl, rfl, rfl, fun hk => ?_⟩
  let cells : Store := fun x => some (if x = 2 then .int 0 else .int 1)
  let w : World := ⟨.standard [] fun _ _ => .value .null, fun _ _ => .value .null⟩
  have hl : LiveAt (lower g) 2 ((lower g).block 2).handler [] ((lower g).block 2).term := by
    rw [Method.block_eq hbl]
    exact .termUse mem_cons_self
  have hke := hk cells (cells.set 2 (cells 5)) ⟨w, [], _, none, rfl⟩ 2 hl nofun
  simp [cells, set_self] at hke

end StackCompiler.Linear
