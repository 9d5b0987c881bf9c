/-
A graph means what its bytecode means. While the graph is inside a block
(`Inside`), the cursor with which it was read stands at the instruction that the
stack machine is about to run, and its frame holds nodes with the values of
locals and stack.
-/
import StackCompiler.Proofs.BuildDraft

namespace StackCompiler.Graph

open Cursor List Store State

namespace Plan

/-- The rest of a block, read from `pc` on with the cursor `c`. -/
def Finishes (p : Plan) (g : Graph) (live : List Nat) (start : Nat) (b : BlockId) (pc : Nat)
    (c : Cursor) : Prop :=
  ∃ c₁ exit, p.Runs start pc c c₁ exit ∧ Extends c₁.graph g ∧
    c₁.body.toList = (g.block b).body ∧ p.Closes g live c₁.frame exit (g.block b).cont

/-- The stack machine is at an instruction of the block at `start`, the graph at the nodes made from
it; `f` gives the values of nodes. -/
structure Inside (p : Plan) (g : Graph) (live : List Nat) (start : Nat) (f : NodeId → Value)
    (c : Cursor) (σ : StackState) (τ : State) : Prop where
  valid : ∃ base, c.Valid p (g.block τ.block).params base
  finishes : p.Finishes g live start τ.block σ.pc c
  body : (g.block τ.block).body = c.body.toList ++ τ.rest
  locals : σ.locals = c.frame.locals.map f
  stack : σ.stack = c.frame.stack.map f
  env : ∀ n ∈ c.held, τ.env n = some (f n)

/-- The stack machine does not stand before the next block. -/
def Ready (p : Plan) (g : Graph) (live : List Nat) (σ : StackState) (τ : State) : Prop :=
  ∃ start f c, p.Inside g live start f c σ τ ∧ ¬ (σ.pc ≠ start ∧ p.outline.isLeader σ.pc = true)

/-- The relation between the two machines. -/
def Related (p : Plan) (g : Graph) (live : List Nat) (w : World) (σ : StackState) (τ : State) : Prop :=
  ∃ τ', (g.machine w).Silent τ τ' ∧ p.Ready g live σ τ'

/-- Where the two machines may lead: to related states, or to the same end, which is not an error. -/
def Alike (p : Plan) (g : Graph) (live : List Nat) (w : World) :
    Progress StackState Outcome → Progress State Outcome → Prop
  | .going σ, .going τ => p.Related g live w σ τ
  | .ended o, .ended o' => o = o' ∧ o ≠ .wrong
  | _, _ => False

variable {p : Plan} {g : Graph} {live : List Nat} {w : World} {start pc : Nat} {f : NodeId → Value}
  {c : Cursor} {σ : StackState} {τ : State}

theorem Ready.related (h : p.Ready g live σ τ) : p.Related g live w σ τ := ⟨τ, .refl _ _, h⟩

end Plan

/-! ## Edges -/

theorem setAll_values {params args : List NodeId} (env : Store) (f : NodeId → Value)
    (hn : params.Nodup) (hl : params.length = args.length)
    (ha : ∀ a ∈ args, env a = some (f a)) :
    ∃ f', params.map f' = args.map f ∧
      ∀ q ∈ params, env.setAll params (args.map env) q = some (f' q) := by
  have hm : params.map (env.setAll params (args.map env)) = (args.map f).map some := by
    rw [map_setAll _ _ _ hn (by simpa using hl), map_map]
    exact map_congr_left ha
  refine ⟨fun q => (env.setAll params (args.map env) q).getD (.int 0), ?_, fun q hq => ?_⟩
  · have := congrArg (map fun x => Option.getD x (Value.int 0)) hm
    simpa [map_map, Function.comp_def] using this
  · obtain ⟨v, _, hv⟩ := mem_map.mp (hm ▸ mem_map_of_mem hq)
    simp only [← hv, Option.getD_some]

theorem frame_values {params : List NodeId} {f : NodeId → Value} {locals stack}
    {count} (hc : locals.length = count) (h : params.map f = locals ++ stack.reverse) :
    (params.take count).map f = locals ∧ (params.drop count).reverse.map f = stack := by
  rw [map_take, map_reverse, map_drop, h]
  simp [← hc]

variable {b : BlockId}

theorem Draft.cursor_of_plain {d : Draft} (p : Plan) (pc : Nat)
    (h : (d.graph.block b).isHandler = false) : d.cursor p b pc =
      ⟨d.graph, ⟨(d.graph.block b).params.take p.context.localKinds.length,
        ((d.graph.block b).params.drop p.context.localKinds.length).reverse⟩, #[]⟩ := by
  simp [Draft.cursor, h]

theorem Draft.cursor_of_handler {d : Draft} (p : Plan) (pc : Nat)
    (h : (d.graph.block b).isHandler = true) : d.cursor p b pc =
      pushNew ⟨d.graph, ⟨(d.graph.block b).params.take p.context.localKinds.length,
        ((d.graph.block b).params.drop p.context.localKinds.length).reverse⟩, #[]⟩
        .caught .reference pc := by
  simp [Draft.cursor, h]

theorem Plan.Reading.finishes {p : Plan} {g live pc d base c exit} (h : p.Reading g live pc b d base c exit) :
    p.Finishes g live pc b pc (d.cursor p b pc) :=
  ⟨c, exit, h.run, h.graph, h.body.symm, h.cont⟩

section
variable {m : Method} {entries live : List Nat} {g : Graph} {p : Plan} {s : Signature} {w : World}

namespace Translation

theorem built (T : Translation m entries g p s live) {pc} (h : pc ∈ live) {b} (hb : p.outline.block? pc = some b) :
    p.Built g live pc b ∧ p.ParamsValid g b := by
  obtain ⟨d, rfl, hi⟩ := T.inv
  exact ⟨hi.built pc b h hb, hi.params pc b hb h⟩

theorem outline (T : Translation m entries g p s live) : p.outline = Outline.of m := by
  obtain ⟨d, -, hi⟩ := T.inv
  rw [hi.outline, T.method]

theorem flag (T : Translation m entries g p s live) {pc b} (hb : p.outline.block? pc = some b) :
    (g.block b).isHandler = entries.contains pc := by
  obtain ⟨d, rfl, hi⟩ := T.inv
  exact hi.flag pc b hb

/-- A handler has a block. -/
theorem handler (T : Translation m entries g p s live) {h} (hh : h ∈ m.handlers) :
    h.entry ∈ entries ∧ h.entry ∈ live ∧ ∃ b, p.outline.block? h.entry = some b := by
  have hen := (T.mem_entries h.entry).mpr ⟨h, hh, rfl⟩
  obtain ⟨d, -, hi⟩ := T.inv
  exact ⟨hen, T.entries_live _ hen, hi.exists_block (T.entries_live _ hen)⟩

variable {frame : Frame} {env : Store} {f : NodeId → Value}

section
variable (T : Translation m entries g p s live)
include T

/-- An edge leads to the start of its block, with the values that it passes. -/
theorem arrive {target} (ht : target ∈ live) {e}
    (he : p.Enters g frame target e) (hl : frame.locals.length = p.context.localKinds.length)
    (hen : ∀ n ∈ frame.locals ++ frame.stack, env n = some (f n)) :
    p.Ready g live ⟨target, frame.locals.map f, frame.stack.map f⟩ (g.follow e env none) := by
  obtain ⟨⟨d, base, c₁, exit, hr⟩, hp⟩ := T.built ht he.block
  have hcu := Draft.cursor_of_plain p target (hr.isHandler.trans he.plain)
  have hsi : (g.block e.target).params.length = e.args.length := by
    simpa using (congrArg length he.kinds).symm
  obtain ⟨f', hf, he'⟩ := setAll_values env f hp.numbered.nodup hsi (by
    rw [he.args]
    intro a ha
    rcases mem_append.mp ha with ha | ha
    · exact hen a (mem_append_left _ ha)
    · exact hen a (mem_append_right _ (mem_reverse.mp ha)))
  have hm : (g.block e.target).params.map f' = frame.locals.map f ++ (frame.stack.map f).reverse := by
    rw [hf, he.args, Frame.values, map_append, map_reverse]
  obtain ⟨hlo, hs⟩ := frame_values ((length_map f).trans hl) hm
  refine ⟨target, f', d.cursor p e.target target, ?_, fun hc => hc.1 rfl⟩
  refine
    { valid := ⟨base, hr.valid⟩
      finishes := hr.finishes
      body := ?_, locals := ?_, stack := ?_, env := ?_ } <;> rw [hcu]
  · rfl
  · rw [hr.params]
    exact hlo.symm
  · rw [hr.params]
    exact hs.symm
  · intro n hn
    refine he' n ?_
    rw [← hr.params]
    rcases mem_append.mp hn with hn | hn
    · exact mem_of_mem_take hn
    · exact mem_of_mem_drop (mem_reverse.mp hn)

/-- An exception leads to the start of its handler, with the locals kept. -/
theorem arriveHandler {pc : Nat} {h}
    (hh : p.method.handlerFor? pc = some h) {e} (he : p.handlerEdge pc frame = some e)
    (hk : frame.locals.map g.kindOf = p.context.localKinds)
    (henv : ∀ n ∈ frame.locals, env n = some (f n)) (x : Value) :
    p.Related g live w ⟨h.entry, frame.locals.map f, [x]⟩ (g.follow e env (some x)) := by
  obtain ⟨h', hh', hb, ha⟩ := Plan.handlerEdge_eq_some he
  rw [hh] at hh'
  cases hh'
  obtain ⟨hen, hli, -⟩ := T.handler (T.method ▸ mem_of_find?_eq_some hh)
  obtain ⟨⟨d, base, c₁, exit, hr⟩, hp⟩ := T.built hli hb
  have hfl : (g.block e.target).isHandler = true := (T.flag hb).trans (contains_iff_mem.mpr hen)
  have hcu := Draft.cursor_of_handler p h.entry (hr.isHandler.trans hfl)
  have hs : (g.block e.target).params.length = p.context.localKinds.length := by
    simpa using congrArg length (hp.handler hfl)
  have hco : frame.locals.length = p.context.localKinds.length := by
    simpa using congrArg length hk
  have hl : (g.block e.target).params.length = e.args.length := by rw [hs, ha, hco]
  obtain ⟨f', hf, he'⟩ := setAll_values env f hp.numbered.nodup hl (by rw [ha]; exact henv)
  obtain ⟨hlo, hst⟩ := @frame_values _ _ _ [] _ ((length_map f).trans hco)
    (by rw [hf, ha, reverse_nil, append_nil])
  -- The body starts with the exception, which is read from the state.
  obtain ⟨_, _, hg⟩ := hr.run.valid hr.valid
  have hbo : [d.graph.nodes.size] <+: (g.block e.target).body := by
    rw [hr.body]
    refine List.IsPrefix.trans ?_ hg.body
    rw [hcu]
    exact prefix_rfl
  obtain ⟨rest, hre⟩ := hbo
  have hext := hg.graph.trans hr.graph
  rw [hcu] at hext
  have hno := @node_append g ⟨d.graph, _, #[]⟩ ⟨.caught, .reference, h.entry, none⟩ hext
  have hd : (d.graph.block e.target).params.drop p.context.localKinds.length = [] := by
    rw [hr.params, ← hs, drop_length]
  rw [hd] at hcu
  have hne : ∀ q ∈ (g.block e.target).params, q ≠ d.graph.nodes.size := by
    intro q hq
    have hba := (hr.valid.body_mem d.graph.nodes.size (by
      rw [hcu]
      exact mem_singleton.mpr rfl)).1
    exact Nat.ne_of_lt (Nat.lt_of_lt_of_le (hr.valid.params_lt q hq) hba)
  refine ⟨give ⟨e.target, rest, env.setAll (g.block e.target).params (e.args.map env), some x⟩
    d.graph.nodes.size x, .step fun past => ?_, h.entry,
    fun n => if n = d.graph.nodes.size then x else f' n, d.cursor p e.target h.entry, ?_,
    fun hc => hc.1 rfl⟩
  · have hfo : g.follow e env (some x) = ⟨e.target, d.graph.nodes.size :: rest,
        env.setAll (g.block e.target).params (e.args.map env), some x⟩ := by
      rw [Graph.follow, ← hre]
      rfl
    rw [hfo]
    exact stepNode_caught (by rw [hno]) rfl
  · refine
      { valid := ⟨base, hr.valid⟩
        finishes := hr.finishes
        body := ?_, locals := ?_, stack := ?_, env := ?_ } <;> rw [hcu]
    · exact hre.symm
    · refine Eq.trans hlo.symm ?_
      change _ = ((d.graph.block e.target).params.take _).map _
      rw [hr.params]
      refine map_congr_left fun q hq => ?_
      rw [if_neg (hne q (mem_of_mem_take hq))]
    · change [x] = [if _ then _ else _]
      rw [if_pos rfl]
    · intro n hn
      rcases mem_append.mp hn with hn | hn
      · have hq : n ∈ (g.block e.target).params := hr.params ▸ mem_of_mem_take hn
        change set _ _ _ _ = _
        rw [set_ne _ _ (hne n hq), if_neg (hne n hq)]
        exact he' n hq
      · rw [mem_singleton.mp hn, if_pos rfl]
        exact set_self _ _ _

theorem throw {pc} (hk : frame.locals.map g.kindOf = p.context.localKinds)
    (hen : ∀ n ∈ frame.locals, env n = some (f n)) (x : Value) :
    p.Alike g live w (p.method.throwAt pc (frame.locals.map f) x)
      (g.throwTo (p.handlerEdge pc frame) env x) := by
  unfold Method.throwAt
  rcases hh : p.method.handlerFor? pc with _ | h
  · have hn : p.handlerEdge pc frame = none := by simp only [Plan.handlerEdge, hh]
    rw [hn]
    exact ⟨rfl, by simp⟩
  · obtain ⟨-, -, b, hb⟩ := T.handler (T.method ▸ mem_of_find?_eq_some hh)
    have he : p.handlerEdge pc frame = some ⟨b, frame.locals⟩ := by
      simp only [Plan.handlerEdge, hh, hb, Option.map_some]
    rw [he]
    exact T.arriveHandler hh he hk hen x

end

end Translation

/-! ## One instruction -/

namespace Plan

variable {start : Nat} {f : NodeId → Value} {c : Cursor} {σ : StackState} {τ : State}

/-- What is behind a point in a block, by the instruction at that point. -/
theorem Inside.cases (h : p.Inside g live start f c σ τ)
    (hn : ¬ (σ.pc ≠ start ∧ p.outline.isLeader σ.pc = true)) :
    ∃ insn c' x, p.method.code[σ.pc]? = some insn ∧ p.StepSpec c σ.pc insn c' x ∧
      (∃ base, c'.Valid p (g.block τ.block).params base) ∧
      Extends c'.graph g ∧ c'.body.toList <+: (g.block τ.block).body ∧
      (match x with
        | none => p.Finishes g live start τ.block (σ.pc + 1) c'
        | some exit => c'.body.toList = (g.block τ.block).body ∧
            p.Closes g live c'.frame exit (g.block τ.block).cont) := by
  obtain ⟨base, hv⟩ := h.valid
  obtain ⟨c₁, exit, hr, he, hb, hc⟩ := h.finishes
  cases hr with
  | leader hne hl => exact absurd ⟨hne, hl⟩ hn
  | exit _ hi hs => exact ⟨_, c₁, some exit, hi, hs, ⟨base, (hs.valid hv).1⟩, he, hb ▸ prefix_rfl, hb, hc⟩
  | next _ hi hs hr =>
    have hv' := (hs.valid hv).1
    obtain ⟨_, _, hg⟩ := hr.valid hv'
    exact ⟨_, _, none, hi, hs, ⟨base, hv'⟩, hg.graph.trans he, hb ▸ hg.body, c₁, exit, hr, he, hb, hc⟩

theorem Inside.related (T : Translation m entries g p s live) (h : p.Inside g live start f c σ τ) :
    p.Related g live w σ τ := by
  by_cases hn : σ.pc ≠ start ∧ p.outline.isLeader σ.pc = true
  · obtain ⟨base, hv⟩ := h.valid
    obtain ⟨c₁, exit, hru, hext, hb, hc⟩ := h.finishes
    cases hru with
    | leader =>
      have hre : τ.rest = [] := by simpa [hb] using h.body
      generalize hcon : (g.block τ.block).cont = cont at hc
      cases hc with
      | jump ht he =>
        have hr := T.arrive ht he hv.length_locals h.env
        rw [← h.locals, ← h.stack] at hr
        refine ⟨_, .step fun past => ?_, hr⟩
        simp only [machine, hre, hcon, stepCont]
    | exit hin | next hin => exact absurd hn hin
  · exact Ready.related ⟨start, f, c, h, hn⟩

/-- One step of the stack machine is none of the graph, or some steps with the same events. -/
def Follows (p : Plan) (g : Graph) (live : List Nat) (w : World) (past : List Event)
    (σ : StackState) (τ : State) : List Event × Progress StackState Outcome → Prop
  | (new, q) => (∃ σ', new = [] ∧ q = .going σ' ∧ σ'.pc = σ.pc + 1 ∧ p.Related g live w σ' τ) ∨
      ∃ q', (g.machine w).Does past τ new q' ∧ p.Alike g live w q q'

section
variable (h : p.Inside g live start f c σ τ)
include h

/-- The next node of the body, where the cursor has appended one. -/
theorem Inside.next {id} (hp : c.body.toList ++ [id] <+: (g.block τ.block).body) :
    ∃ rest, τ.rest = id :: rest := by
  rw [h.body, prefix_append_right_inj] at hp
  obtain ⟨rest, hr⟩ := hp
  exact ⟨rest, hr.symm⟩

theorem Inside.new_not_held {n} (hn : n ∈ c.held) :
    n ≠ c.graph.nodes.size := by
  obtain ⟨base, hv⟩ := h.valid
  exact Nat.ne_of_lt (hv.held_lt hn)

theorem Inside.read {ns} (hn : ∀ n ∈ ns, n ∈ c.frame.stack) : τ.env.read ns = some (ns.map f) := by
  rw [read_eq_some, map_map]
  exact map_congr_left fun n hm => h.env n (Valid.mem_held_of_stack (hn n hm))

end

variable {node : Node} {stack : List NodeId}

/-- The graph has evaluated the node that was appended last, and the cursor goes on behind it. -/
theorem Inside.push (h : p.Inside g live start f c σ τ) {rest v} (hr : τ.rest = c.graph.nodes.size :: rest)
    (hs : stack <:+ c.frame.stack)
    (hv : ∃ base, (((c.withStack stack).append node).2.push c.graph.nodes.size).Valid p
      (g.block τ.block).params base)
    (hf : p.Finishes g live start τ.block (σ.pc + 1) (((c.withStack stack).append node).2.push c.graph.nodes.size)) :
    p.Inside g live start (fun n => if n = c.graph.nodes.size then v else f n)
      (((c.withStack stack).append node).2.push c.graph.nodes.size)
      ⟨σ.pc + 1, c.frame.locals.map f, v :: stack.map f⟩
      (give { τ with rest } c.graph.nodes.size v) := by
  have ho : ∀ n ∈ c.held, (if n = c.graph.nodes.size then v else f n) = f n :=
    fun n hn => if_neg (h.new_not_held hn)
  refine ⟨hv, hf, ?_, ?_, ?_, ?_⟩
  · rw [show (g.block (give { τ with rest } c.graph.nodes.size v).block).body =
      (g.block τ.block).body from rfl, h.body, hr]
    simp [Cursor.append, Cursor.push, withStack, give]
  · exact (map_congr_left fun n hn => ho n (Valid.mem_held_of_locals hn)).symm
  · change _ = (if _ then _ else _) :: stack.map _
    rw [if_pos rfl]
    refine congrArg _ (map_congr_left fun n hn => ?_)
    exact (ho n (Valid.mem_held_of_stack (hs.subset hn))).symm
  · intro n hn
    by_cases hid : n = c.graph.nodes.size
    · rw [hid, if_pos rfl]
      exact set_self _ _ _
    · rw [if_neg hid]
      change set _ _ _ _ = _
      rw [set_ne _ _ hid]
      refine h.env n ?_
      rcases mem_append.mp hn with hn | hn
      · exact Valid.mem_held_of_locals hn
      · rcases mem_cons.mp hn with hn | hn
        · exact absurd hn hid
        · exact Valid.mem_held_of_stack (hs.subset hn)

/-- The graph has evaluated a node without a value. -/
theorem Inside.skip (h : p.Inside g live start f c σ τ) {rest} (hr : τ.rest = c.graph.nodes.size :: rest)
    (hs : stack <:+ c.frame.stack)
    (hv : ∃ base, ((c.withStack stack).append node).2.Valid p (g.block τ.block).params base)
    (hf : p.Finishes g live start τ.block (σ.pc + 1) ((c.withStack stack).append node).2) :
    p.Inside g live start f ((c.withStack stack).append node).2
      ⟨σ.pc + 1, c.frame.locals.map f, stack.map f⟩ { τ with rest } := by
  refine ⟨hv, hf, ?_, rfl, rfl, ?_⟩
  · change (g.block τ.block).body = _
    rw [h.body, hr]
    simp [append, withStack]
  · intro n hn
    exact h.env n (Valid.mem_held_of_withStack hs hn)

theorem Inside.step_next {past} (rest : List NodeId) {id} (hr : τ.rest = id :: rest) :
    (g.machine w).step past τ = g.stepNode w past { τ with rest } id := by
  simp only [machine, hr]

variable {past : List Event} {c' : Cursor}

section
variable (T : Translation m entries g p s live) (h : p.Inside g live start f c σ τ)
include T h

theorem Inside.follows_stack {op} (hs : c.StackStep p.context.localKinds σ.pc op c')
    (hv : ∃ base, c'.Valid p (g.block τ.block).params base) (he : Extends c'.graph g)
    (hp : c'.body.toList <+: (g.block τ.block).body) (hf : p.Finishes g live start τ.block (σ.pc + 1) c') :
    p.Follows g live w past σ τ (p.method.stepInsn w past σ (.stack op)) := by
  cases hs with
  | frame locals stack hh _ ha =>
    obtain ⟨_, hva⟩ := h.valid
    rw [Method.stepInsn, h.locals, h.stack, ha hva.length_locals w f]
    have hne : p.Inside g live start f { c with frame := ⟨locals, stack⟩ }
        ⟨σ.pc + 1, locals.map f, stack.map f⟩ τ :=
      ⟨hv, hf, h.body, rfl, rfl, fun n hn => h.env n (hh n hn)⟩
    exact .inl ⟨_, rfl, rfl, rfl, hne.related T⟩
  | node operator kind stack hh hin _ _ ha =>
    obtain ⟨v, hop, hval⟩ := ha w f
    rw [Method.stepInsn, h.locals, h.stack, hop]
    have hp' : c.body.toList ++ [c.graph.nodes.size] <+: (g.block τ.block).body := by
      simpa [pushNew, Cursor.append, Cursor.push, withStack] using hp
    obtain ⟨rest, hr⟩ := h.next hp'
    have hno : g.node c.graph.nodes.size = ⟨operator, kind, σ.pc, none⟩ :=
      @node_append g (c.withStack stack) ⟨operator, kind, σ.pc, none⟩ he
    have hst : (g.machine w).step past τ =
        ([], .going (give { τ with rest } c.graph.nodes.size v)) := by
      rw [Inside.step_next rest hr]
      refine stepNode_value ?_
      rw [hno, ← hval]
      exact Operator.value?_congr w kind fun n hn =>
        h.env n (Valid.mem_held_of_stack (hin n hn))
    exact .inr ⟨_, .one hst, (h.push hr hh hv hf).related T⟩

theorem Inside.follows_ask
    {insn operator service} (hs : operator.service? = some service) (hh : stack <:+ c.frame.stack)
    (hin : ∀ n ∈ operator.inputs, n ∈ c.frame.stack)
    (hr : ∀ f : NodeId → Value, insn.request? (c.frame.stack.map f) =
      some (⟨service, operator.inputs.map f⟩, stack.map f))
    (hv : ∃ base, (p.call (c.withStack stack) operator service.result σ.pc).Valid p
      (g.block τ.block).params base)
    (he : Extends (p.call (c.withStack stack) operator service.result σ.pc).graph g)
    (hp : (p.call (c.withStack stack) operator service.result σ.pc).body.toList <+: (g.block τ.block).body)
    (hf : p.Finishes g live start τ.block (σ.pc + 1) (p.call (c.withStack stack) operator service.result σ.pc)) :
    p.Follows g live w past σ τ (p.method.stepInsn w past σ insn) := by
  let node : Node := ⟨operator, service.result, σ.pc, p.handlerEdge σ.pc (c.withStack stack).frame⟩
  have hc : p.call (c.withStack stack) operator service.result σ.pc =
      if service.result = .void then ((c.withStack stack).append node).2
      else ((c.withStack stack).append node).2.push c.graph.nodes.size := rfl
  have hg : Extends ((c.withStack stack).append node).2.graph g := by
    rw [hc] at he
    split at he <;> exact he
  have hp' : c.body.toList ++ [c.graph.nodes.size] <+: (g.block τ.block).body := by
    rw [hc] at hp
    split at hp <;> simpa [Cursor.append, Cursor.push, withStack] using hp
  obtain ⟨rest, hre⟩ := h.next hp'
  have hno : g.node c.graph.nodes.size = node := node_append hg
  have hreq : insn.request? σ.stack = some (⟨service, operator.inputs.map f⟩, stack.map f) := by
    rw [h.stack]
    exact hr f
  have hst := @stepNode_service g w past { τ with rest } c.graph.nodes.size service
    (operator.inputs.map f) (by rw [hno]; exact hs) (by rw [hno]; exact h.read hin)
  rw [← Inside.step_next rest hre, hno] at hst
  have hk : node.kind = service.result := rfl
  rw [Method.stepInsn_request hreq]
  refine .inr ⟨_, .one hst, ?_⟩
  rcases w.oracle past ⟨service, operator.inputs.map f⟩ with v | x
  · by_cases hvo : service.result = .void
    · rw [hc, if_pos hvo] at hv hf
      simp only [hk, hvo, if_true, h.locals]
      exact (h.skip hre hh hv hf).related T
    · rw [hc, if_neg hvo] at hv hf
      simp only [hk, hvo, if_false, h.locals]
      exact (h.push hre hh hv hf).related T
  · obtain ⟨base, hva⟩ := h.valid
    rw [h.locals]
    have hki : (c.withStack stack).frame.locals.map g.kindOf = _ := hva.kinds_locals ((Extends.addNode _ _).trans hg)
    exact T.throw hki (fun n hn => h.env n (Valid.mem_held_of_locals hn)) x

end

/-! ## Exits -/

theorem does_poll {pc target q} (hb : (poll c pc target).body.toList = c.body.toList ++ τ.rest)
    (he : Extends (poll c pc target).graph g)
    (hc : ∀ past, (g.machine w).step past { τ with rest := [] } = ([], q)) :
    (g.machine w).Does past τ (Method.pollAt pc target) q := by
  unfold poll at hb he
  unfold Method.pollAt
  split at hb
  · next hle =>
    rw [if_pos hle] at he ⊢
    have hr : τ.rest = [c.graph.nodes.size] := by simpa [append] using hb.symm
    have hs := @stepNode_safepoint g w past { τ with rest := [] } c.graph.nodes.size
      (by rw [node_append he])
    rw [← Inside.step_next [] hr, node_append he] at hs
    exact .cons hs (.one (hc _))
  · next hle =>
    rw [if_neg hle]
    have hr : τ.rest = [] := by simpa using hb
    have hτ : τ = { τ with rest := [] } := by rw [← hr]
    rw [hτ]
    exact .one (hc past)

theorem frame_poll (c : Cursor) (pc target : Nat) : (poll c pc target).frame = c.frame :=
  poll_cases (P := fun c' => c'.frame = c.frame) (fun _ => rfl) fun _ => rfl

/-- A conditional branch takes the same way in both machines. -/
theorem does_branch (T : Translation m entries g p s live) {pc target next cond lhs rhs a b}
    (hbo : (poll c pc target).body.toList = c.body.toList ++ τ.rest) (hext : Extends (poll c pc target).graph g)
    (hc : p.Closes g live (poll c pc target).frame (.branch cond lhs rhs target next) (g.block τ.block).cont)
    (hl : c.frame.locals.length = p.context.localKinds.length) (hen : ∀ n ∈ c.held, τ.env n = some (f n))
    (ha : τ.env lhs = some a) (hb : τ.env rhs = some b) :
    ∃ τ', (∀ past, (g.machine w).Does past τ (Method.pollAt pc target) (.going τ')) ∧
      p.Ready g live ⟨if w.compare cond a b then target else next, c.frame.locals.map f,
        c.frame.stack.map f⟩ τ' := by
  rw [frame_poll] at hc
  generalize hco : (g.block τ.block).cont = cont at hc
  cases hc with
  | @branch _ _ _ _ _ taken notTaken ht he ht' he' =>
    refine ⟨g.follow (if w.compare cond a b then taken else notTaken) τ.env none,
      fun past => does_poll hbo hext fun past => ?_, ?_⟩
    · simp only [machine, hco, stepCont, ha, hb]
    · cases w.compare cond a b with
      | true => exact T.arrive ht he hl hen
      | false => exact T.arrive ht' he' hl hen

/-- **Every instruction is followed.** -/
theorem Ready.step (T : Translation m entries g p s live) (h : p.Ready g live σ τ) :
    p.Follows g live w past σ τ ((p.method.machine w).step past σ) := by
  obtain ⟨start, f, c, h, hn⟩ := h
  obtain ⟨insn, c', x, hi, hsp, hv', hext, hp, hx⟩ := h.cases hn
  obtain ⟨base, hv⟩ := h.valid
  have hl := hv.length_locals
  have hsta : ∀ n ∈ c.frame.stack, τ.env n = some (f n) := fun n hn =>
    h.env n (Valid.mem_held_of_stack hn)
  rw [show (p.method.machine w).step past σ = p.method.stepInsn w past σ insn by
    simp only [Method.machine, hi]]
  cases hsp with
  | stack hs => exact h.follows_stack T hs hv' hext hp hx
  | ask operator service stack hse hh hin hreq =>
    exact h.follows_ask T hse hh hin hreq hv' hext hp hx
  | poll =>
    obtain ⟨rest, hr⟩ := h.next (by simpa [addPoll, append] using hp)
    have hno := node_append hext
    have hst := @stepNode_safepoint g w past { τ with rest } c.graph.nodes.size (by rw [hno])
    rw [← Inside.step_next rest hr, hno] at hst
    have hne : p.Inside g live start f (c.addPoll σ.pc) ⟨σ.pc + 1, _, _⟩ { τ with rest } :=
      h.skip hr suffix_rfl hv' hx
    rw [← h.locals, ← h.stack] at hne
    exact .inr ⟨_, .one hst, hne.related T⟩
  | jump target =>
    obtain ⟨hb, hc⟩ := hx
    rw [frame_poll] at hc
    generalize hco : (g.block τ.block).cont = cont at hc
    cases hc with
    | @jump _ e ht he =>
      refine .inr ⟨.going (g.follow e τ.env none),
        does_poll (hb.trans h.body) hext fun past => ?_, Ready.related ?_⟩
      · simp only [machine, hco, stepCont]
      · rw [h.locals, h.stack]
        exact T.arrive ht he hl h.env
  | branchConst cond v lhs stack target hs _ hte =>
    obtain ⟨hb, hc⟩ := hx
    have hg := Grown.poll ((c.withStack stack).addConstant v σ.pc) σ.pc target
    have hp' : c.body.toList ++ [c.graph.nodes.size] <+: (g.block τ.block).body := by
      simpa [addConstant, append, withStack] using hg.body.trans hp
    obtain ⟨rest, hr⟩ := h.next hp'
    have hno : g.node c.graph.nodes.size = ⟨.constant v, v.kind, σ.pc, none⟩ :=
      node_append (hg.graph.trans hext)
    have hst : (g.machine w).step past τ =
        ([], .going (give { τ with rest } c.graph.nodes.size v)) := by
      rw [Inside.step_next rest hr]
      exact stepNode_value (by rw [hno]; rfl)
    have hke : ∀ n ∈ c.held,
        (give { τ with rest } c.graph.nodes.size v).env n = some (f n) := fun n hn =>
      (set_ne _ _ (h.new_not_held hn)).trans (h.env n hn)
    have hh : ∀ n ∈ (c.withStack stack).held, n ∈ c.held := fun n hn =>
      Valid.mem_held_of_withStack ⟨[lhs], hs.symm⟩ hn
    have hlh : lhs ∈ c.held :=
      Valid.mem_held_of_stack (by rw [hs]; exact mem_cons_self)
    obtain ⟨τ', hd, hre⟩ := does_branch
      (τ := give { τ with rest } c.graph.nodes.size v) (w := w) T
      (hb.trans (by
        rw [h.body, hr]
        simp [addConstant, append, withStack, give]))
      hext hc hl (fun n hn => hke n (hh n hn)) (hke lhs hlh) (set_self _ _ _)
    rw [Method.stepInsn_test (by rw [h.stack]; exact hte w f), h.locals]
    exact .inr ⟨_, .cons hst (hd _), hre.related⟩
  | branchCompare cond lhs rhs stack target hs _ =>
    obtain ⟨hb, hc⟩ := hx
    have hte : (Instruction.ifCompare cond target).test? w σ.stack =
        some (w.compare cond (f lhs) (f rhs), target, stack.map f) := by
      rw [h.stack, hs]
      rfl
    obtain ⟨τ', hd, hre⟩ := does_branch (c := c.withStack stack) T (hb.trans h.body) hext
      hc hl (fun n hn => h.env n (Valid.mem_held_of_withStack ⟨[rhs, lhs], hs.symm⟩ hn))
      (hsta lhs (by rw [hs]; simp)) (hsta rhs (by rw [hs]; simp))
    rw [Method.stepInsn_test hte, h.locals]
    exact .inr ⟨_, hd past, hre.related⟩
  | raise x stack hs hk =>
    obtain ⟨hb, hc⟩ := hx
    have hr : τ.rest = [] := by
      have := hb.trans h.body
      simpa [withStack] using this
    generalize hco : (g.block τ.block).cont = cont at hc
    cases hc with
    | raise =>
      have hx : τ.env x = some (f x) := hsta x (by rw [hs]; exact mem_cons_self)
      have hst : (g.machine w).step past τ =
          ([.raised (f x)], g.throwTo (p.handlerEdge σ.pc c.frame) τ.env (f x)) := by
        simp only [machine, hr, hco, stepCont, hx]
      rw [Method.stepInsn, h.stack, hs, h.locals]
      exact .inr ⟨_, .one hst, T.throw (hv.kinds_locals hext) (fun n hn => h.env n (Valid.mem_held_of_locals hn)) _⟩
  | ret =>
    obtain ⟨hb, hc⟩ := hx
    have hr : τ.rest = [] := by simpa using hb.trans h.body
    generalize hco : (g.block τ.block).cont = cont at hc
    cases hc with
    | ret =>
      refine .inr ⟨.ended (.returned none), .one ?_, rfl, by simp⟩
      simp only [machine, hr, hco, stepCont]
  | retValue x stack hs =>
    obtain ⟨hb, hc⟩ := hx
    have hr : τ.rest = [] := by simpa [withStack] using hb.trans h.body
    generalize hco : (g.block τ.block).cont = cont at hc
    cases hc with
    | ret =>
      have hx : τ.env x = some (f x) := hsta x (by rw [hs]; exact mem_cons_self)
      rw [Method.stepInsn, h.stack, hs]
      refine .inr ⟨.ended (.returned (some (f x))), .one ?_, rfl, by simp⟩
      simp only [machine, hr, hco, stepCont, hx]

end Plan

/-! ## Whole runs -/

namespace Translation

/-- The nodes of the entry block give the locals their first values. -/
theorem run_entry {base count : Nat} (vals : Nat → Value)
    (hn : ∀ i, i < count → ∀ env, (g.node (base + i)).op.value? w (g.node (base + i)).kind env =
      some (vals i)) :
    ∀ (k i : Nat) (env : Store), i + k = count → (∀ j, j < i → env (base + j) = some (vals j)) →
    ∃ env', (g.machine w).Silent ⟨entry, range' (base + i) k, env, none⟩ ⟨entry, [], env', none⟩ ∧
      ∀ j, j < count → env' (base + j) = some (vals j)
  | 0, i, env, hi, he => ⟨env, .refl _ _, fun j hj => he j (by omega)⟩
  | k + 1, i, env, hi, he => by
    obtain ⟨env', hs, he'⟩ := run_entry vals hn k (i + 1) (env.set (base + i) (some (vals i)))
      (by omega) fun j hj => by
        by_cases hji : j = i
        · rw [hji, set_self]
        · rw [set_ne _ _ (by omega)]
          exact he j (by omega)
    refine ⟨env', .trans (.step fun past => ?_) hs, he'⟩
    rw [range'_succ, Plan.Inside.step_next _ rfl]
    exact stepNode_value (hn i (by omega) env)

section
variable (T : Translation m entries g p s live)
include T

theorem value_localNode (ha : w.args.length = s.params.length) {i k} (hk : p.context.localKinds[i]? = some k)
    (env : Store) :
    (Draft.localNode s (k, i)).op.value? w k env =
      (w.args ++ m.locals.map (·.zero))[i]? := by
  rw [T.localKinds, Method.localKinds] at hk
  unfold Draft.localNode
  dsimp only
  split
  · next hlt =>
    rw [getElem?_append_left (ha ▸ hlt)]
    rfl
  · next hge =>
    rw [getElem?_append_right (Nat.le_of_not_lt hge)] at hk
    rw [getElem?_append_right (ha ▸ Nat.le_of_not_lt hge), getElem?_map, ha, hk]
    rfl

theorem signature_eq : g.signature = s := by
  obtain ⟨d, rfl, hi⟩ := T.inv
  exact hi.signature

theorem start_related (ha : w.args.length = s.params.length) :
    p.Related g live w (m.start w) g.start := by
  obtain ⟨base, e, he⟩ := T.entered
  have hsi := T.signature_eq
  generalize hv : w.args ++ m.locals.map (·.zero) = vals
  have hl : vals.length = p.context.localKinds.length := by
    rw [← hv, T.localKinds]
    simp [Method.localKinds, ha]
  let first (i : Nat) : Value := vals.getD i (.int 0)
  have hf : ∀ i, i < p.context.localKinds.length → ∀ env,
      (g.node (base + i)).op.value? w (g.node (base + i)).kind env = some (first i) := by
    intro i hi env
    have hk := getElem?_eq_getElem hi
    have hlt : i < vals.length := hl ▸ hi
    have hno : g.node (base + i) = Draft.localNode s (p.context.localKinds[i], i) :=
      (he.node i _ hk).trans (by rw [hsi]; rfl)
    rw [hno]
    refine (T.value_localNode ha hk env).trans ?_
    rw [hv, getElem?_eq_getElem hlt]
    simp only [first, getD_eq_getElem?_getD, getElem?_eq_getElem hlt, Option.getD_some]
  obtain ⟨env, hs, henv⟩ :=
    run_entry first hf p.context.localKinds.length 0 .empty (Nat.zero_add _) (by simp)
  have he' : ∀ n ∈ range' base p.context.localKinds.length ++ [],
      env n = some (first (n - base)) := by
    intro n hn
    rw [append_nil] at hn
    obtain ⟨hle, hlt⟩ := mem_range'_1.mp hn
    have := henv (n - base) (by omega)
    rwa [Nat.add_sub_cancel' hle] at this
  have hr := T.arrive he.live he.enters (by simp) he'
  have hst : m.start w = ⟨0, (range' base p.context.localKinds.length).map
      (fun n => first (n - base)), []⟩ := by
    rw [Method.start, hv]
    congr 1
    refine ext_getElem (by simp [hl]) fun i h₁ h₂ => ?_
    simp [first, h₁]
  have hen : (g.machine w).Silent g.start ⟨entry, [], env, none⟩ := by
    rw [Graph.start, he.body]
    exact hs
  have hj : (g.machine w).Silent ⟨entry, [], env, none⟩ (g.follow e env none) :=
    .step fun past => by simp only [machine, he.cont, stepCont]
  rw [hst]
  exact ⟨_, hen.trans hj, hr⟩

theorem simulation (w : World) :
    Machine.Simulation id (m.machine w) (g.machine w) (p.Related g live w)
      (fun σ => m.code.length - σ.pc) where
  going := by
    intro σ τ past new σ' h hst
    obtain ⟨τ', hs, hr⟩ := h
    have hf : p.Follows g live w past σ τ' _ := hr.step T
    have hlt : σ.pc < m.code.length := by
      rw [Method.machine] at hst
      rcases hc : m.code[σ.pc]? with _ | insn
      · simp [hc] at hst
      · exact (List.getElem?_eq_some_iff.mp hc).1
    rw [T.method, hst] at hf
    rcases hf with ⟨σ₁, hne, heq, hpc, hre⟩ | ⟨q, hd, hq⟩
    · cases heq
      obtain ⟨τ'', hs', hr'⟩ := hre
      refine .inr ⟨hne, ?_, τ'', hs.trans hs', hr'⟩
      omega
    · cases q with
      | going τ₁ =>
        obtain ⟨n, hn⟩ := hs.does hd
        exact .inl ⟨n, τ₁, by simpa using hn, hq⟩
      | ended o => exact hq.elim
  ended := by
    intro σ τ past new o h hst
    obtain ⟨τ', hs, hr⟩ := h
    have hf : p.Follows g live w past σ τ' _ := hr.step T
    rw [T.method, hst] at hf
    rcases hf with ⟨σ₁, _, heq, _⟩ | ⟨q, hd, hq⟩
    · cases heq
    · cases q with
      | going τ₁ => exact hq.elim
      | ended o' =>
        obtain ⟨n, hn⟩ := hs.does hd
        exact ⟨n + 1, by rw [hq.1]; simpa using hn⟩

theorem not_wrong {σ τ} (h : p.Related g live w σ τ) {t o} (he : (m.machine w).Ends σ t o) : o ≠ .wrong := by
  refine he.of_invariant (I := fun σ => ∃ τ, p.Related g live w σ τ) (P := (· ≠ .wrong)) ?_ ?_ ⟨τ, h⟩
  · rintro past σ new σ' ⟨τ, h⟩ hs
    rcases (T.simulation w).going h hs with ⟨_, τ', _, h'⟩ | ⟨_, _, h'⟩
    · exact ⟨τ', h'⟩
    · exact ⟨τ, h'⟩
  · rintro past σ new o ⟨τ, τ', _, hr⟩ hs
    have hf : p.Follows g live w past σ τ' _ := hr.step T
    rw [T.method, hs] at hf
    rcases hf with ⟨_, _, heq, _⟩ | ⟨q, _, hq⟩
    · cases heq
    · cases q with
      | going => exact hq.elim
      | ended => exact hq.2

end

end Translation
end

/-- **A graph does what its bytecode does**, for any arguments and answers: both make the same
requests and polls, and end alike or run forever. Neither does anything that has no meaning. -/
theorem build_preserves_meaning {m : Method} {order : HandlerOrder m} {g : Graph} {s : Signature}
    (hb : build m order = .ok g)
    (hs : m.key.signature = .ok s) (w : World) (hargs : w.args.length = s.params.length) :
    Machine.Equivalent (m.machine w) (m.start w) (g.machine w) g.start ∧
      ((m.machine w).RunsForever (m.start w) ↔ (g.machine w).RunsForever g.start) ∧
      ∀ t, ¬ (m.machine w).Ends (m.start w) t .wrong ∧ ¬ (g.machine w).Ends g.start t .wrong := by
  obtain ⟨p, s', live, T⟩ := build_eq_ok hb
  obtain rfl : s = s' := Except.ok.inj (hs.symm.trans T.signature)
  have hst := T.start_related hargs
  have heq := ((T.simulation w).sameBehaviour hst).equivalent
  have hw : ∀ t, ¬ (m.machine w).Ends (m.start w) t .wrong := fun t he =>
    T.not_wrong hst he rfl
  exact ⟨heq, heq.runsForever, fun t => ⟨hw t, fun he => hw t ((heq.ends t _).mpr he)⟩⟩

/-- A method whose handler covers its own code: when the call throws, the handler calls again. -/
def retrying : Method where
  key := ⟨"T", "m", "(I)I"⟩
  locals := []
  code := [.invokeStatic ⟨"T", "f", "()V"⟩, .stack (.constInt 0), .retValue, .stack .pop,
    .stack (.load 0), .stack (.constInt 1), .stack (.store 0), .invokeStatic ⟨"T", "f", "()V"⟩, .retValue]
  handlers := [⟨0, 9, 3⟩]

/-- The first call throws and the second one returns. -/
theorem build_preserves_meaning_retrying :
    let w := World.standard [.int 7] fun past _ => if past = [] then .throws .null else .value (.int 0)
    ∃ g, build retrying = .ok g ∧
      Machine.Equivalent (retrying.machine w) (retrying.start w) (g.machine w) g.start := by
  intro w
  obtain ⟨g, hg⟩ : ∃ g, build retrying = .ok g := exists_ok_of_isOk (by decide +kernel)
  exact ⟨g, hg, (build_preserves_meaning hg (s := ⟨[.int], .int⟩) rfl w rfl).1⟩

end StackCompiler.Graph
