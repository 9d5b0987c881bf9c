/-
Small facts about graphs: what a node or a block is after one of the
operations that change a graph, which blocks are reachable, and in which order
they are listed (`reachable_in_reverse_postorder`).
-/
import Mathlib.Data.List.Basic
import StackCompiler.Graph.Order
import StackCompiler.Proofs.Search

namespace StackCompiler

open Search List

variable {α : Type}

section
variable {ε β : Type} {x : Except ε α}

theorem bind_eq_ok {f : α → Except ε β} {b} : (x >>= f) = .ok b ↔ ∃ a, x = .ok a ∧ f a = .ok b := by
  cases x with
  | error e => simp [bind, Except.bind]
  | ok a => simp [bind, Except.bind]

theorem map_eq_ok {f : α → β} {b} : x.map f = .ok b ↔ ∃ a, x = .ok a ∧ f a = b := by
  cases x with
  | error e => simp [Except.map]
  | ok a => simp [Except.map]

theorem exists_ok_of_isOk (h : x.isOk = true) : ∃ a, x = .ok a := by
  cases x with
  | ok a => exact ⟨a, rfl⟩
  | error e => cases h

theorem exists_ok_of_map {f : α → β} {b} (h : x.toOption.map f = some b) : ∃ a, x = .ok a ∧ f a = b := by
  cases x with
  | ok a => exact ⟨a, rfl, Option.some.inj h⟩
  | error e => cases h

theorem exists_ok_of_any {p : α → Prop} [DecidablePred p] (h : x.toOption.any (p ·) = true) :
    ∃ a, x = .ok a ∧ p a := by
  cases x with
  | ok a => exact ⟨a, rfl, of_decide_eq_true h⟩
  | error e => cases h

end

theorem nodup_eraseDups [BEq α] [LawfulBEq α] : ∀ xs : List α, xs.eraseDups.Nodup
  | [] => by simp
  | x :: xs => by
    rw [eraseDups_cons, nodup_cons]
    refine ⟨?_, nodup_eraseDups _⟩
    simp [mem_eraseDups]
termination_by xs => xs.length
decreasing_by exact Nat.lt_succ_of_le (length_filter_le _ _)

theorem getD_setIfInBounds (xs : Array α) (i j : Nat) (x d : α) :
    (xs.setIfInBounds i x).getD j d = if i = j ∧ i < xs.size then x else xs.getD j d := by
  simp only [Array.getD_eq_getD_getElem?]
  grind

theorem getD_push (xs : Array α) (x : α) (i : Nat) (d : α) :
    (xs.push x).getD i d = if i = xs.size then x else xs.getD i d := by
  simp only [Array.getD_eq_getD_getElem?]
  grind

namespace Graph

theorem block_congr {g g' : Graph} (h : g'.blocks = g.blocks) (id : BlockId) : g'.block id = g.block id := by
  rw [block, h, block]

/-! ## Nodes -/

section
variable (g : Graph)
include g

@[simp] theorem addNode_fst (n : Node) : (g.addNode n).1 = g.nodes.size := rfl

@[simp] theorem addNode_size (n : Node) : (g.addNode n).2.nodes.size = g.nodes.size + 1 := by
  simp [addNode]

theorem node_addNode (n : Node) (id : NodeId) :
    (g.addNode n).2.node id = if id = g.nodes.size then n else g.node id :=
  getD_push g.nodes n id default

theorem node_setNode (i id : NodeId) (n : Node) :
    (g.setNode i n).node id = if i = id ∧ i < g.nodes.size then n else g.node id :=
  getD_setIfInBounds g.nodes i id n default

/-! ## Blocks -/

@[simp] theorem block_addNode (n : Node) (id : BlockId) : (g.addNode n).2.block id = g.block id := rfl

theorem block_setBlock (i id : BlockId) (b : Block) :
    (g.setBlock i b).block id = if i = id ∧ i < g.blocks.size then b else g.block id :=
  getD_setIfInBounds g.blocks i id b default

@[simp] theorem setBlock_size (i : BlockId) (b : Block) :
    (g.setBlock i b).blocks.size = g.blocks.size := by
  simp [setBlock]

@[simp] theorem node_setBlock (i : BlockId) (b : Block) (id : NodeId) :
    (g.setBlock i b).node id = g.node id := rfl

@[simp] theorem setBlock_nodes (i : BlockId) (b : Block) : (g.setBlock i b).nodes = g.nodes := rfl

end

variable {g : Graph} {b : BlockId}

theorem node_of_ge {id} (h : g.nodes.size ≤ id) : g.node id = default := by
  rw [node, Array.getD_eq_getD_getElem?, Array.getElem?_eq_none h]
  rfl

/-- The parameters of a block are distinct nodes that name the block and, in 16 bits, their place. -/
structure Numbered (g : Graph) (b : BlockId) : Prop where
  nodup : (g.block b).params.Nodup
  op : ∀ {i q}, (g.block b).params[i]? = some q → (g.node q).op = .blockParam b (.ofNat i)

section
variable {q : NodeId} (h : g.Numbered b) (hq : q ∈ (g.block b).params)
include h hq

theorem Numbered.exists_op : ∃ i, (g.node q).op = .blockParam b i := by
  obtain ⟨i, hi⟩ := getElem?_of_mem hq
  exact ⟨_, h.op hi⟩

theorem Numbered.lt : q < g.nodes.size := by
  obtain ⟨i, hi⟩ := h.exists_op hq
  refine Nat.lt_of_not_le fun hge => ?_
  rw [node_of_ge hge] at hi
  cases hi

end

/-! ## Reachable blocks -/

/-- Control can come to a block. -/
def Reachable (g : Graph) (b : BlockId) : Prop := Reaches g.successors entry b

theorem mem_reachable_nodup (g : Graph) : g.reachable.Nodup := run_order_nodup _ _

theorem lt_of_mem_reachable (h : b ∈ g.reachable) : b < g.blocks.size :=
  (mem_run_order.mp h).1

theorem Reachable.of_mem (h : b ∈ g.reachable) : g.Reachable b := by
  obtain ⟨r, hr, hp⟩ := reaches_of_mem_run_order h
  rw [mem_singleton.mp hr] at hp
  exact hp

/-- What holds at the entry and passes along edges holds of all reachable blocks. -/
@[elab_as_elim]
theorem reachable_induct {P : BlockId → Prop} (he : P entry) (hs : ∀ {b e}, P b → e ∈ g.edges b → P e.target)
    (hb : b ∈ g.reachable) : P b := by
  have hr : Reaches g.successors entry b := Reachable.of_mem hb
  clear hb
  induction hr with
  | refl => exact he
  | step _ hm ih =>
    obtain ⟨e, hed, rfl⟩ := mem_map.mp hm
    exact hs ih hed

theorem entry_mem_reachable (h : 0 < g.blocks.size) : entry ∈ g.reachable :=
  root_mem_run_order (mem_singleton.mpr rfl) h

theorem reachable_head (h : 0 < g.blocks.size) : ∃ rest, g.reachable = entry :: rest :=
  run_order_head h

theorem mem_reachable_of_successor {c} (hb : b ∈ g.reachable) (hc : c ∈ g.successors b) (hlt : c < g.blocks.size) :
    c ∈ g.reachable :=
  run_order_closed hb hc hlt

/-! ## The order of blocks -/

open List

/-- Every way from the entry to `b` goes through `d`, which is another block. -/
def StrictlyDominates (g : Graph) (d b : BlockId) : Prop :=
  d ≠ b ∧ ∀ path, Way g.successors entry (b :: path) → d ∈ b :: path

-- blocks are listed once, so that one comes before another is said by a sublist of two
theorem StrictlyDominates.before {d} (h : g.StrictlyDominates d b) (hb : b ∈ g.reachable) : [d, b] <+ g.reachable := by
  obtain ⟨r, hr, path, hw, hp⟩ := way_of_mem_run_order hb
  rw [mem_singleton.mp hr] at hw
  exact hp d (mem_of_ne_of_mem h.1 (h.2 path hw))

theorem mem_reachable_iff (h : ∀ b, g.Reachable b → b < g.blocks.size) : b ∈ g.reachable ↔ g.Reachable b := by
  refine ⟨Reachable.of_mem, fun hb => ?_⟩
  induction hb with
  | refl => exact entry_mem_reachable (h _ .refl)
  | step hb hc ih => exact mem_reachable_of_successor ih hc (h _ (hb.step hc))

/-- **The reachable blocks are in reverse postorder.** If no edge leads out of the graph, exactly
the blocks that edges and exceptions lead to are listed, each once, the entry first; a block comes
after all that strictly dominate it; and an edge that closes no cycle leads to a later block, so
that without cycles the order is topological. -/
theorem reachable_in_reverse_postorder (h : ∀ b, g.Reachable b → b < g.blocks.size) :
    (∀ b, b ∈ g.reachable ↔ g.Reachable b) ∧ g.reachable.Nodup ∧ g.reachable.head? = some entry ∧
    (∀ d b, g.Reachable b → g.StrictlyDominates d b → [d, b] <+ g.reachable) ∧
    ∀ b c, g.Reachable b → c ∈ g.successors b → ¬ Reaches g.successors c b → [b, c] <+ g.reachable := by
  have hm : ∀ {b}, b ∈ g.reachable ↔ g.Reachable b := mem_reachable_iff h
  refine ⟨fun _ => hm, mem_reachable_nodup g, ?_, fun d b hb hd => hd.before (hm.mpr hb), fun b c hb hc hn => ?_⟩
  · obtain ⟨rest, hr⟩ := reachable_head (h _ .refl)
    rw [hr, head?_cons]
  · exact run_order_forward (hm.mpr hb) hc (h c (hb.step hc)) hn

/-- The entry and a block that jumps to itself. -/
def spin : Graph := ⟨default, default, #[], #[{ cont := .jump ⟨1, []⟩, bci := 0 }, { cont := .jump ⟨1, []⟩, bci := 1 }]⟩

theorem spin_in_reverse_postorder : (∀ b, spin.Reachable b → b < spin.blocks.size) ∧
    (∀ b, b ∈ spin.reachable ↔ spin.Reachable b) ∧ spin.reachable.head? = some entry := by
  have hs : ∀ a < spin.blocks.size, ∀ c ∈ spin.successors a, c < spin.blocks.size := by decide
  have hlt : ∀ b, spin.Reachable b → b < spin.blocks.size := by
    intro b hb
    induction hb with
    | refl => decide
    | step _ hc ih => exact hs _ ih _ hc
  obtain ⟨hm, -, hh, -⟩ := reachable_in_reverse_postorder hlt
  exact ⟨hlt, hm, hh⟩

end Graph
end StackCompiler
