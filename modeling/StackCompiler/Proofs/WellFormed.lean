/-
When a graph is well formed. Numbers are in range and edges fit (`Proper`), every
node has one place (`Placed`), every value that is read has been computed on each
way to the reader (`Scoped`), and kinds agree (`Kinded`). `Scoped` carries for
every block the values of earlier blocks that it may use.
-/
import StackCompiler.Proofs.BuildBlock

namespace StackCompiler.Graph

open List

/-- An edge that leaves a block behind the nodes `before`. -/
inductive Leaves (g : Graph) (b : BlockId) : List NodeId → Edge → Prop
  | catches {before after : List NodeId} {n : NodeId} {e : Edge}
      (body : (g.block b).body = before ++ n :: after) (handler : (g.node n).handler = some e) :
      Leaves g b before e
  | cont {e : Edge} (edge : e ∈ (g.block b).cont.edges) : Leaves g b (g.block b).body e

variable {g : Graph} {b : BlockId}

theorem mem_edges {e} : e ∈ g.edges b ↔ ∃ before, g.Leaves b before e := by
  simp only [edges, mem_append, mem_filterMap]
  constructor
  · rintro (⟨n, hn, he⟩ | he)
    · obtain ⟨before, after, hbo⟩ := append_of_mem hn
      exact ⟨before, .catches hbo he⟩
    · exact ⟨_, .cont he⟩
  · rintro ⟨before, h⟩
    cases h with
    | catches hbo he => exact .inl ⟨_, by rw [hbo]; simp, he⟩
    | cont he => exact .inr he

theorem Leaves.subset_body {before e} (h : g.Leaves b before e) :
    ∀ n ∈ before, n ∈ (g.block b).body := by
  cases h with
  | catches hbo _ =>
    intro n hn
    rw [hbo]
    exact mem_append_left _ hn
  | cont _ => exact fun n hn => hn

/-! ## Numbers -/

/-- Numbers are in range, and every edge passes one argument for each parameter. -/
structure Proper (g : Graph) : Prop where
  entry_lt : entry < g.blocks.size
  params : ∀ {b}, b ∈ g.reachable → g.Numbered b
  body : ∀ {b n}, b ∈ g.reachable → n ∈ (g.block b).body → n < g.nodes.size
  inputs : ∀ {b n x}, b ∈ g.reachable → n ∈ (g.block b).body → x ∈ (g.node n).op.inputs →
    x < g.nodes.size
  cont : ∀ {b x}, b ∈ g.reachable → x ∈ (g.block b).cont.inputs → x < g.nodes.size
  target : ∀ {b e}, b ∈ g.reachable → e ∈ g.edges b → e.target < g.blocks.size
  arity : ∀ {b e}, b ∈ g.reachable → e ∈ g.edges b → e.args.length = (g.block e.target).params.length
  args : ∀ {b e a}, b ∈ g.reachable → e ∈ g.edges b → a ∈ e.args → a < g.nodes.size

namespace Proper

variable {g : Graph}

variable {b : BlockId} {q : NodeId}

theorem target_reachable (h : g.Proper) {e} (hb : b ∈ g.reachable) (he : e ∈ g.edges b) :
    e.target ∈ g.reachable :=
  mem_reachable_of_successor hb (mem_map_of_mem he) (h.target hb he)

theorem entry_reachable (h : g.Proper) : entry ∈ g.reachable := entry_mem_reachable h.entry_lt

section
variable (h : g.Proper) (hb : b ∈ g.reachable)
include h hb

theorem param_op (hq : q ∈ (g.block b).params) : ∃ i, (g.node q).op = .blockParam b i := (h.params hb).exists_op hq

theorem param_lt (hq : q ∈ (g.block b).params) : q < g.nodes.size := (h.params hb).lt hq

theorem params_nodup : (g.block b).params.Nodup := (h.params hb).nodup

theorem param_block {b'} (hb' : b' ∈ g.reachable) (hq : q ∈ (g.block b).params) (hq' : q ∈ (g.block b').params) :
    b = b' := by
  obtain ⟨i, hi⟩ := h.param_op hb hq
  obtain ⟨j, hj⟩ := h.param_op hb' hq'
  rw [hi] at hj
  injection hj

end

end Proper

/-! ## Places -/

/-- Every node of a body stands there only, and parameters stand in no body. -/
structure Placed (g : Graph) : Prop where
  nodup : ∀ {b}, b ∈ g.reachable → (g.block b).body.Nodup
  apart : ∀ {b b' n}, b ∈ g.reachable → b' ∈ g.reachable → n ∈ (g.block b).body →
    n ∈ (g.block b').body → b = b'
  op : ∀ {b n}, b ∈ g.reachable → n ∈ (g.block b).body → ∀ c i, (g.node n).op ≠ .blockParam c i

/-- A block computes a value: by a parameter or in its body. -/
def Defines (g : Graph) (b : BlockId) (n : NodeId) : Prop :=
  n ∈ (g.block b).params ∨ n ∈ (g.block b).body

theorem Placed.defines_unique (h : g.Placed) (hp : g.Proper) {b' n} (hb : b ∈ g.reachable) (hb' : b' ∈ g.reachable)
    (hn : g.Defines b n) (hn' : g.Defines b' n) :
    b = b' := by
  rcases hn with hn | hn <;> rcases hn' with hn' | hn'
  · exact hp.param_block hb hb' hn hn'
  · obtain ⟨i, hi⟩ := hp.param_op hb hn
    exact absurd hi (h.op hb' hn' b i)
  · obtain ⟨i, hi⟩ := hp.param_op hb' hn'
    exact absurd hi (h.op hb hn b' i)
  · exact h.apart hb hb' hn hn'

/-! ## Scopes -/

/-- The values that block `b` may read behind the nodes `before`: those of earlier blocks that
its scope names, its parameters, and those computed before. -/
def Known (g : Graph) (scope : BlockId → NodeId → Prop) (b : BlockId) (before : List NodeId)
    (n : NodeId) : Prop :=
  scope b n ∨ Visible g (g.block b).params before n

/-- Only known values are read, and the scope of a block is known wherever an edge enters it. -/
structure Scoped (g : Graph) (scope : BlockId → NodeId → Prop) : Prop where
  entry : ∀ n, ¬ scope entry n
  entry_params : (g.block Graph.entry).params = []
  inputs : ∀ {b before n after}, b ∈ g.reachable → (g.block b).body = before ++ n :: after →
    ∀ x ∈ (g.node n).op.inputs, g.Known scope b before x
  cont : ∀ {b}, b ∈ g.reachable → ∀ x ∈ (g.block b).cont.inputs,
    g.Known scope b (g.block b).body x
  edge : ∀ {b before e}, b ∈ g.reachable → g.Leaves b before e →
    ∀ x, x ∈ e.args ∨ scope e.target x → g.Known scope b before x

/-- A way of `n` edges from the entry. -/
inductive Way (g : Graph) : Nat → BlockId → Prop
  | entry : Way g 0 Graph.entry
  | step {n b c} (h : Way g n b) (hc : c ∈ g.successors b) : Way g (n + 1) c

theorem Way.reachable (hp : g.Proper) {n} (h : g.Way n b) : b ∈ g.reachable := by
  induction h with
  | entry => exact hp.entry_reachable
  | step _ hc ih =>
    obtain ⟨e, he, rfl⟩ := mem_map.mp hc
    exact hp.target_reachable ih he

theorem Way.of_reachable (h : b ∈ g.reachable) : ∃ n, g.Way n b := by
  refine reachable_induct ⟨0, .entry⟩ (fun hw he => ?_) h
  obtain ⟨n, hn⟩ := hw
  exact ⟨n + 1, hn.step (mem_map_of_mem he)⟩

theorem Scoped.defined_before {scope} (hs : g.Scoped scope) (hp : g.Proper) {n} (hw : g.Way n b) {x} (hx : scope b x) :
    ∃ k d, k < n ∧ g.Way k d ∧ g.Defines d x := by
  induction hw with
  | entry => exact absurd hx (hs.entry x)
  | @step n b c hw hc ih =>
    obtain ⟨e, he, rfl⟩ := mem_map.mp hc
    obtain ⟨before, hl⟩ := mem_edges.mp he
    rcases hs.edge (hw.reachable hp) hl x (.inr hx) with hx | hx | ⟨hx, _⟩
    · obtain ⟨k, d, hk, hd⟩ := ih hx
      exact ⟨k, d, Nat.lt_succ_of_lt hk, hd⟩
    · exact ⟨n, b, Nat.lt_succ_self n, hw, .inl hx⟩
    · exact ⟨n, b, Nat.lt_succ_self n, hw, .inr (hl.subset_body x hx)⟩

theorem Scoped.defined_by {scope} (hs : g.Scoped scope) (hp : g.Proper) {n} (hw : g.Way n b) {before}
    (hbe : ∀ n ∈ before, n ∈ (g.block b).body) {x} (hx : g.Known scope b before x) :
    ∃ k d, k ≤ n ∧ g.Way k d ∧ g.Defines d x := by
  rcases hx with hx | hx | ⟨hx, _⟩
  · obtain ⟨k, d, hk, hd⟩ := hs.defined_before hp hw hx
    exact ⟨k, d, Nat.le_of_lt hk, hd⟩
  · exact ⟨n, b, Nat.le_refl n, hw, .inl hx⟩
  · exact ⟨n, b, Nat.le_refl n, hw, .inr (hbe x hx)⟩

/-! ## Kinds -/

/-- The edges of the given blocks pass values of the kinds that their targets expect. -/
def EdgesFit (g : Graph) (blocks : List BlockId) : Prop := ∀ b ∈ blocks, ∀ e ∈ g.edges b,
  e.args.map g.kindOf = (g.block e.target).params.map g.kindOf

/-- Kinds agree with what is computed and passed, and only objects are thrown. -/
structure Kinded (g : Graph) : Prop where
  body : ∀ {b n}, b ∈ g.reachable → n ∈ (g.block b).body →
    (g.node n).op.HasKind g.kindOf g.signature (g.node n).kind
  edge : g.EdgesFit g.reachable
  raise : ∀ {b x handler}, b ∈ g.reachable → (g.block b).cont = .raise x handler →
    g.kindOf x = .reference

/-! ## Handlers -/

/-- No exception is caught in the given blocks. -/
structure HandlerFree (g : Graph) (blocks : List BlockId) : Prop where
  body : ∀ {b n}, b ∈ blocks → n ∈ (g.block b).body → (g.node n).handler = none
  raise : ∀ {b x handler}, b ∈ blocks → (g.block b).cont = .raise x handler → handler = none

/-- A graph with numbers and places in order in which no exception is caught. -/
structure Plain (g : Graph) : Prop where
  proper : g.Proper
  placed : g.Placed
  free : g.HandlerFree g.reachable

/-! ## Paths -/

/-- Block `b` reads `x` behind the nodes `before`: as an input, at its end, or as an argument. -/
inductive Uses (g : Graph) (b : BlockId) : List NodeId → NodeId → Prop
  | input {before after : List NodeId} {n x : NodeId} (body : (g.block b).body = before ++ n :: after)
      (mem : x ∈ (g.node n).op.inputs) : Uses g b before x
  | cont {x : NodeId} (mem : x ∈ (g.block b).cont.inputs) : Uses g b (g.block b).body x
  | arg {before : List NodeId} {e : Edge} {x : NodeId} (leaves : g.Leaves b before e)
      (mem : x ∈ e.args) : Uses g b before x

/-- A path from the entry to a block, with the parameters and body nodes on it. -/
inductive Trail (g : Graph) : BlockId → List NodeId → Prop
  | entry : Trail g entry []
  | step {b : BlockId} {computed before : List NodeId} {e : Edge} (trail : Trail g b computed)
      (leaves : g.Leaves b before e) : Trail g e.target (computed ++ (g.block b).params ++ before)

/-- Every value that is read was computed before, on every path to the reader. -/
def UsesDefined (g : Graph) : Prop := ∀ b computed, g.Trail b computed → ∀ before x, g.Uses b before x →
  x ∈ computed ++ (g.block b).params ++ before

variable {g : Graph} {scope : BlockId → NodeId → Prop} {b : BlockId} {computed before : List NodeId}

theorem Uses.subset_body {x} (h : g.Uses b before x) : ∀ n ∈ before, n ∈ (g.block b).body := by
  cases h with
  | input hb _ =>
    intro n hn
    rw [hb]
    exact mem_append_left _ hn
  | cont _ => exact fun n hn => hn
  | arg hl _ => exact hl.subset_body

namespace Trail

theorem reachable (hp : g.Proper) (h : g.Trail b computed) : b ∈ g.reachable := by
  induction h with
  | entry => exact hp.entry_reachable
  | step _ hl ih => exact hp.target_reachable ih (mem_edges.mpr ⟨_, hl⟩)

theorem exists_of_reachable (h : b ∈ g.reachable) : ∃ computed, g.Trail b computed := by
  refine reachable_induct ⟨[], .entry⟩ (fun ht he => ?_) h
  obtain ⟨computed, ht⟩ := ht
  obtain ⟨before, hl⟩ := mem_edges.mp he
  exact ⟨_, ht.step hl⟩

end Trail

namespace Scoped

theorem known_of_uses (hs : g.Scoped scope) (hb : b ∈ g.reachable) {x} (h : g.Uses b before x) :
    g.Known scope b before x := by
  cases h with
  | input hbo hx => exact hs.inputs hb hbo x hx
  | cont hx => exact hs.cont hb x hx
  | arg hl hx => exact hs.edge hb hl x (.inl hx)

section
variable (hs : g.Scoped scope) (hp : g.Proper)
include hs hp

end

end Scoped

end StackCompiler.Graph
