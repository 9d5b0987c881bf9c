/-
What the removal of a parameter does to a graph, one stage after the other:
the edges into its block lose an argument, every use reads the value instead,
and the other parameters of the block get their indexes.
-/
import StackCompiler.Graph.Params
import StackCompiler.Proofs.Cleanup

namespace StackCompiler

open List

/-- The node with another edge for exceptions. -/
def Node.mapHandler (f : Edge → Edge) (n : Node) : Node := { n with handler := n.handler.map f }

theorem Node.mapHandler_of_none (f : Edge → Edge) {n : Node} (h : n.handler = none) : n.mapHandler f = n := by
  obtain ⟨op, kind, bci, handler⟩ := n
  cases h
  rfl

/-- The block with other edges at its end. -/
def Block.mapEdges (f : Edge → Edge) (b : Block) : Block := { b with cont := b.cont.mapEdges f }

namespace Graph

variable {g : Graph}

/-! ## Edges -/

/-- One node of a body gets its new edge. -/
def mapEdgeOf (f : Edge → Edge) (g : Graph) (n : NodeId) : Graph :=
  match (g.node n).handler with
  | some e => g.setNode n { g.node n with handler := some (f e) }
  | none => g

theorem mapEdgesOf_eq (f : Edge → Edge) (g : Graph) (id : BlockId) :
    mapEdgesOf f g id = ((g.block id).body.foldl (mapEdgeOf f) g).setBlock id
      { g.block id with cont := (g.block id).cont.mapEdges f } := rfl

theorem node_mapEdgeOf (f : Edge → Edge) (g : Graph) (n m : NodeId) :
    (mapEdgeOf f g n).node m = if m = n then (g.node m).mapHandler f else g.node m := by
  rw [mapEdgeOf]
  split
  · next e he =>
    have hlt : n < g.nodes.size := by
      refine Nat.lt_of_not_le fun hge => ?_
      rw [node_of_ge hge] at he
      cases he
    rw [node_setNode]
    by_cases hmn : m = n
    · subst hmn
      simp [hlt, Node.mapHandler, he]
    · simp [hmn, show ¬ n = m from fun h => hmn h.symm]
  · next hn =>
    split
    · next h =>
      subst h
      exact (Node.mapHandler_of_none f hn).symm
    · rfl

/-- What stays the same when nodes change in place. -/
structure SameFrame (g g' : Graph) : Prop where
  head : g'.head = g.head
  nodes : g'.nodes.size = g.nodes.size
  blocks : g'.blocks = g.blocks

theorem SameFrame.trans {g' g''} (h : SameFrame g g') (h' : SameFrame g' g'') : SameFrame g g'' :=
  ⟨h'.head.trans h.head, h'.nodes.trans h.nodes, h'.blocks.trans h.blocks⟩

theorem SameFrame.setNode (g : Graph) (i : NodeId) (n : Node) : SameFrame g (g.setNode i n) :=
  ⟨rfl, by simp [Graph.setNode], rfl⟩

theorem SameFrame.block {g'} (h : SameFrame g g') (b : BlockId) : g'.block b = g.block b := by
  rw [Graph.block, h.blocks, Graph.block]

theorem sameFrame_mapEdgeOf (f : Edge → Edge) (g : Graph) (n : NodeId) : SameFrame g (mapEdgeOf f g n) := by
  rw [mapEdgeOf]
  split
  · exact .setNode ..
  · exact ⟨rfl, rfl, rfl⟩

theorem foldl_mapEdgeOf (f : Edge → Edge) : ∀ (body : List NodeId) (g : Graph), body.Nodup →
    SameFrame g (body.foldl (mapEdgeOf f) g) ∧ ∀ m, (body.foldl (mapEdgeOf f) g).node m =
      if m ∈ body then (g.node m).mapHandler f else g.node m
  | [], g, _ => ⟨⟨rfl, rfl, rfl⟩, fun m => by simp⟩
  | n :: body, g, hn => by
    obtain ⟨hm, hb⟩ := nodup_cons.mp hn
    obtain ⟨hf, hno⟩ := foldl_mapEdgeOf f body (mapEdgeOf f g n) hb
    refine ⟨(sameFrame_mapEdgeOf f g n).trans hf, fun m => ?_⟩
    rw [foldl_cons, hno m, node_mapEdgeOf]
    by_cases hmn : m = n
    · subst hmn
      simp [hm]
    · simp [hmn]

/-- The edges of the given blocks are new, and nothing else. -/
structure EdgesMapped (f : Edge → Edge) (order : List BlockId) (g g' : Graph) : Prop where
  head : g'.head = g.head
  nodes : g'.nodes.size = g.nodes.size
  blocks : g'.blocks.size = g.blocks.size
  block : ∀ b, g'.block b = if b ∈ order then (g.block b).mapEdges f else g.block b
  node : ∀ m, g'.node m = if ∃ b ∈ order, m ∈ (g.block b).body then (g.node m).mapHandler f else g.node m

theorem mapEdgesOf_mapped (f : Edge → Edge) {id} (hid : id < g.blocks.size) (hn : (g.block id).body.Nodup) :
    EdgesMapped f [id] g (mapEdgesOf f g id) := by
  obtain ⟨hf, hno⟩ := foldl_mapEdgeOf f (g.block id).body g hn
  rw [mapEdgesOf_eq]
  refine ⟨hf.head, hf.nodes, ?_, fun b => ?_, fun m => ?_⟩
  · rw [setBlock_size, hf.blocks]
  · rw [block_setBlock, hf.block, hf.blocks]
    by_cases hb : b = id
    · subst hb
      simp [hid, Block.mapEdges]
    · simp [hb, show ¬ id = b from fun h => hb h.symm]
  · rw [node_setBlock, hno]
    simp

theorem foldl_mapEdgesOf (f : Edge → Edge) : ∀ (order : List BlockId) (g : Graph), order.Nodup →
    (∀ b ∈ order, b < g.blocks.size) → (∀ b ∈ order, (g.block b).body.Nodup) →
    (∀ b ∈ order, ∀ b' ∈ order, ∀ n, n ∈ (g.block b).body → n ∈ (g.block b').body → b = b') →
    EdgesMapped f order g (order.foldl (mapEdgesOf f) g)
  | [], g, _, _, _, _ => ⟨rfl, rfl, rfl, fun _ => by simp, fun _ => by simp⟩
  | id :: order, g, hno, hlt, hbo, ha => by
    obtain ⟨hid, ho⟩ := nodup_cons.mp hno
    have h₁ := mapEdgesOf_mapped f (hlt id mem_cons_self) (hbo id mem_cons_self)
    have hbod : ∀ b, ((mapEdgesOf f g id).block b).body = (g.block b).body := by
      intro b
      rw [h₁.block]
      split <;> rfl
    have h₂ := foldl_mapEdgesOf f order (mapEdgesOf f g id) ho
      (fun b hb => h₁.blocks ▸ hlt b (mem_cons_of_mem _ hb))
      (fun b hb => hbod b ▸ hbo b (mem_cons_of_mem _ hb))
      (fun b hb b' hb' n hn hn' => ha b (mem_cons_of_mem _ hb) b' (mem_cons_of_mem _ hb') n
        (hbod b ▸ hn) (hbod b' ▸ hn'))
    refine ⟨h₂.head.trans h₁.head, h₂.nodes.trans h₁.nodes, h₂.blocks.trans h₁.blocks,
      fun b => ?_, fun m => ?_⟩
    · rw [foldl_cons, h₂.block, h₁.block]
      by_cases hb : b = id
      · subst hb
        simp [hid]
      · simp [hb]
    · rw [foldl_cons, h₂.node, h₁.node]
      simp only [hbod, mem_cons, not_mem_nil, or_false, exists_eq_left, exists_eq_or_imp]
      by_cases hm : m ∈ (g.block id).body
      · have hnot : ¬ ∃ b ∈ order, m ∈ (g.block b).body := by
          rintro ⟨b, hb, hmb⟩
          have := ha id mem_cons_self b (mem_cons_of_mem _ hb) m hm hmb
          exact hid (this ▸ hb)
        simp [hm, hnot]
      · simp [hm]

/-! ## Uses -/

/-- Another node is read in place of one. -/
def swap (source target : NodeId) (n : NodeId) : NodeId := if n = source then target else n

theorem node_redirect (g : Graph) (source target n : NodeId) :
    (g.redirect source target).node n = (g.node n).mapNodes (swap source target) := by
  rw [node, node, redirect, Array.getD_eq_getD_getElem?, Array.getD_eq_getD_getElem?, Array.getElem?_map]
  cases g.nodes[n]? <;> rfl

theorem block_redirect (g : Graph) (source target : NodeId) (b : BlockId) :
    (g.redirect source target).block b =
      { g.block b with cont := (g.block b).cont.mapNodes (swap source target) } := by
  rw [block, block, redirect, Array.getD_eq_getD_getElem?, Array.getD_eq_getD_getElem?, Array.getElem?_map]
  cases g.blocks[b]? <;> rfl

/-! ## Indexes -/

theorem foldl_number (b : BlockId) : ∀ (params : List NodeId) (k : Nat) (g : Graph), params.Nodup →
    (∀ q ∈ params, q < g.nodes.size) →
    let g' := (params.zipIdx k).foldl (fun g item =>
      g.setNode item.1 { g.node item.1 with op := .blockParam b (.ofNat item.2) }) g
    SameFrame g g' ∧ (∀ m, m ∉ params → g'.node m = g.node m) ∧
      ∀ i q, params[i]? = some q → g'.node q = { g.node q with op := .blockParam b (.ofNat (k + i)) }
  | [], _, _, _, _ => ⟨⟨rfl, rfl, rfl⟩, fun _ _ => rfl, fun _ _ h => nomatch h⟩
  | p :: params, k, g, hn, hlt => by
    obtain ⟨hp, hpa⟩ := nodup_cons.mp hn
    have hf := SameFrame.setNode g p { g.node p with op := .blockParam b (.ofNat k) }
    obtain ⟨hfr, ho, hno⟩ := foldl_number b params (k + 1)
      (g.setNode p { g.node p with op := .blockParam b (.ofNat k) }) hpa
      fun q hq => hf.nodes ▸ hlt q (mem_cons_of_mem _ hq)
    refine ⟨hf.trans hfr, fun m hm => ?_, fun i q hq => ?_⟩
    · simp only [mem_cons, not_or] at hm
      simp only [zipIdx_cons, foldl_cons]
      rw [ho m hm.2, node_setNode, if_neg fun h => hm.1 h.1.symm]
    · simp only [zipIdx_cons, foldl_cons]
      cases i with
      | zero =>
        obtain rfl : p = q := Option.some.inj hq
        rw [ho p hp, node_setNode, if_pos ⟨rfl, hlt p mem_cons_self⟩, Nat.add_zero]
      | succ i =>
        have hq : params[i]? = some q := hq
        have hne : ¬ p = q := fun h => hp (h ▸ mem_of_getElem? hq)
        rw [hno i q hq, node_setNode, if_neg fun h => hne h.1, Nat.add_right_comm, Nat.add_assoc]

/-! ## Removal -/

/-- A node after the removal of parameter `p`, apart from its index. -/
def withoutParam (g : Graph) (b : BlockId) (index : Nat) (p v m : NodeId) : Node :=
  (if ∃ c ∈ g.reachable, m ∈ (g.block c).body then (g.node m).mapHandler (dropArg b index)
    else g.node m).mapNodes (swap p v)

/-- What becomes of a graph without a parameter. -/
structure Removed (g g' : Graph) (b : BlockId) (index : Nat) (p v : NodeId) : Prop where
  head : g'.head = g.head
  nodes : g'.nodes.size = g.nodes.size
  blocks : g'.blocks.size = g.blocks.size
  block : ∀ c, g'.block c =
    { g.block c with
      params := if c = b then (g.block c).params.eraseIdx index else (g.block c).params
      cont := (if c ∈ g.reachable then (g.block c).cont.mapEdges (dropArg b index)
        else (g.block c).cont).mapNodes (swap p v) }
  node : ∀ m, m ∉ (g.block b).params.eraseIdx index → g'.node m = g.withoutParam b index p v m
  param : ∀ i q, ((g.block b).params.eraseIdx index)[i]? = some q →
    g'.node q = { g.withoutParam b index p v q with op := .blockParam b (.ofNat i) }

theorem removeParam_removed (hp : g.Proper) (hpl : g.Placed) {b} (hb : b ∈ g.reachable) (index : Nat) (v : NodeId) :
    Removed g (g.removeParam g.reachable b index v) b index ((g.block b).params.getD index 0) v := by
  have hlt := lt_of_mem_reachable hb
  generalize hpar : (g.block b).params.getD index 0 = p
  -- The block loses the parameter.
  generalize hg₁ : g.setBlock b { g.block b with params := (g.block b).params.eraseIdx index } = g₁
  have hb₁ : ∀ c, g₁.block c = { g.block c with
      params := if c = b then (g.block c).params.eraseIdx index else (g.block c).params } := by
    intro c
    rw [← hg₁, block_setBlock]
    by_cases hc : c = b
    · subst hc
      simp [hlt]
    · simp [hc, show ¬ b = c from fun h => hc h.symm]
  have hs₁ : g₁.blocks.size = g.blocks.size := by rw [← hg₁, setBlock_size]
  have hn₁ : ∀ m, g₁.node m = g.node m := fun m => by rw [← hg₁, node_setBlock]
  -- Its edges lose an argument.
  have h₂ : EdgesMapped (dropArg b index) g.reachable g₁
      (g.reachable.foldl (mapEdgesOf (dropArg b index)) g₁) := by
    refine foldl_mapEdgesOf _ _ _ (mem_reachable_nodup g) (fun c hc => ?_) (fun c hc => ?_)
      fun c hc c' hc' n hn hn' => ?_
    · rw [hs₁]
      exact lt_of_mem_reachable hc
    · rw [hb₁]
      exact hpl.nodup hc
    · rw [hb₁] at hn hn'
      exact hpl.apart hc hc' hn hn'
  generalize hg₂ : g.reachable.foldl (mapEdgesOf (dropArg b index)) g₁ = g₂ at h₂
  -- Every use reads the value.
  have hb₃ : ∀ c, (g₂.redirect p v).block c = { g.block c with
      params := if c = b then (g.block c).params.eraseIdx index else (g.block c).params
      cont := (if c ∈ g.reachable then (g.block c).cont.mapEdges (dropArg b index)
        else (g.block c).cont).mapNodes (swap p v) } := by
    intro c
    rw [block_redirect, h₂.block, hb₁]
    by_cases hc : c ∈ g.reachable <;> simp [hc, Block.mapEdges]
  have hn₃ : ∀ m, (g₂.redirect p v).node m = g.withoutParam b index p v m := by
    intro m
    rw [node_redirect, h₂.node, hn₁, withoutParam]
    simp only [hb₁]
  have hs₃ : (g₂.redirect p v).nodes.size = g.nodes.size := by
    rw [redirect, Array.size_map, h₂.nodes, ← hg₁, setBlock_nodes]
  -- The other parameters are numbered.
  have hpa : ((g₂.redirect p v).block b).params = (g.block b).params.eraseIdx index := by
    rw [hb₃]
    simp
  obtain ⟨hf, ho, hnu⟩ := foldl_number b ((g.block b).params.eraseIdx index) 0 (g₂.redirect p v)
    ((hp.params_nodup hb).sublist (eraseIdx_sublist ..))
    (fun q hq => hs₃ ▸ hp.param_lt hb (mem_of_mem_eraseIdx hq))
  have hg' : g.removeParam g.reachable b index v =
      ((g.block b).params.eraseIdx index).zipIdx.foldl (fun g item =>
        g.setNode item.1 { g.node item.1 with op := .blockParam b (.ofNat item.2) }) (g₂.redirect p v) := by
    simp only [removeParam, hpar, hg₁, hg₂, renumber, hpa]
  rw [← hg'] at hf ho hnu
  refine ⟨?_, hf.nodes.trans hs₃, ?_, fun c => ?_, fun m hm => ?_, fun i q hq => ?_⟩
  · exact hf.head.trans (h₂.head.trans (by rw [← hg₁]; rfl))
  · rw [hf.blocks, redirect, Array.size_map, h₂.blocks, hs₁]
  · rw [hf.block, hb₃]
  · rw [ho m hm, hn₃]
  · rw [hnu i q hq, hn₃, Nat.zero_add]

end Graph
end StackCompiler
