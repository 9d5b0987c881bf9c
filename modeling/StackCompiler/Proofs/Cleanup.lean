/-
Clean-up as a sequence of changes, and the passes that give nothing a new
name: folding and pruning. What one change keeps, a sequence of changes
keeps, so that each pass only has to be taken apart into changes.
-/
import StackCompiler.Proofs.ChangeMeaning

namespace StackCompiler.Graph

open List Search

/-! ## Sequences of changes -/

/-- `g'` comes from `g` by changes that are faithful wherever scopes are in order. -/
inductive Cleaned (g : Graph) : Graph → Prop
  | refl : Cleaned g g
  | change {g' : Graph} {g''} {c : Change} (h : Cleaned g g') (turns : c.Turns g' g'')
      (faithful : ∀ {scope}, g'.Scoped scope → c.Faithful g' scope) : Cleaned g g''

namespace Cleaned

variable {g g' g'' : Graph}

section
variable (h : Cleaned g g')
include h

theorem trans (h' : Cleaned g' g'') : Cleaned g g'' := by
  induction h' with
  | refl => exact h
  | change _ turns faithful ih => exact ih.change turns faithful

theorem ordered (hp : g.Proper) (hpl : g.Placed) : g'.Proper ∧ g'.Placed := by
  induction h with
  | refl => exact ⟨hp, hpl⟩
  | change _ turns _ ih => exact ⟨turns.proper ih.1, turns.placed ih.1 ih.2⟩

/-- What one change keeps, all changes keep. -/
theorem keeps {P : Graph → Prop} (hp : g.Proper) (hpl : g.Placed)
    (ht : ∀ {c : Change} {g g'}, c.Turns g g' → g.Proper → P g → P g') (hP : P g) : P g' := by
  induction h with
  | refl => exact hP
  | change h turns _ ih => exact ht turns (h.ordered hp hpl).1 ih

theorem plain (hg : g.Plain) : g'.Plain := h.keeps hg.proper hg.placed (fun turns _ => turns.plain) hg

theorem signature : g'.signature = g.signature := by
  induction h with
  | refl => rfl
  | change _ turns _ ih => exact turns.signature.trans ih

theorem scopes (hp : g.Proper) (hpl : g.Placed) {scope} (hs : g.Scoped scope) :
    ∃ scope', g'.Scoped scope' := by
  induction h with
  | refl => exact ⟨scope, hs⟩
  | change h turns faithful ih =>
    obtain ⟨scope', hs'⟩ := ih
    exact ⟨_, turns.scoped (h.ordered hp hpl).1 hs' (faithful hs')⟩

theorem wellFormed {scope} (hw : g.WellFormed scope) :
    ∃ scope', g'.WellFormed scope' := by
  induction h with
  | refl => exact ⟨scope, hw⟩
  | change _ turns faithful ih =>
    obtain ⟨scope', hw'⟩ := ih
    exact ⟨_, turns.wellFormed hw' (faithful hw'.scopes)⟩

/-- **Clean-up keeps the meaning** of a well-formed graph. -/
theorem equivalent {scope} (hw : g.WellFormed scope) {w} (hs : w.Suits g.signature) :
    Machine.Equivalent (g.machine w) g.start (g'.machine w) g'.start := by
  induction h with
  | refl => exact .refl _ _
  | change h turns faithful ih =>
    obtain ⟨scope', hw'⟩ := h.wellFormed hw
    exact ih.trans (turns.equivalent hw' (faithful hw'.scopes) (h.signature ▸ hs))

end

theorem foldl {α : Type} {f} (hp : g.Proper) (hpl : g.Placed)
    (hf : ∀ s a, s.1.Proper → s.1.Placed → Cleaned s.1 (f s a).1) (xs : List α) (k : Nat) :
    Cleaned g (xs.foldl f (g, k)).1 := by
  have hst : Cleaned g (g, k).1 := .refl
  refine List.foldlRecOn (motive := fun (s : Graph × Nat) => Cleaned g s.1) xs f hst fun s hs a _ => ?_
  obtain ⟨hp', hpl'⟩ := hs.ordered hp hpl
  exact hs.trans (hf s a hp' hpl')

end Cleaned

/-! ## Changes without new names -/

/-- The change that keeps some nodes and all names. -/
def Change.keep (kept : NodeId → Bool) : Change := ⟨kept, fun _ => true, id⟩

namespace Change

variable {kept : NodeId → Bool} {g : Graph}

variable {b : BlockId}

theorem edge_keep (hp : g.Proper) (hb : b ∈ g.reachable) {e} (he : e ∈ g.edges b) :
    (keep kept).edge g e = e := by
  have hl : e.args.length ≤ (g.block e.target).params.length := Nat.le_of_eq (hp.arity hb he)
  have hf : ∀ l : List (NodeId × NodeId), l.filter (fun _ => true) = l := fun l =>
    filter_eq_self.mpr fun _ _ => rfl
  simp only [edge, keep, hf, id]
  rw [map_snd_zip hl]

theorem Faithful.keep {scope} : Faithful (keep kept) g scope := .of_id

theorem OfNode.keep (hp : g.Proper) (hb : b ∈ g.reachable) {n} (hn : n ∈ (g.block b).body)
    (hi : ∀ x ∈ (g.node n).op.inputs, kept x = true)
    (hpa : ∀ e, (g.node n).handler = some e → (Change.keep kept).Passes e) :
    (Change.keep kept).OfNode g (g.node n) (g.node n) := by
  have hs : OfNode (Change.keep kept) g (g.node n) _ := .same hi hpa
  have hop : (g.node n).op.mapInputs (Change.keep kept).rename = (g.node n).op :=
    Operator.mapInputs_eq_self fun _ _ => rfl
  have he : (g.node n).handler.map ((Change.keep kept).edge g) = (g.node n).handler := by
    cases hh : (g.node n).handler with
    | none => rfl
    | some e =>
      obtain ⟨before, after, hbo⟩ := append_of_mem hn
      rw [Option.map_some, edge_keep hp hb (mem_edges.mpr ⟨before, .catches hbo hh⟩)]
  rwa [node, hop, he] at hs

theorem OfCont.keep (hp : g.Proper) (hb : b ∈ g.reachable)
    (hi : ∀ x ∈ (g.block b).cont.inputs, kept x = true)
    (hpa : ∀ e ∈ (g.block b).cont.edges, (Change.keep kept).Passes e) :
    (Change.keep kept).OfCont g (g.block b).cont (g.block b).cont := by
  have hs : OfCont (Change.keep kept) g (g.block b).cont _ := .same hi hpa
  have hed : ∀ e ∈ (g.block b).cont.edges, (Change.keep kept).edge g e = e := fun e he =>
    edge_keep hp hb (mem_edges.mpr ⟨_, .cont he⟩)
  have hc : (Change.keep kept).cont g (g.block b).cont = (g.block b).cont :=
    (Continuation.mapWith_congr hed).trans (Continuation.mapWith_id _)
  rwa [hc] at hs

/-- What is kept needs only what is kept, and only arithmetic is dropped. -/
structure Closed (kept : NodeId → Bool) (g : Graph) : Prop where
  inputs : ∀ {b n}, b ∈ g.reachable → n ∈ (g.block b).body → kept n = true →
    ∀ x ∈ (g.node n).op.inputs, kept x = true
  handler : ∀ {b n}, b ∈ g.reachable → n ∈ (g.block b).body → kept n = true →
    ∀ e, (g.node n).handler = some e → (keep kept).Passes e
  pure : ∀ {b n}, b ∈ g.reachable → n ∈ (g.block b).body → kept n = false → (g.node n).op.isPure = true
  cont : ∀ {b}, b ∈ g.reachable → ∀ x ∈ (g.block b).cont.inputs, kept x = true
  edges : ∀ {b}, b ∈ g.reachable → ∀ e ∈ (g.block b).cont.edges, (keep kept).Passes e

theorem Closed.all : Closed (fun _ => true) g where
  inputs _ _ _ _ _ := rfl
  handler _ _ _ _ _ _ _ := rfl
  pure _ _ h := nomatch h
  cont _ _ _ := rfl
  edges _ _ _ _ _ := rfl

/-- A change that keeps all names: nodes may become their known values, and branches jumps. -/
theorem Closed.turns {g'} (h : Closed kept g) (hp : g.Proper) (head : g'.head = g.head)
    (nodes : g'.nodes.size = g.nodes.size) (blocks : g'.blocks.size = g.blocks.size)
    (frame : ∀ b, (g'.block b).params = (g.block b).params ∧ (g'.block b).isHandler = (g.block b).isHandler)
    (body : ∀ b ∈ g.reachable, (g'.block b).body = (g.block b).body.filter kept)
    (node : ∀ n, g'.node n = g.node n ∨ ∃ v, g.evaluate? (g.node n).op = some v ∧
      g'.node n = ⟨.constant v, (g.node n).kind, (g.node n).bci, none⟩)
    (cont : ∀ b, (g'.block b).cont = (g.block b).cont ∨ ∃ cond lhs rhs taken notTaken outcome,
      (g.block b).cont = .branch cond lhs rhs taken notTaken ∧ g.outcome? cond lhs rhs = some outcome ∧
      (g'.block b).cont = .jump (if outcome then taken else notTaken)) :
    (keep kept).Turns g g' where
  head := head
  nodes := nodes
  blocks := blocks
  kindOf n := by
    rcases node n with hn | ⟨v, _, hn⟩ <;> rw [kindOf, hn] <;> rfl
  rename_kind _ _ := rfl
  isHandler b := (frame b).2
  rename_lt hx := hx
  params _ := by
    rw [(frame _).1]
    exact (filter_eq_self.mpr fun _ _ => rfl).symm
  index hb hq := by
    rw [(frame _).1] at hq
    have hop := (hp.params hb).op hq
    rcases node _ with hn | ⟨v, hv, _⟩
    · rw [hn, hop]
    · rw [hop] at hv
      cases hv
  body hb := body _ hb
  node {b n} hb hn hke := by
    rcases node n with hn' | ⟨v, hv, hn'⟩
    · rw [hn']
      exact .keep hp hb hn (h.inputs hb hn hke) (h.handler hb hn hke)
    · rw [hn']
      exact .folded hv
  pure hb hn hke := h.pure hb hn hke
  cont {b} hb := by
    rcases cont b with hk | ⟨cond, lhs, rhs, taken, notTaken, outcome, hk, ho, hk'⟩
    · rw [hk]
      exact .keep hp hb (h.cont hb) (h.edges hb)
    · have hm : (if outcome then taken else notTaken) ∈ (g.block b).cont.edges := by
        rw [hk]
        cases outcome <;> simp [Continuation.edges]
      have hd := OfCont.decided ho (h.edges hb _ hm)
      rw [edge_keep hp hb (mem_edges.mpr ⟨_, .cont hm⟩)] at hd
      rw [hk, hk']
      exact hd

end Change

/-! ## Folding -/

section
variable {g : Graph}

theorem replace_turns (hp : g.Proper) {id v} (hv : g.evaluate? (g.node id).op = some v) :
    (Change.keep fun _ => true).Turns g (g.replace id (.constant v)) := by
  refine Change.Closed.all.turns hp rfl ?_ rfl (fun _ => ⟨rfl, rfl⟩) (fun _ _ => ?_) (fun n => ?_) fun _ => .inl rfl
  · simp [replace, setNode]
  · exact (filter_eq_self.mpr fun _ _ => rfl).symm
  · rw [replace, node_setNode]
    split
    · next h =>
      obtain ⟨rfl, _⟩ := h
      exact .inr ⟨v, hv, rfl⟩
    · exact .inl rfl

theorem foldConstants_cleaned (hp : g.Proper) (hpl : g.Placed) : Cleaned g g.foldConstants.1 := by
  refine .foldl hp hpl (fun s id hp _ => ?_) _ 0
  rw [foldNode]
  split
  · next v hv => exact .change .refl (replace_turns hp hv) fun _ => .keep
  · exact .refl

theorem setBlock_turns (hp : g.Proper) {id cond lhs rhs taken notTaken}
    (hc : (g.block id).cont = .branch cond lhs rhs taken notTaken) {outcome}
    (ho : g.outcome? cond lhs rhs = some outcome) :
    (Change.keep fun _ => true).Turns g
      (g.setBlock id { g.block id with cont := .jump (if outcome then taken else notTaken) }) := by
  refine Change.Closed.all.turns hp rfl rfl (setBlock_size ..) (fun b => ?_) (fun b _ => ?_)
    (fun _ => .inl rfl) fun b => ?_
  · rw [block_setBlock]
    split
    · next h => rw [h.1]; exact ⟨rfl, rfl⟩
    · exact ⟨rfl, rfl⟩
  · rw [block_setBlock, filter_eq_self.mpr fun _ _ => rfl]
    split
    · next h => rw [h.1]
    · rfl
  · rw [block_setBlock]
    split
    · next h =>
      obtain ⟨rfl, _⟩ := h
      exact .inr ⟨cond, lhs, rhs, taken, notTaken, outcome, hc, ho, rfl⟩
    · exact .inl rfl

theorem foldBranches_cleaned (hp : g.Proper) (hpl : g.Placed) : Cleaned g g.foldBranches.1 := by
  refine .foldl hp hpl (fun s id hp _ => ?_) _ 0
  simp only [foldBranch]
  split
  · next hc =>
    split
    · next ho => exact .change .refl (setBlock_turns hp hc ho) fun _ => .keep
    · exact .refl
  · exact .refl

/-! ## Pruning -/

/-- What reachable blocks need. -/
def IsNeeded (g : Graph) (n : NodeId) : Prop :=
  n ∈ (run g.nodes.size g.needs (g.reachable.flatMap g.rootsOf)).order

theorem getD_needed {n} : g.needed.getD n false = true ↔ g.IsNeeded n := getD_run_seen

theorem needed_closed (hp : g.Proper) : Change.Closed (g.needed.getD · false) g where
  inputs hb hn hk x hx := by
    rw [getD_needed] at hk ⊢
    exact run_order_closed hk (mem_append_left _ hx) (hp.inputs hb hn hx)
  handler {b n} hb hn hk e he a ha := by
    obtain ⟨before, after, hbo⟩ := append_of_mem hn
    have hm : e ∈ g.edges b := mem_edges.mpr ⟨before, .catches hbo he⟩
    have hnee : a ∈ g.needs n := by
      simp only [needs, he]
      exact mem_append_right _ ha
    exact getD_needed.mpr (run_order_closed (getD_needed.mp hk) hnee (hp.args hb hm ha))
  pure {b n} hb hn hk := by
    cases hpu : (g.node n).op.isPure with
    | true => rfl
    | false =>
      have hr : n ∈ g.rootsOf b := by
        simp only [rootsOf, mem_append, mem_filter]
        exact .inl (.inl ⟨hn, by rw [hpu]; rfl⟩)
      have hne : g.IsNeeded n :=
        root_mem_run_order (mem_flatMap.mpr ⟨b, hb, hr⟩) (hp.body hb hn)
      rw [getD_needed.mpr hne] at hk
      cases hk
  cont {b} hb x hx := by
    have hr : x ∈ g.rootsOf b := by
      simp only [rootsOf, mem_append]
      exact .inl (.inr hx)
    exact getD_needed.mpr
      (root_mem_run_order (mem_flatMap.mpr ⟨b, hb, hr⟩) (hp.cont hb hx))
  edges {b} hb e he a ha := by
    have hr : a ∈ g.rootsOf b := by
      simp only [rootsOf, mem_append]
      exact .inr (mem_flatMap.mpr ⟨e, he, ha⟩)
    exact getD_needed.mpr (root_mem_run_order (mem_flatMap.mpr ⟨b, hb, hr⟩)
      (hp.args hb (mem_edges.mpr ⟨_, .cont he⟩) ha))

/-- A block without the nodes that are not needed. -/
def pruned (needed : Array Bool) (b : Block) : Block :=
  { b with body := b.body.filter fun n => needed.getD n false }

theorem pruned_pruned (needed : Array Bool) (b : Block) : pruned needed (pruned needed b) = pruned needed b := by
  simp [pruned, filter_filter]

/-- Pruning changes the bodies of the blocks that it comes to, and nothing else. -/
theorem foldl_pruneBlock (needed : Array Bool) (order : List BlockId) (s : Graph × Nat) :
    (order.foldl (pruneBlock needed) s).1.head = s.1.head ∧
    (order.foldl (pruneBlock needed) s).1.nodes = s.1.nodes ∧
    (order.foldl (pruneBlock needed) s).1.blocks.size = s.1.blocks.size ∧
    ∀ b, (order.foldl (pruneBlock needed) s).1.block b =
      if b ∈ order ∧ b < s.1.blocks.size then pruned needed (s.1.block b) else s.1.block b := by
  induction order generalizing s with
  | nil => simp
  | cons a order ih =>
    obtain ⟨hh, hn, hs, hb⟩ := ih (pruneBlock needed s a)
    have hs' : (pruneBlock needed s a).1.blocks.size = s.1.blocks.size := setBlock_size ..
    refine ⟨hh, hn, hs.trans hs', fun b => ?_⟩
    have hf : (pruneBlock needed s a).1.block b =
        if a = b ∧ a < s.1.blocks.size then pruned needed (s.1.block b) else s.1.block b := by
      rw [pruneBlock, block_setBlock]
      split
      · next h => rw [h.1]; rfl
      · rfl
    rw [foldl_cons, hb b, hs', hf]
    by_cases hab : a = b
    · subst hab
      by_cases hlt : a < s.1.blocks.size <;> by_cases hm : a ∈ order <;> simp [hlt, hm, pruned_pruned]
    · have hba : b ≠ a := fun h => hab h.symm
      simp [hab, hba]

theorem prune_cleaned (hp : g.Proper) : Cleaned g g.prune.1 := by
  obtain ⟨hh, hn, hs, hbl⟩ := foldl_pruneBlock g.needed g.reachable (g, 0)
  refine .change .refl ((needed_closed hp).turns hp hh (congrArg Array.size hn) hs (fun b => ?_)
    (fun b hb => ?_) (fun n => .inl ?_) fun b => .inl ?_) fun _ => .keep
  · rw [prune, hbl]
    split <;> exact ⟨rfl, rfl⟩
  · rw [prune, hbl, if_pos ⟨hb, lt_of_mem_reachable hb⟩]
    rfl
  · rw [prune, node, hn]
    rfl
  · rw [prune, hbl]
    split <;> rfl

end
end StackCompiler.Graph
