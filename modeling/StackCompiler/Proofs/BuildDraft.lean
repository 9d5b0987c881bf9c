/-
Building a graph block by block. Between two blocks, every block already filled
is the reading of its instructions (`Plan.Built`, `Draft.Inv`). Opening a block,
making an edge and filling a block keep this.
-/
import StackCompiler.Proofs.BuildBlock
import StackCompiler.Proofs.Outline

namespace StackCompiler.Graph

open List

/-! ## Parameters -/

theorem addParams_spec {b} : ∀ (kinds : List Kind) (g : Graph), b < g.blocks.size →
    let g' := kinds.foldl (·.addParam b ·) g
    Extends g g' ∧ g'.blocks.size = g.blocks.size ∧ (∀ c, c ≠ b → g'.block c = g.block c) ∧
      g'.block b = { g.block b with
        params := (g.block b).params ++ range' g.nodes.size kinds.length } ∧
      g'.nodes.size = g.nodes.size + kinds.length ∧
      ∀ i k, kinds[i]? = some k → g'.node (g.nodes.size + i) =
        { op := .blockParam b (.ofNat ((g.block b).params.length + i)), kind := k, bci := (g.block b).bci }
  | [], g, _ => by
    refine ⟨.refl g, rfl, fun _ _ => rfl, ?_, rfl, by simp⟩
    simp
  | k :: kinds, g, hb => by
    have hsi : (g.addParam b k).blocks.size = g.blocks.size := by simp [addParam, addNode]
    have hno : (g.addParam b k).nodes.size = g.nodes.size + 1 := by simp [addParam, addNode]
    have hext : Extends g (g.addParam b k) :=
      (Extends.addNode g _).trans (Extends.setBlock _ _ _)
    have hbl : ∀ c, (g.addParam b k).block c =
        if b = c then { g.block b with params := (g.block b).params ++ [g.nodes.size] }
        else g.block c := by
      intro c
      simp only [addParam, block_setBlock, block_addNode]
      have : b < (g.addNode
        ⟨.blockParam b (.ofNat (g.block b).params.length), k, (g.block b).bci, none⟩).2.blocks.size := hb
      simp [this]
    obtain ⟨he, hs, ho, hse, hn, hnod⟩ := addParams_spec kinds (g.addParam b k) (hsi ▸ hb)
    simp only [foldl_cons]
    refine ⟨hext.trans he, hs.trans hsi, fun c hc => ?_, ?_, ?_, ?_⟩
    · rw [ho c hc, hbl, if_neg (Ne.symm hc)]
    · rw [hse, hbl, if_pos rfl, hno]
      simp [range'_succ]
    · rw [hn, hno, length_cons]
      omega
    · intro i k' hi
      cases i with
      | zero =>
        have hk : k = k' := by simpa using hi
        subst hk
        rw [Nat.add_zero, he.node g.nodes.size (by rw [hno]; exact Nat.lt_succ_self _)]
        simp only [addParam, node_setBlock, node_addNode, if_true, Nat.add_zero]
      | succ i =>
        have := hnod i k' (by simpa using hi)
        rw [hno, hbl, if_pos rfl] at this
        rw [show g.nodes.size + (i + 1) = g.nodes.size + 1 + i by omega, this]
        simp only [length_append, length_singleton]
        rw [show (g.block b).params.length + 1 + i = (g.block b).params.length + (i + 1) by omega]

theorem addParams_new {g : Graph} {b} (kinds : List Kind) (hb : b < g.blocks.size) (hp : (g.block b).params = []) :
    let g' := kinds.foldl (·.addParam b ·) g
    (g'.block b).params.map g'.kindOf = kinds ∧
      g'.Numbered b ∧
      ∀ q ∈ (g'.block b).params, q < g'.nodes.size := by
  obtain ⟨_, _, _, hs, hsi, hno⟩ := addParams_spec kinds g hb
  intro g'
  have hn : (g'.block b).params = List.range' g.nodes.size kinds.length := by
    rw [hs, hp, nil_append]
  have hat : ∀ i (hi : i < kinds.length), g'.node (g.nodes.size + i) =
      { op := .blockParam b (.ofNat i), kind := kinds[i], bci := (g.block b).bci } := by
    intro i hi
    rw [hno i kinds[i] (getElem?_eq_getElem hi), hp, length_nil, Nat.zero_add]
  refine ⟨ext_getElem (by simp [hn]) fun i h₁ h₂ => ?_, ⟨hn ▸ nodup_range', fun {i q} hq => ?_⟩, fun q hq => ?_⟩
  · simp only [hn, getElem_map, getElem_range', Nat.one_mul, kindOf, hat i h₂]
  · rw [hn] at hq
    obtain ⟨hi, rfl⟩ := List.getElem?_eq_some_iff.mp hq
    rw [length_range'] at hi
    rw [getElem_range', Nat.one_mul, hat i hi]
  · rw [hn, mem_range'_1] at hq
    exact hsi ▸ hq.2

/-! ## What has been built -/

namespace Plan

/-- The parameters of a block are its own, the locals come first, and a handler has nothing else. -/
structure ParamsValid (p : Plan) (g : Graph) (b : BlockId) : Prop where
  numbered : g.Numbered b
  lt : ∀ q ∈ (g.block b).params, q < g.nodes.size
  kinds : p.context.localKinds <+: (g.block b).params.map g.kindOf
  handler : (g.block b).isHandler = true → (g.block b).params.map g.kindOf = p.context.localKinds

/-- An edge that passes the frame to the block at `target`. -/
structure Enters (p : Plan) (g : Graph) (frame : Frame) (target : Nat) (e : Edge) : Prop where
  block : p.outline.block? target = some e.target
  args : e.args = frame.values
  lt : ∀ a ∈ e.args, a < g.nodes.size
  plain : (g.block e.target).isHandler = false
  params_lt : ∀ q ∈ (g.block e.target).params, q < g.nodes.size
  kinds : e.args.map g.kindOf = (g.block e.target).params.map g.kindOf

/-- An exit with its edges made. They lead to positions in `live`. -/
inductive Closes (p : Plan) (g : Graph) (live : List Nat) (frame : Frame) : Exit → Continuation → Prop
  | jump {target e} (h : target ∈ live) (he : p.Enters g frame target e) :
      Closes p g live frame (.jump target) (.jump e)
  | branch {cond lhs rhs target next taken notTaken}
      (h : target ∈ live) (he : p.Enters g frame target taken)
      (h' : next ∈ live) (he' : p.Enters g frame next notTaken) :
      Closes p g live frame (.branch cond lhs rhs target next) (.branch cond lhs rhs taken notTaken)
  | ret (value : Option NodeId) : Closes p g live frame (.ret value) (.ret value)
  | raise (exception : NodeId) (handler : Option Edge) :
      Closes p g live frame (.raise exception handler) (.raise exception handler)

/-- The block at `pc` is what reading its instructions gave, in a draft of the time. -/
structure Reading (p : Plan) (g : Graph) (live : List Nat) (pc : Nat) (b : BlockId) (d : Draft)
    (base : Nat) (c : Cursor) (exit : Exit) : Prop where
  params : (d.graph.block b).params = (g.block b).params
  isHandler : (d.graph.block b).isHandler = (g.block b).isHandler
  valid : (d.cursor p b pc).Valid p (g.block b).params base
  run : p.Runs pc pc (d.cursor p b pc) c exit
  graph : Extends c.graph g
  body : (g.block b).body = c.body.toList
  cont : p.Closes g live c.frame exit (g.block b).cont

/-- The block is the reading of its instructions. -/
def Built (p : Plan) (g : Graph) (live : List Nat) (pc : Nat) (b : BlockId) : Prop :=
  ∃ d base c exit, p.Reading g live pc b d base c exit

/-- The entry block computes the locals, from node `base` on, and passes them to the first
instruction. -/
structure Entrance (p : Plan) (g : Graph) (live : List Nat) (base : Nat) (e : Edge) : Prop where
  lt : base + p.context.localKinds.length ≤ g.nodes.size
  node : ∀ i k, p.context.localKinds[i]? = some k → g.node (base + i) =
    { op := if i < g.signature.params.length then .parameter i else .constant k.zero
      kind := k, bci := 0 }
  body : (g.block entry).body = range' base p.context.localKinds.length
  cont : (g.block entry).cont = .jump e
  live : 0 ∈ live
  enters : p.Enters g ⟨range' base p.context.localKinds.length, []⟩ 0 e

def Entered (p : Plan) (g : Graph) (live : List Nat) : Prop := ∃ base e, p.Entrance g live base e

/-- Later graphs keep the parameters of the blocks that have them. -/
structure Keeps (p : Plan) (live : List Nat) (g g' : Graph) : Prop where
  graph : Extends g g'
  flag : ∀ b, (g'.block b).isHandler = (g.block b).isHandler
  params : ∀ pc b, pc ∈ live → p.outline.block? pc = some b →
    (g'.block b).params = (g.block b).params

variable {p : Plan} {g g' : Graph} {live live' : List Nat}

theorem Keeps.refl (p : Plan) (live : List Nat) (g : Graph) : p.Keeps live g g :=
  ⟨.refl g, fun _ => rfl, fun _ _ _ _ => rfl⟩

theorem Keeps.extend (hg : Extends g g') (hb : ∀ b, g'.block b = g.block b) : p.Keeps live g g' :=
  ⟨hg, fun b => by rw [hb], fun _ b _ _ => by rw [hb]⟩

theorem Keeps.trans {g''} (h : p.Keeps live g g') (h' : p.Keeps live' g' g'') (hl : ∀ pc ∈ live, pc ∈ live') :
    p.Keeps live g g'' where
  graph := h.graph.trans h'.graph
  flag b := (h'.flag b).trans (h.flag b)
  params pc b hpc hb := (h'.params pc b (hl pc hpc) hb).trans (h.params pc b hpc hb)

theorem Enters.mono {frame target e} (h : p.Enters g frame target e) (hk : p.Keeps live g g') (ht : target ∈ live) :
    p.Enters g' frame target e := by
  have hp := hk.params target e.target ht h.block
  refine ⟨h.block, h.args, ?_, ?_, ?_, ?_⟩
  · exact fun a ha => Nat.lt_of_lt_of_le (h.lt a ha) hk.graph.size
  · rw [hk.flag]
    exact h.plain
  · rw [hp]
    exact fun q hq => Nat.lt_of_lt_of_le (h.params_lt q hq) hk.graph.size
  · rw [hp, hk.graph.map_kindOf h.lt, hk.graph.map_kindOf h.params_lt]
    exact h.kinds

theorem Closes.mono {frame exit cont} (h : p.Closes g live frame exit cont) (hk : p.Keeps live g g')
    (hl : ∀ pc ∈ live, pc ∈ live') :
    p.Closes g' live' frame exit cont := by
  cases h with
  | jump ht he => exact .jump (hl _ ht) (he.mono hk ht)
  | branch ht he ht' he' => exact .branch (hl _ ht) (he.mono hk ht) (hl _ ht') (he'.mono hk ht')
  | ret value => exact .ret value
  | raise exception handler => exact .raise exception handler

theorem Built.mono {pc b} (h : p.Built g live pc b) (hk : p.Keeps live g g') (hl : ∀ pc ∈ live, pc ∈ live')
    (hb : g'.block b = g.block b) : p.Built g' live' pc b := by
  obtain ⟨d, base, c, exit, hr⟩ := h
  refine ⟨d, base, c, exit, ?_⟩
  exact
    { params := hr.params.trans (by rw [hb])
      isHandler := hr.isHandler.trans (by rw [hb])
      valid := by rw [hb]; exact hr.valid
      run := hr.run
      graph := hr.graph.trans hk.graph
      body := by rw [hb]; exact hr.body
      cont := by rw [hb]; exact hr.cont.mono hk hl }

theorem Entered.mono (h : p.Entered g live) (hk : p.Keeps live g g') (hl : ∀ pc ∈ live, pc ∈ live')
    (hb : g'.block entry = g.block entry) : p.Entered g' live' := by
  obtain ⟨base, e, hr⟩ := h
  refine ⟨base, e, ?_⟩
  exact
    { lt := Nat.le_trans hr.lt hk.graph.size
      node := fun i k hi => by
        have hlt : i < p.context.localKinds.length := (List.getElem?_eq_some_iff.mp hi).1
        rw [hk.graph.node _ (Nat.lt_of_lt_of_le (Nat.add_lt_add_left hlt base) hr.lt),
          hk.graph.signature]
        exact hr.node i k hi
      body := by rw [hb]; exact hr.body
      cont := by rw [hb]; exact hr.cont
      live := hl 0 hr.live
      enters := hr.enters.mono hk hr.live }

theorem ParamsValid.mono {b} (h : p.ParamsValid g b) (hg : Extends g g')
    (hf : (g'.block b).isHandler = (g.block b).isHandler) (hb : (g'.block b).params = (g.block b).params) :
    p.ParamsValid g' b := by
  refine ⟨⟨by rw [hb]; exact h.numbered.nodup, fun {i q} hq => ?_⟩, ?_, ?_, ?_⟩
  · rw [hb] at hq
    rw [hg.node q (h.lt q (mem_of_getElem? hq))]
    exact h.numbered.op hq
  · rw [hb]
    exact fun q hq => Nat.lt_of_lt_of_le (h.lt q hq) hg.size
  · rw [hb, hg.map_kindOf h.lt]
    exact h.kinds
  · rw [hf, hb, hg.map_kindOf h.lt]
    exact h.handler

end Plan

/-! ## Drafts -/

namespace Draft

/-- Between two blocks: those at `live` have parameters, those at `done` are filled as well. -/
structure Inv (p : Plan) (s : Signature) (entries : List Nat) (d : Draft) (live done : List Nat) :
    Prop where
  outline : p.outline = Outline.of p.method
  signature : d.graph.signature = s
  key : d.graph.key = p.method.key
  size : d.graph.blocks.size = p.outline.leaders.length + 1
  started_size : d.started.size = p.outline.leaders.length + 1
  flag : ∀ pc b, p.outline.block? pc = some b → (d.graph.block b).isHandler = entries.contains pc
  entry_params : (d.graph.block entry).params = []
  leaders : ∀ pc ∈ live, pc ∈ p.outline.leaders
  nodup : live.Nodup
  started : ∀ pc b, p.outline.block? pc = some b → (d.started.getD b false = true ↔ pc ∈ live)
  unstarted : ∀ pc b, p.outline.block? pc = some b → pc ∉ live → (d.graph.block b).params = []
  params : ∀ pc b, p.outline.block? pc = some b → pc ∈ live → p.ParamsValid d.graph b
  body_lt : ∀ b n, n ∈ (d.graph.block b).body → n < d.graph.nodes.size
  apart : ∀ b b' n, n ∈ (d.graph.block b).body → n ∈ (d.graph.block b').body → b = b'
  done_live : ∀ pc ∈ done, pc ∈ live
  built : ∀ pc b, pc ∈ done → p.outline.block? pc = some b → p.Built d.graph live pc b

namespace Inv

variable {p : Plan} {s : Signature} {entries : List Nat} {d : Draft} {live done : List Nat}

variable {pc : Nat} {b : BlockId}

section
variable (h : Inv p s entries d live done)
include h

theorem block_lt (hb : p.outline.block? pc = some b) : 0 < b ∧ b < d.graph.blocks.size := by
  rw [h.outline] at hb
  have := Outline.block?_pos hb
  rw [h.size, h.outline]
  exact ⟨this.1, Nat.lt_succ_of_le this.2⟩

theorem block_inj {pc'} (hb : p.outline.block? pc = some b) (hb' : p.outline.block? pc' = some b) : pc = pc' := by
  rw [h.outline] at hb hb'
  exact Outline.block?_inj hb hb'

theorem exists_block (hpc : pc ∈ live) : ∃ b, p.outline.block? pc = some b := by
  have := h.leaders pc hpc
  rw [h.outline] at this ⊢
  exact ⟨_, Outline.block?_eq_some.mpr ⟨this, rfl⟩⟩

theorem mem_leaders_of_block (hb : p.outline.block? pc = some b) : pc ∈ p.outline.leaders := by
  rw [h.outline] at hb ⊢
  exact (Outline.block?_eq_some.mp hb).1

/-- The graph may grow, and blocks that are not filled may get bodies, apart from all others. -/
theorem update {g} (hg : Extends d.graph g) (hs : g.blocks.size = d.graph.blocks.size)
    (hp : ∀ c, (g.block c).params = (d.graph.block c).params ∧ (g.block c).isHandler = (d.graph.block c).isHandler)
    (hlt : ∀ c n, n ∈ (g.block c).body → n < g.nodes.size)
    (ha : ∀ c c' n, n ∈ (g.block c).body → n ∈ (g.block c').body → c = c')
    (hd : ∀ pc ∈ done, ∀ c, p.outline.block? pc = some c → g.block c = d.graph.block c) (pending : List Nat) :
    Inv p s entries { d with graph := g, pending } live done :=
  { h with
    signature := hg.signature.trans h.signature
    key := hg.key.trans h.key
    size := hs.trans h.size
    flag := fun pc c hc => by rw [(hp c).2]; exact h.flag pc c hc
    entry_params := (hp entry).1.trans h.entry_params
    unstarted := fun pc c hc hn => (hp c).1.trans (h.unstarted pc c hc hn)
    params := fun pc c hc hl => (h.params pc c hc hl).mono hg (hp c).2 (hp c).1
    body_lt := hlt
    apart := ha
    built := fun pc c hpc hc => (h.built pc c hpc hc).mono ⟨hg, fun c => (hp c).2, fun _ c _ _ => (hp c).1⟩
      (fun _ h => h) (hd pc hpc c hc) }

theorem extend {g} (hg : Extends d.graph g) (hb : g.blocks = d.graph.blocks) (pending : List Nat) :
    Inv p s entries { d with graph := g, pending } live done := by
  have hbl := block_congr hb
  refine h.update hg (by rw [hb]) (fun c => by rw [hbl]; exact ⟨rfl, rfl⟩) (fun c n hn => ?_) (fun c c' n hn hn' => ?_)
    (fun _ _ c _ => hbl c) pending
  · exact Nat.lt_of_lt_of_le (h.body_lt c n (hbl c ▸ hn)) hg.size
  · exact h.apart c c' n (hbl c ▸ hn) (hbl c' ▸ hn')

/-- A block may be opened, if its first parameters are the locals. -/
theorem start {kinds} (hb : p.outline.block? pc = some b) (hpc : pc ∉ live) (hk : p.context.localKinds <+: kinds)
    (hh : entries.contains pc = true → kinds = p.context.localKinds) :
    Inv p s entries (d.start b pc kinds) (live ++ [pc]) done ∧
      p.Keeps live d.graph (d.start b pc kinds).graph ∧
      ((d.start b pc kinds).graph.block b).params.map (d.start b pc kinds).graph.kindOf = kinds ∧
      (∀ c, ((d.start b pc kinds).graph.block c).body = (d.graph.block c).body) ∧
      (d.start b pc kinds).graph.block entry = d.graph.block entry := by
  obtain ⟨hb0, hbl⟩ := h.block_lt hb
  obtain ⟨he, hs, ho, hse, _, _⟩ := addParams_spec kinds d.graph hbl
  obtain ⟨hki, hop, hlt⟩ := addParams_new kinds hbl (h.unstarted pc b hb hpc)
  have hd : d.start b pc kinds =
      ⟨kinds.foldl (·.addParam b ·) d.graph, d.started.setIfInBounds b true, d.pending ++ [pc]⟩ := rfl
  rw [hd]
  generalize kinds.foldl (·.addParam b ·) d.graph = g' at *
  have hne : ∀ pc', pc' ∈ live → ∀ b', p.outline.block? pc' = some b' → b' ≠ b := by
    rintro pc' hp' b' hb' rfl
    exact hpc (h.block_inj hb' hb ▸ hp')
  have hr : ∀ c, (g'.block c).body = (d.graph.block c).body ∧
      (g'.block c).isHandler = (d.graph.block c).isHandler := by
    intro c
    by_cases hc : c = b
    · rw [hc, hse]
      exact ⟨rfl, rfl⟩
    · rw [ho c hc]
      exact ⟨rfl, rfl⟩
  have hke : p.Keeps live d.graph g' :=
    ⟨he, fun c => (hr c).2, fun pc' b' hp' hb' => by rw [ho b' (hne pc' hp' b' hb')]⟩
  have hen : g'.block entry = d.graph.block entry := ho entry (Nat.ne_of_lt hb0)
  have hv : p.ParamsValid g' b := by
    refine ⟨hop, hlt, by rw [hki]; exact hk, fun hf => ?_⟩
    rw [(hr b).2, h.flag pc b hb] at hf
    exact hki.trans (hh hf)
  refine ⟨?_, hke, hki, fun c => (hr c).1, hen⟩
  have hm : ∀ pc' ∈ live, pc' ∈ live ++ [pc] := fun pc' h' => mem_append_left _ h'
  exact
    { outline := h.outline
      signature := he.signature.trans h.signature
      key := he.key.trans h.key
      size := hs.trans h.size
      started_size := by
        rw [Array.size_setIfInBounds]
        exact h.started_size
      flag := fun pc' b' hb' => by rw [(hr b').2]; exact h.flag pc' b' hb'
      entry_params := by rw [hen]; exact h.entry_params
      leaders := forall_mem_append.mpr ⟨h.leaders, forall_mem_singleton.mpr (h.mem_leaders_of_block hb)⟩
      nodup := by
        refine nodup_append.mpr ⟨h.nodup, by simp, fun a ha c hc hac => ?_⟩
        rw [mem_singleton.mp hc] at hac
        exact hpc (hac ▸ ha)
      started := fun pc' b' hb' => by
        have hlt : b < d.started.size := by
          rw [h.started_size, ← h.size]
          exact hbl
        rw [getD_setIfInBounds, mem_append, mem_singleton]
        by_cases hbb : b = b'
        · subst hbb
          simp [hlt, h.block_inj hb' hb]
        · have hpp : pc' ≠ pc := by
            rintro rfl
            rw [hb] at hb'
            exact hbb (Option.some.inj hb')
          rw [if_neg fun hc => hbb hc.1, h.started pc' b' hb']
          simp [hpp]
      unstarted := fun pc' b' hb' hp' => by
        rw [mem_append, mem_singleton, not_or] at hp'
        have hbb : b' ≠ b := by
          rintro rfl
          exact hp'.2 (h.block_inj hb' hb)
        rw [ho b' hbb]
        exact h.unstarted pc' b' hb' hp'.1
      params := fun pc' b' hb' hp' => by
        rcases mem_append.mp hp' with hp' | hp'
        · exact (h.params pc' b' hb' hp').mono he (hr b').2 (hke.params pc' b' hp' hb')
        · rw [mem_singleton.mp hp', hb] at hb'
          rw [← Option.some.inj hb']
          exact hv
      body_lt := fun c n hn => by
        rw [(hr c).1] at hn
        exact Nat.lt_of_lt_of_le (h.body_lt c n hn) he.size
      apart := fun c c' n hn hn' => by
        rw [(hr c).1] at hn
        rw [(hr c').1] at hn'
        exact h.apart c c' n hn hn'
      done_live := fun pc' hp' => hm pc' (h.done_live pc' hp')
      built := fun pc' b' hp' hb' => by
        refine (h.built pc' b' hp' hb').mono hke hm ?_
        rw [ho b' (hne pc' (h.done_live pc' hp') b' hb')] }

end

end Inv

/-- Blocks may have been opened, and wait to be filled in the order of their opening. -/
structure Opens (p : Plan) (d : Draft) (live : List Nat) (d' : Draft) (live' : List Nat) : Prop where
  keeps : p.Keeps live d.graph d'.graph
  body : ∀ b, (d'.graph.block b).body = (d.graph.block b).body
  entry : d'.graph.block entry = d.graph.block entry
  waiting : ∃ new, d'.pending = d.pending ++ new ∧ live' = live ++ new

namespace Opens

variable {p : Plan} {d d' d'' : Draft} {live live' live'' : List Nat}

theorem refl (p : Plan) (d : Draft) (live : List Nat) : Opens p d live d live :=
  ⟨.refl p live d.graph, fun _ => rfl, rfl, [], by simp, by simp⟩

theorem mem (h : Opens p d live d' live') : ∀ pc ∈ live, pc ∈ live' := by
  obtain ⟨new, _, rfl⟩ := h.waiting
  exact fun pc hpc => mem_append_left _ hpc

theorem trans (h : Opens p d live d' live') (h' : Opens p d' live' d'' live'') :
    Opens p d live d'' live'' := by
  refine ⟨h.keeps.trans h'.keeps h.mem, fun b => (h'.body b).trans (h.body b),
    h'.entry.trans h.entry, ?_⟩
  obtain ⟨new, hp, rfl⟩ := h.waiting
  obtain ⟨new', hp', rfl⟩ := h'.waiting
  exact ⟨new ++ new', by rw [hp', hp, append_assoc], by rw [append_assoc]⟩

end Opens

namespace Inv

variable {p : Plan} {s : Signature} {entries : List Nat} {d : Draft} {live done : List Nat}

variable {pc : Nat} {d' : Draft} {b : BlockId}

section
variable (h : Inv p s entries d live done)
include h

theorem edgeTo {frame target e} (hlo : frame.locals.map d.graph.kindOf = p.context.localKinds)
    (hlt : ∀ n ∈ frame.values, n < d.graph.nodes.size) (he : d.edgeTo p target frame pc = .ok (e, d')) :
    ∃ live', Inv p s entries d' live' done ∧ Opens p d live d' live' ∧ target ∈ live' ∧
      p.Enters d'.graph frame target e := by
  unfold Draft.edgeTo at he
  split at he
  · cases he
  · next b hb =>
    dsimp only at he
    split at he
    · cases he
    · next hp =>
      rw [Bool.not_eq_true] at hp
      split at he
      · next hs =>
        split at he
        · next hki =>
          cases he
          have hl : target ∈ live := (h.started target b hb).mp hs
          exact ⟨live, h, .refl p d live, hl, hb, rfl, hlt, hp,
            (h.params target b hb hl).lt, hki.symm⟩
        · cases he
      · next hs =>
        cases he
        have hl : target ∉ live := fun hc => hs ((h.started target b hb).mpr hc)
        have hpr : p.context.localKinds <+: frame.values.map d.graph.kindOf := by
          rw [Frame.values, map_append, hlo]
          exact prefix_append _ _
        have hen : entries.contains target = false := by rw [← h.flag target b hb]; exact hp
        obtain ⟨hi, hk, hki, hbo, hent⟩ :=
          h.start hb hl hpr (fun hc => by rw [hen] at hc; cases hc)
        have hm : target ∈ live ++ [target] := mem_append_right _ (mem_singleton.mpr rfl)
        refine ⟨live ++ [target], hi, ⟨hk, hbo, hent, [target], rfl, rfl⟩, hm, ?_⟩
        refine ⟨hb, rfl, ?_, ?_, (hi.params target b hb hm).lt, ?_⟩
        · exact fun a ha => Nat.lt_of_lt_of_le (hlt a ha) hk.graph.size
        · rw [hk.flag]
          exact hp
        · rw [hki, hk.graph.map_kindOf hlt]

theorem close {frame exit cont} (hl : frame.locals.map d.graph.kindOf = p.context.localKinds)
    (hlt : ∀ n ∈ frame.values, n < d.graph.nodes.size) (hc : d.close p frame pc exit = .ok (cont, d')) :
    ∃ live', Inv p s entries d' live' done ∧ Opens p d live d' live' ∧
      p.Closes d'.graph live' frame exit cont := by
  cases exit with
  | jump target =>
    simp only [Draft.close, bind_eq_ok] at hc
    obtain ⟨⟨e, d₁⟩, he, hc⟩ := hc
    cases hc
    obtain ⟨live', hi, ho, ht, hen⟩ := h.edgeTo hl hlt he
    exact ⟨live', hi, ho, .jump ht hen⟩
  | branch cond lhs rhs target next =>
    simp only [Draft.close, bind_eq_ok] at hc
    obtain ⟨⟨e₁, d₁⟩, he₁, ⟨e₂, d₂⟩, he₂, hc⟩ := hc
    cases hc
    obtain ⟨live₁, hi₁, ho₁, ht₁, hen₁⟩ := h.edgeTo hl hlt he₁
    have hk₁ := ho₁.keeps.graph
    have hm : ∀ n ∈ frame.locals, n < d.graph.nodes.size := fun n hn =>
      hlt n (mem_append_left _ hn)
    obtain ⟨live₂, hi₂, ho₂, ht₂, hen₂⟩ := hi₁.edgeTo
      ((hk₁.map_kindOf hm).trans hl) (fun n hn => Nat.lt_of_lt_of_le (hlt n hn) hk₁.size) he₂
    exact ⟨live₂, hi₂, ho₁.trans ho₂,
      .branch (ho₂.mem _ ht₁) (hen₁.mono ho₂.keeps ht₁) ht₂ hen₂⟩
  | ret value =>
    cases hc
    exact ⟨live, h, .refl p d live, .ret value⟩
  | raise exception handler =>
    cases hc
    exact ⟨live, h, .refl p d live, .raise exception handler⟩

/-- A block whose edges have been made is filled with new nodes. -/
theorem finish {g live' d₁} (body : List NodeId) (cont : Continuation) (hbl : g.blocks = d.graph.blocks)
    (hi : Inv p s entries d₁ live' done) (ho : Opens p { d with graph := g } live d₁ live')
    (hb : b < d₁.graph.blocks.size) (hd : ∀ pc ∈ done, p.outline.block? pc ≠ some b)
    (hbo : ∀ n ∈ body, d.graph.nodes.size ≤ n ∧ n < g.nodes.size) :
    Inv p s entries (d₁.finish b body cont) live' done ∧ p.Keeps live' d₁.graph (d₁.finish b body cont).graph ∧
      ∀ c, (d₁.finish b body cont).graph.block c =
        if b = c then { d₁.graph.block b with body, cont } else d₁.graph.block c := by
  have hblo : ∀ c, (d₁.finish b body cont).graph.block c =
      if b = c then { d₁.graph.block b with body, cont } else d₁.graph.block c := by
    intro c
    change (d₁.graph.setBlock b _).block c = _
    rw [block_setBlock]
    simp [hb]
  have hs : ∀ c, ((d₁.finish b body cont).graph.block c).params = (d₁.graph.block c).params ∧
      ((d₁.finish b body cont).graph.block c).isHandler = (d₁.graph.block c).isHandler := by
    intro c
    rw [hblo]
    split
    · next hc =>
      rw [← hc]
      exact ⟨rfl, rfl⟩
    · exact ⟨rfl, rfl⟩
  have hbod : ∀ c, ((d₁.finish b body cont).graph.block c).body = if b = c then body else (d₁.graph.block c).body := by
    intro c
    rw [hblo]
    split <;> rfl
  have hne : ∀ {c n}, n ∈ body → n ∉ (d₁.graph.block c).body := by
    intro c n hn hn'
    rw [(ho.body c).trans (congrArg Block.body (block_congr hbl c))] at hn'
    exact absurd (h.body_lt c n hn') (Nat.not_lt_of_le (hbo n hn).1)
  have he : Extends d₁.graph (d₁.finish b body cont).graph := .setBlock _ _ _
  refine ⟨?_, ⟨he, fun c => (hs c).2, fun _ c _ _ => (hs c).1⟩, hblo⟩
  refine hi.update he (setBlock_size _ _ _) hs (fun c n hn => ?_) (fun c c' n hn hn' => ?_) (fun pc hpc c hc => ?_) _
  · rw [hbod] at hn
    split at hn
    · exact Nat.lt_of_lt_of_le (hbo n hn).2 ho.keeps.graph.size
    · exact hi.body_lt c n hn
  · rw [hbod] at hn hn'
    split at hn <;> split at hn'
    · next hc hc' => exact hc.symm.trans hc'
    · exact absurd hn' (hne hn)
    · exact absurd hn (hne hn')
    · exact hi.apart c c' n hn hn'
  · rw [hblo, if_neg]
    rintro rfl
    exact hd pc hpc hc

theorem addDone (hb : p.outline.block? pc = some b) (hpc : pc ∈ live)
    (hbu : p.Built d.graph live pc b) : Inv p s entries d live (done ++ [pc]) :=
  { h with
    done_live := forall_mem_append.mpr ⟨h.done_live, forall_mem_singleton.mpr hpc⟩
    built := fun pc' b' hp' hb' => by
      rcases mem_append.mp hp' with hp' | hp'
      · exact h.built pc' b' hp' hb'
      · rw [mem_singleton.mp hp', hb] at hb'
        rw [mem_singleton.mp hp', ← Option.some.inj hb']
        exact hbu }

theorem cursor_valid (hb : p.outline.block? pc = some b) (hpc : pc ∈ live) :
    (d.cursor p b pc).Valid p (d.graph.block b).params d.graph.nodes.size ∧
      Extends d.graph (d.cursor p b pc).graph ∧
      (d.cursor p b pc).graph.blocks = d.graph.blocks := by
  have hp := h.params pc b hb hpc
  have hv : Cursor.Valid p (d.graph.block b).params d.graph.nodes.size
      ⟨d.graph, ⟨(d.graph.block b).params.take p.context.localKinds.length,
        ((d.graph.block b).params.drop p.context.localKinds.length).reverse⟩, #[]⟩ := by
    refine
      { locals := ?_, held := fun n hn => .inl ?_, params_lt := hp.lt, body_mem := by simp,
        base_le := Nat.le_refl _, nodup := by simp, nodes := by simp }
    · rw [map_take]
      exact (prefix_iff_eq_take.mp hp.kinds).symm
    · rcases mem_append.mp hn with hn | hn
      · exact mem_of_mem_take hn
      · exact mem_of_mem_drop (mem_reverse.mp hn)
  unfold Draft.cursor
  dsimp only
  split
  · exact ⟨hv.pushNew (by simp [Operator.inputs]) rfl rfl trivial, .addNode _ _, rfl⟩
  · exact ⟨hv, .refl _, rfl⟩

theorem fill (hpc : pc ∈ live) (hd : pc ∉ done) (hf : d.fill p pc = .ok d') :
    ∃ new, Inv p s entries d' (live ++ new) (done ++ [pc]) ∧ d'.pending = d.pending ++ new ∧
      p.Keeps live d.graph d'.graph ∧ d'.graph.block entry = d.graph.block entry := by
  obtain ⟨b, hb⟩ := h.exists_block hpc
  simp only [Draft.fill, hb, Option.getD_some, bind_eq_ok] at hf
  obtain ⟨⟨c, exit⟩, hr, ⟨cont, d₁⟩, hclo, hfi⟩ := hf
  cases hfi
  obtain ⟨hv₀, he₀, hb₀⟩ := h.cursor_valid hb hpc
  have hr := Plan.runs_of_run rfl hr
  obtain ⟨hv, _, hg⟩ := hr.valid hv₀
  have he : Extends d.graph c.graph := he₀.trans hg.graph
  have hbl : c.graph.blocks = d.graph.blocks := hg.blocks.trans hb₀
  obtain ⟨live', hi, ho, hcl⟩ :=
    (h.extend he hbl d.pending).close hv.locals hv.values_lt hclo
  have hk₁ : p.Keeps live d.graph d₁.graph :=
    (Plan.Keeps.extend he (block_congr hbl)).trans ho.keeps fun _ h => h
  obtain ⟨hi', hk₂, hblo⟩ := h.finish _ cont hbl hi ho (hi.block_lt hb).2
    (fun pc' hp' hb' => hd (h.block_inj hb' hb ▸ hp'))
    hv.body_mem
  obtain ⟨new, hp, rfl⟩ := ho.waiting
  have hk : p.Keeps live d.graph (d₁.finish b c.body.toList cont).graph :=
    hk₁.trans hk₂ ho.mem
  refine ⟨new, hi'.addDone hb (ho.mem pc hpc) ?_, hp, hk, ?_⟩
  · refine ⟨d, d.graph.nodes.size, c, exit, ?_⟩
    exact
      { params := (hk.params pc b hpc hb).symm
        isHandler := (hk.flag b).symm
        valid := by
          rw [hk.params pc b hpc hb]
          exact hv₀
        run := hr
        graph := ho.keeps.graph.trans hk₂.graph
        body := by rw [hblo, if_pos rfl]
        cont := by rw [hblo, if_pos rfl]; exact hcl.mono hk₂ fun _ h => h }
  · rw [hblo, if_neg (show b ≠ entry from Nat.ne_of_gt (hi.block_lt hb).1), ho.entry]
    exact block_congr hbl entry

end

end Inv

/-! ## The beginning -/

theorem addBlocks_eq {α : Type} (f : α → Block) : ∀ (xs : List α) (g : Graph),
    xs.foldl (fun g x => (g.addBlock (f x)).2) g = { g with blocks := g.blocks ++ (xs.map f).toArray }
  | [], g => by simp
  | x :: xs, g => by
    rw [foldl_cons, addBlocks_eq f xs]
    simp [addBlock]

variable {p : Plan} {s : Signature} {entries : List Nat}

theorem empty_inv {g} (ho : p.outline = Outline.of p.method) (hsi : g.signature = s)
    (hk : g.key = p.method.key)
    (hbl : g.blocks = #[{ bci := 0 }] ++ (p.outline.leaders.map fun pc =>
      ({ bci := pc, isHandler := entries.contains pc } : Block)).toArray) :
    Inv p s entries ⟨g, Array.replicate g.blocks.size false, []⟩ [] [] := by
  have hs : g.blocks.size = p.outline.leaders.length + 1 := by
    rw [hbl]
    simp
  have hg : ∀ b x, g.blocks[b]? = some x → g.block b = x := by
    intro b x hx
    rw [block, Array.getD_eq_getD_getElem?, hx]
    rfl
  have hme : ∀ b, (g.block b).params = [] ∧ (g.block b).body = [] := by
    intro b
    rcases hx : g.blocks[b]? with _ | x
    · have : g.block b = default := by rw [block, Array.getD_eq_getD_getElem?, hx]; rfl
      rw [this]
      exact ⟨rfl, rfl⟩
    · have hm := Array.mem_of_getElem? hx
      rw [hbl] at hm
      rw [hg b x hx]
      rcases Array.mem_append.mp hm with hm | hm
      · rw [mem_singleton.mp (Array.mem_toList_iff.mpr hm)]
        exact ⟨rfl, rfl⟩
      · obtain ⟨pc, _, rfl⟩ := mem_map.mp (mem_toArray.mp hm)
        exact ⟨rfl, rfl⟩
  have he : g.block entry = { bci := 0 } := hg entry _ (by simp [hbl, entry])
  exact
    { outline := ho
      signature := hsi
      key := hk
      size := hs
      started_size := by rw [Array.size_replicate, hs]
      flag := fun pc b hb => by
        rw [ho] at hb
        obtain ⟨hpc, rfl⟩ := Outline.block?_eq_some.mp hb
        rw [← ho] at hpc ⊢
        rw [hg (p.outline.leaders.idxOf pc + 1) { bci := pc, isHandler := entries.contains pc }]
        have hlt := idxOf_lt_length_of_mem hpc
        rw [hbl, Array.getElem?_append_right (by simp)]
        simp [hlt]
      entry_params := by rw [he]
      leaders := by simp
      nodup := nodup_nil
      started := fun pc b hb => by
        have : (Array.replicate g.blocks.size false).getD b false = false := by
          rw [Array.getD_eq_getD_getElem?, Array.getElem?_replicate]
          split <;> rfl
        simp only [this, not_mem_nil, Bool.false_eq_true]
      unstarted := fun pc b _ _ => (hme b).1
      params := by simp
      body_lt := fun b n hn => by rw [(hme b).2] at hn; cases hn
      apart := fun b b' n hn _ => by rw [(hme b).2] at hn; cases hn
      done_live := by simp
      built := by simp }

theorem Inv.startAll :
    ∀ {rest : List Nat} {d : Draft} {live : List Nat}, Inv p s entries d live [] →
      d.pending = live → (live ++ rest).Nodup → (∀ pc ∈ rest, pc ∈ p.outline.leaders) →
      let d' := rest.foldl
        (fun d pc => d.start ((p.outline.block? pc).getD 0) pc p.context.localKinds) d
      Inv p s entries d' (live ++ rest) [] ∧ d'.pending = live ++ rest
  | [], d, live, hd, hp, _, _ => by
    rw [append_nil]
    exact ⟨hd, hp⟩
  | pc :: rest, d, live, hd, hp, hn, hs => by
    have hpc : pc ∈ (Outline.of p.method).leaders := hd.outline ▸ hs pc mem_cons_self
    have hb : p.outline.block? pc = some ((Outline.of p.method).leaders.idxOf pc + 1) := by
      rw [hd.outline]
      exact Outline.block?_eq_some.mpr ⟨hpc, rfl⟩
    have hno : pc ∉ live := fun hc =>
      (nodup_append.mp hn).2.2 pc hc pc mem_cons_self rfl
    obtain ⟨hi, _⟩ := hd.start hb hno prefix_rfl fun _ => rfl
    rw [append_cons] at hn ⊢
    rw [foldl_cons, hb, Option.getD_some]
    refine startAll hi ?_ hn fun x hx => hs x (mem_cons_of_mem _ hx)
    change d.pending ++ [pc] = _
    rw [hp]

theorem begin_inv (ho : p.outline = Outline.of p.method) (hn : entries.Nodup)
    (hl : ∀ pc ∈ entries, pc ∈ p.outline.leaders) :
    Inv p s entries (begin p s entries) entries [] ∧ (begin p s entries).pending = entries := by
  unfold begin
  dsimp only
  rw [addBlocks_eq fun pc => ({ bci := pc, isHandler := entries.contains pc } : Block)]
  exact (empty_inv (s := s) ho rfl rfl rfl).startAll rfl hn hl

theorem appendLocals {α : Type} (f : α → Node) : ∀ (xs : List α) (c : Cursor),
    let c' := xs.foldl (fun c x => { (c.append (f x)).2 with
      frame := { c.frame with locals := c.frame.locals ++ [(c.append (f x)).1] } }) c
    c'.graph = { c.graph with nodes := c.graph.nodes ++ (xs.map f).toArray } ∧
      c'.frame = ⟨c.frame.locals ++ range' c.graph.nodes.size xs.length, c.frame.stack⟩ ∧
      c'.body.toList = c.body.toList ++ range' c.graph.nodes.size xs.length
  | [], c => by simp
  | x :: xs, c => by
    obtain ⟨hg, hf, hb⟩ := appendLocals f xs { (c.append (f x)).2 with
      frame := { c.frame with locals := c.frame.locals ++ [(c.append (f x)).1] } }
    have hs := c.append_size (f x)
    rw [foldl_cons]
    refine ⟨?_, ?_, ?_⟩
    · rw [hg]
      simp [Cursor.append, addNode]
    · rw [hf, length_cons, range'_succ, hs]
      simp [Cursor.append]
    · rw [hb, length_cons, range'_succ, hs]
      simp [Cursor.append]

/-- The node that computes the first value of a local. -/
def localNode (s : Signature) (item : Kind × Nat) : Node :=
  { op := if item.2 < s.params.length then .parameter item.2 else .constant item.1.zero
    kind := item.1, bci := 0 }

/-- The cursor behind the last node of the entry block. -/
def entryCursor (d : Draft) (p : Plan) : Cursor :=
  p.context.localKinds.zipIdx.foldl (fun c x =>
    { (c.append (localNode d.graph.signature x)).2 with
      frame := { c.frame with
        locals := c.frame.locals ++ [(c.append (localNode d.graph.signature x)).1] } })
    ⟨d.graph, ⟨[], []⟩, #[]⟩

theorem enter_eq (d : Draft) (p : Plan) : d.enter p = (do
    let (e, d₁) ← { d with graph := (d.entryCursor p).graph }.edgeTo p 0 (d.entryCursor p).frame 0
    .ok (d₁.finish entry (d.entryCursor p).body.toList (.jump e))) := rfl

theorem entryCursor_spec (d : Draft) (p : Plan) :
    Extends d.graph (d.entryCursor p).graph ∧ (d.entryCursor p).graph.blocks = d.graph.blocks ∧
      (d.entryCursor p).frame = ⟨range' d.graph.nodes.size p.context.localKinds.length, []⟩ ∧
      (d.entryCursor p).body.toList = range' d.graph.nodes.size p.context.localKinds.length ∧
      (d.entryCursor p).graph.nodes.size = d.graph.nodes.size + p.context.localKinds.length ∧
      ∀ i k, p.context.localKinds[i]? = some k →
        (d.entryCursor p).graph.node (d.graph.nodes.size + i) = localNode d.graph.signature (k, i) := by
  obtain ⟨hg, hf, hb⟩ := appendLocals (localNode d.graph.signature) p.context.localKinds.zipIdx
    ⟨d.graph, ⟨[], []⟩, #[]⟩
  change (d.entryCursor p).graph = _ at hg
  change (d.entryCursor p).frame = _ at hf
  change (d.entryCursor p).body.toList = _ at hb
  rw [hg, hf, hb, length_zipIdx]
  refine ⟨⟨?_, ?_, rfl, rfl⟩, rfl, rfl, rfl, ?_, ?_⟩
  · simp
  · intro n hn
    rw [node, node, Array.getD_eq_getD_getElem?, Array.getD_eq_getD_getElem?,
      Array.getElem?_append_left hn]
  · simp
  · intro i k hi
    rw [node, Array.getD_eq_getD_getElem?, Array.getElem?_append_right (Nat.le_add_right _ _)]
    simp [hi]

theorem entryCursor_kinds (d : Draft) (p : Plan) :
    (d.entryCursor p).frame.locals.map (d.entryCursor p).graph.kindOf = p.context.localKinds ∧
      ∀ n ∈ (d.entryCursor p).frame.values, n < (d.entryCursor p).graph.nodes.size := by
  obtain ⟨_, _, hf, _, hs, hno⟩ := d.entryCursor_spec p
  rw [hf]
  refine ⟨ext_getElem (by simp) fun i h₁ h₂ => ?_, fun n hn => ?_⟩
  · have := hno i p.context.localKinds[i] (getElem?_eq_getElem h₂)
    simp only [getElem_map, getElem_range', Nat.one_mul, kindOf, this, localNode]
  · simp only [Frame.values, reverse_nil, append_nil] at hn
    rw [hs]
    exact (mem_range'_1.mp hn).2

theorem Inv.enter {d d' live} (h : Inv p s entries d live []) (he : d.enter p = .ok d') :
    ∃ new, Inv p s entries d' (live ++ new) [] ∧ d'.pending = d.pending ++ new ∧
      p.Entered d'.graph (live ++ new) := by
  rw [enter_eq, bind_eq_ok] at he
  obtain ⟨⟨e, d₁⟩, hed, hf⟩ := he
  cases hf
  obtain ⟨hext, hb, hfr, hbo, hs, hno⟩ := d.entryCursor_spec p
  obtain ⟨hl, hv⟩ := d.entryCursor_kinds p
  generalize d.entryCursor p = c at *
  obtain ⟨live', hin, ho, hz, hen⟩ :=
    (h.extend hext hb d.pending).edgeTo hl hv hed
  have hpo : entry < d₁.graph.blocks.size := by
    rw [hin.size]
    exact Nat.succ_pos _
  obtain ⟨hin', hk, hbl⟩ := h.finish c.body.toList (.jump e) hb hin ho hpo (by simp) fun n hn => by
    rw [hs]
    exact mem_range'_1.mp (hbo ▸ hn)
  obtain ⟨new, hp, rfl⟩ := ho.waiting
  have hg : Extends c.graph (d₁.finish entry c.body.toList (.jump e)).graph :=
    ho.keeps.graph.trans hk.graph
  refine ⟨new, hin', hp, d.graph.nodes.size, e, ?_⟩
  exact
    { lt := hs ▸ hg.size
      node := fun i k hi => by
        have hi' : i < p.context.localKinds.length := (List.getElem?_eq_some_iff.mp hi).1
        have hl' : d.graph.nodes.size + i < c.graph.nodes.size := by
          rw [hs]
          exact Nat.add_lt_add_left hi' _
        rw [hg.node _ hl', hno i k hi, hg.signature, hext.signature]
        rfl
      body := by rw [hbl, if_pos rfl, ← hbo]
      cont := by rw [hbl, if_pos rfl]
      live := hz
      enters := by
        have := hen.mono hk hz
        rwa [hfr] at this }

/-! ## Block by block -/

/-- The drafts of a method behind its entry block, with the positions that have been filled. -/
inductive Drafted (p : Plan) (s : Signature) (entries : List Nat) : Draft → List Nat → Prop
  | enter {d} (h : (begin p s entries).enter p = .ok d) : Drafted p s entries d []
  | fill {d d' done pending pc} (h : Drafted p s entries d done)
      (hp : d.pending = pc :: pending) (hf : { d with pending }.fill p pc = .ok d') :
      Drafted p s entries d' (done ++ [pc])

section
variable {p : Plan} {s : Signature} {entries done : List Nat} {d d' : Draft}

theorem Inv.not_mem_done {pc pending} (h : Inv p s entries d (done ++ pc :: pending) done) :
    pc ∉ done := fun hc =>
  (nodup_append.mp h.nodup).2.2 pc hc pc mem_cons_self rfl

theorem Drafted.inv (ho : p.outline = Outline.of p.method) (hn : entries.Nodup)
    (hl : ∀ pc ∈ entries, pc ∈ p.outline.leaders) (h : Drafted p s entries d done) :
    Inv p s entries d (done ++ d.pending) done ∧ p.Entered d.graph (done ++ d.pending) ∧
      ∀ pc ∈ entries, pc ∈ done ++ d.pending := by
  induction h with
  | enter h =>
    obtain ⟨hi, hpe⟩ := begin_inv (s := s) ho hn hl
    obtain ⟨new, hi', hp', he⟩ := hi.enter h
    rw [hp', hpe, nil_append]
    exact ⟨hi', he, fun pc hpc => mem_append_left _ hpc⟩
  | @fill d d' done pending pc _ hp hf ih =>
    rw [hp] at ih
    obtain ⟨hi, he, hen⟩ := ih
    obtain ⟨new, hi', hpe, hk, hent⟩ := (hi.extend (.refl _) rfl pending).fill
      (mem_append_right _ mem_cons_self) hi.not_mem_done hf
    have hli : done ++ [pc] ++ d'.pending = done ++ pc :: pending ++ new := by
      rw [hpe]
      simp
    rw [hli]
    exact ⟨hi', he.mono hk (fun _ h => mem_append_left _ h) hent,
      fun pc' hpc' => mem_append_left _ (hen pc' hpc')⟩

theorem Drafted.drain : ∀ {fuel : Nat} {d : Draft} {done : List Nat}, Drafted p s entries d done →
    drain p fuel d = .ok d' →
    ∃ done', Drafted p s entries d' done' ∧ (d'.pending = [] ∨ done'.length = done.length + fuel)
  | 0, d, done, h, hd => by
    cases hd
    exact ⟨done, h, .inr rfl⟩
  | fuel + 1, d, done, h, hd => by
    unfold Draft.drain at hd
    split at hd
    · next hn =>
      cases hd
      exact ⟨done, h, .inl hn⟩
    · next pc pending hp =>
      rw [bind_eq_ok] at hd
      obtain ⟨d₁, hf, hdr⟩ := hd
      obtain ⟨done', h', he⟩ := Drafted.drain (h.fill hp hf) hdr
      refine ⟨done', h', he.imp (fun h => h) fun hl => ?_⟩
      rw [hl, length_append, length_singleton]
      omega

/-- The fuel lasts, since no block is filled twice. -/
theorem Inv.pending_eq_nil (h : Inv p s entries d (done ++ d.pending) done)
    (he : d.pending = [] ∨ done.length = p.outline.leaders.length) : d.pending = [] := by
  rcases he with hn | hl
  · exact hn
  · have hs : done ++ d.pending ⊆ p.outline.leaders := h.leaders
    have hle := h.nodup.length_le_of_subset hs
    rw [length_append] at hle
    exact eq_nil_of_length_eq_zero (by omega)

end
end Draft

/-! ## The finished graph -/

/-- What does not change while a method is read. -/
def Plan.of (m : Method) (s : Signature) : Plan := ⟨m, ⟨m.key.text, m.localKinds s⟩, Outline.of m⟩

/-- A graph that was built from a method, with the positions of its blocks. -/
structure Translation (m : Method) (entries : List Nat) (g : Graph) (p : Plan) (s : Signature)
    (live : List Nat) : Prop where
  signature : m.key.signature = .ok s
  few : s.params.length ≤ maxArguments
  check : Outline.check m.key.text m = .ok ()
  plan : p = Plan.of m s
  drafted : ∃ d, d.graph = g ∧ Draft.Inv p s entries d live live ∧ Draft.Drafted p s entries d live
  entered : p.Entered g live
  mem_entries : ∀ pc, pc ∈ entries ↔ ∃ h ∈ m.handlers, h.entry = pc
  entries_live : ∀ pc ∈ entries, pc ∈ live

namespace Translation

variable {m : Method} {entries live : List Nat} {g : Graph} {p : Plan} {s : Signature}

section
variable (T : Translation m entries g p s live)
include T

theorem method : p.method = m := by
  rw [T.plan]
  rfl

theorem localKinds : p.context.localKinds = m.localKinds s := by
  rw [T.plan]
  rfl

theorem inv : ∃ d, d.graph = g ∧ Draft.Inv p s entries d live live := by
  obtain ⟨d, hd, hi, _⟩ := T.drafted
  exact ⟨d, hd, hi⟩

end

end Translation

variable {m : Method}

/-- **What a successful build gives**, for any order of the handlers. -/
theorem buildFrom_eq_ok {entries g} (hn : entries.Nodup)
    (he : ∀ pc, pc ∈ entries ↔ ∃ h ∈ m.handlers, h.entry = pc) (hb : buildFrom entries m = .ok g) :
    ∃ p s live, Translation m entries g p s live := by
  simp only [buildFrom, bind_eq_ok] at hb
  obtain ⟨s, hs, hb⟩ := hb
  split at hb
  · cases hb
  · next hf =>
    simp only [bind_eq_ok] at hb
    obtain ⟨_, hc, d₁, hent, d₂, hdr, hg⟩ := hb
    cases hg
    have hl : ∀ pc ∈ entries, pc ∈ (Outline.of m).leaders := by
      intro pc hpc
      obtain ⟨x, hx, rfl⟩ := (he pc).mp hpc
      exact Outline.entry_mem_leaders hc hx
    obtain ⟨live, hd, hend⟩ := (Draft.Drafted.enter hent).drain hdr
    obtain ⟨hi, hen, ho⟩ := hd.inv (p := Plan.of m s) rfl hn hl
    have hni := hi.pending_eq_nil (hend.imp (fun h => h) fun h => h.trans (Nat.zero_add _))
    rw [hni, append_nil] at hi hen ho
    refine ⟨Plan.of m s, s, live, ?_⟩
    exact
      { signature := hs
        few := Nat.le_of_not_lt hf
        check := hc
        plan := rfl
        drafted := ⟨d₂, rfl, hi, hd⟩
        entered := hen
        mem_entries := he
        entries_live := ho }

theorem HandlerOrder.nodup (order : HandlerOrder m) : order.entries.Nodup :=
  order.perm.nodup_iff.mpr (nodup_eraseDups _)

theorem HandlerOrder.mem_entries (order : HandlerOrder m) (pc : Nat) :
    pc ∈ order.entries ↔ ∃ h ∈ m.handlers, h.entry = pc := by
  simp [order.perm.mem_iff, handlerEntries]

theorem build_eq_ok {order} {g} (hb : build m order = .ok g) :
    ∃ p s live, Translation m order.entries g p s live :=
  buildFrom_eq_ok order.nodup order.mem_entries hb

end StackCompiler.Graph
