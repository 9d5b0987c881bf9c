/-
Graphs that were built are well formed. Every reachable block is the entry or
was read at an open position, and what holds of the reading (`Cursor.Valid`,
`Plan.Closes`) is what well-formedness asks. A block uses nothing but its
parameters and its own nodes, so its scope is empty.
-/
import StackCompiler.Proofs.BuildMeaning
import StackCompiler.Proofs.WellFormed

namespace StackCompiler.Graph

open List

/-- What holds of one block of a graph that was built. -/
structure Plan.BlockValid (p : Plan) (g : Graph) (live : List Nat) (b : BlockId) : Prop where
  params : g.Numbered b
  nodes : ∀ before n after, (g.block b).body = before ++ n :: after →
    p.NodeValid g (g.block b).params before n
  lt : ∀ n ∈ (g.block b).body, n < g.nodes.size
  nodup : (g.block b).body.Nodup
  inputs : ∀ x ∈ (g.block b).cont.inputs, Visible g (g.block b).params (g.block b).body x
  enters : ∀ e ∈ (g.block b).cont.edges,
    ((∃ frame target, target ∈ live ∧ p.Enters g frame target e) ∨
      p.Catches g (g.block b).params (g.block b).body e) ∧
    ∀ a ∈ e.args, Visible g (g.block b).params (g.block b).body a
  raise : ∀ x handler, (g.block b).cont = .raise x handler → g.kindOf x = .reference ∧
    ∀ e, handler = some e → p.Catches g (g.block b).params (g.block b).body e

variable {m : Method} {entries live : List Nat} {g : Graph} {p : Plan} {s : Signature}

theorem Plan.BlockValid.visible_lt {b} (hb : p.BlockValid g live b) {before}
    (hbe : ∀ n ∈ before, n ∈ (g.block b).body) {x} (hx : Visible g (g.block b).params before x) :
    x < g.nodes.size := by
  rcases hx with hx | ⟨hx, _⟩
  · exact hb.params.lt hx
  · exact hb.lt x (hbe x hx)

namespace Translation

theorem visible_values {c : Cursor} {params base} (hv : c.Valid p params base)
    (hg : Extends c.graph g) {a} (ha : a ∈ c.frame.values) : Visible g params c.body.toList a :=
  (hv.held a (Cursor.Valid.mem_held_of_values ha)).mono hg (fun n hn => (hv.body_mem n hn).2) fun _ h => h

variable {b : BlockId}

section
variable (T : Translation m entries g p s live)
include T

theorem blockValid_of_live {pc} (hpc : pc ∈ live) (hb : p.outline.block? pc = some b) :
    p.BlockValid g live b := by
  obtain ⟨⟨d, base, c, exit, hr⟩, hp⟩ := T.built hpc hb
  obtain ⟨hv, hexi, _⟩ := hr.run.valid hr.valid
  have hlt : ∀ n ∈ c.body.toList, n < c.graph.nodes.size := fun n hn => (hv.body_mem n hn).2
  have hvi : ∀ {x}, Visible c.graph (g.block b).params c.body.toList x →
      Visible g (g.block b).params c.body.toList x := fun hx => hx.mono hr.graph hlt fun _ h => h
  have hca : ∀ {e}, p.Catches c.graph (g.block b).params c.body.toList e →
      p.Catches g (g.block b).params c.body.toList e := fun he =>
    he.extend hr.graph (fun n hn => hv.visible_lt hn) hlt
  refine
    { params := hp.numbered
      nodes := fun before n after hbo => ?_
      lt := fun n hn => ?_
      nodup := ?_
      inputs := ?_
      enters := ?_
      raise := ?_ }
  · rw [hr.body] at hbo
    have hme : ∀ x ∈ before, x ∈ c.body.toList := fun x hx => by
      rw [hbo]
      exact mem_append_left _ hx
    refine (hv.nodes before n after hbo).extend hr.graph (fun x hx => ?_)
      (fun x hx => hlt x (hme x hx)) (hlt n (by rw [hbo]; simp))
    exact hv.visible_lt (hx.mono (.refl _) (fun y hy => hlt y (hme y hy)) hme)
  · rw [hr.body] at hn
    exact Nat.lt_of_lt_of_le (hlt n hn) hr.graph.size
  · rw [hr.body]
    exact hv.nodup
  · rw [hr.body]
    have hc := hr.cont
    generalize (g.block b).cont = cont at hc
    cases hc with
    | jump _ _ => simp [Continuation.inputs]
    | branch _ _ _ _ =>
      intro x hx
      rcases mem_cons.mp hx with rfl | hx
      · exact hvi hexi.1
      · rw [mem_singleton.mp hx]
        exact hvi hexi.2
    | ret value =>
      cases value with
      | none => simp [Continuation.inputs]
      | some x =>
        intro y hy
        rw [mem_singleton.mp hy]
        exact hvi hexi
    | raise x handler =>
      intro y hy
      rw [mem_singleton.mp hy]
      exact hvi hexi.1
  · rw [hr.body]
    have hc := hr.cont
    generalize (g.block b).cont = cont at hc
    have hen : ∀ {target : Nat} {e : Edge}, target ∈ live → p.Enters g c.frame target e →
        ((∃ frame target, target ∈ live ∧ p.Enters g frame target e) ∨
          p.Catches g (g.block b).params c.body.toList e) ∧
        ∀ a ∈ e.args, Visible g (g.block b).params c.body.toList a := fun ht he =>
      ⟨.inl ⟨_, _, ht, he⟩, fun a ha => visible_values hv hr.graph (he.args ▸ ha)⟩
    cases hc with
    | jump ht he =>
      intro e hm
      rw [mem_singleton.mp hm]
      exact hen ht he
    | branch ht he ht' he' =>
      intro e hm
      rcases mem_cons.mp hm with rfl | hm
      · exact hen ht he
      · rw [mem_singleton.mp hm]
        exact hen ht' he'
    | ret value => simp [Continuation.edges]
    | raise x handler =>
      intro e hm
      have he := hca (hexi.2.2 e (Option.mem_toList.mp hm))
      exact ⟨.inr he, he.visible⟩
  · intro x handler hco
    have hc := hr.cont
    rw [hco] at hc
    cases hc
    rw [hr.graph.kindOf (hv.visible_lt hexi.1), hr.body]
    exact ⟨hexi.2.1, fun e he => hca (hexi.2.2 e he)⟩

theorem blockValid_entry : p.BlockValid g live entry := by
  obtain ⟨base, e, he⟩ := T.entered
  obtain ⟨d, hd, hin⟩ := T.inv
  have hs : g.signature = s := hd ▸ hin.signature
  have hp : (g.block entry).params = [] := hd ▸ hin.entry_params
  have hno : ∀ n ∈ (g.block entry).body, ∃ i k, p.context.localKinds[i]? = some k ∧
      g.node n = Draft.localNode s (k, i) := by
    intro n hn
    rw [he.body] at hn
    obtain ⟨hle, hlt⟩ := mem_range'_1.mp hn
    have hi : n - base < p.context.localKinds.length := Nat.sub_lt_left_of_lt_add hle hlt
    have hk := getElem?_eq_getElem hi
    refine ⟨n - base, _, hk, ?_⟩
    have := he.node (n - base) _ hk
    rw [Nat.add_sub_cancel' hle, hs] at this
    exact this
  have hv : ∀ n ∈ (g.block entry).body, (g.node n).hasValue = true := by
    intro n hn
    obtain ⟨i, k, _, hni⟩ := hno n hn
    rw [hni]
    unfold Draft.localNode Node.hasValue
    dsimp only
    split
    · next h => split at h <;> cases h
    · split <;> rfl
  refine
    { params := ⟨by simp [hp], by simp [hp]⟩
      nodes := fun before n after hb => ?_
      lt := fun n hn => ?_
      nodup := ?_
      inputs := by simp [he.cont, Continuation.inputs]
      enters := ?_
      raise := by simp [he.cont] }
  · obtain ⟨i, k, hk, hni⟩ := hno n (by rw [hb]; simp)
    rw [T.localKinds, Method.localKinds] at hk
    refine ⟨?_, ?_, ?_, ?_⟩ <;> rw [hni] <;> unfold Draft.localNode <;> dsimp only
    · split <;> simp [Operator.inputs]
    · split
      · next hlt =>
        rw [getElem?_append_left hlt] at hk
        rw [Operator.HasKind, hs]
        exact hk
      · exact rfl
    · simp
    · split
      · next hlt => exact Nat.lt_of_lt_of_le hlt T.few
      · trivial
  · rw [he.body] at hn
    exact Nat.lt_of_lt_of_le (mem_range'_1.mp hn).2 he.lt
  · rw [he.body]
    exact nodup_range'
  · rw [he.cont]
    intro e' hm
    rw [mem_singleton.mp hm]
    refine ⟨.inl ⟨_, _, he.live, he.enters⟩, fun a ha => .inr ?_⟩
    have hme : a ∈ (g.block entry).body := by
      rw [he.enters.args] at ha
      rw [he.body]
      simpa [Frame.values] using ha
    exact ⟨hme, hv a hme⟩

theorem catches_live {params before e} (he : p.Catches g params before e) :
    ∃ pc ∈ live, p.outline.block? pc = some e.target ∧
      (g.block e.target).params.map g.kindOf = e.args.map g.kindOf := by
  obtain ⟨h, hm, hb⟩ := he.handler
  have hen : h.entry ∈ entries := (T.mem_entries h.entry).mpr ⟨h, T.method ▸ hm, rfl⟩
  have hl := T.entries_live h.entry hen
  refine ⟨h.entry, hl, hb, ?_⟩
  obtain ⟨_, hp⟩ := T.built hl hb
  obtain ⟨d, rfl, hi⟩ := T.inv
  rw [he.kinds]
  refine hp.handler ?_
  rw [hi.flag h.entry e.target hb]
  exact contains_iff_mem.mpr hen

theorem edge_live (hb : p.BlockValid g live b) {before e} (he : g.Leaves b before e) :
    (∃ pc ∈ live, p.outline.block? pc = some e.target ∧
      (g.block e.target).params.map g.kindOf = e.args.map g.kindOf) ∧
    ∀ a ∈ e.args, Visible g (g.block b).params before a := by
  cases he with
  | catches hbo hh =>
    obtain ⟨_, hc⟩ := (hb.nodes _ _ _ hbo).catches e hh
    exact ⟨T.catches_live hc, hc.visible⟩
  | cont hm =>
    obtain ⟨⟨_, target, ht, hen⟩ | hc, ha⟩ := hb.enters e hm
    · exact ⟨⟨target, ht, hen.block, hen.kinds.symm⟩, ha⟩
    · exact ⟨T.catches_live hc, ha⟩

theorem blockValid (hb : b ∈ g.reachable) :
    p.BlockValid g live b ∧ (b = entry ∨ ∃ pc ∈ live, p.outline.block? pc = some b) := by
  refine reachable_induct ⟨T.blockValid_entry, .inl rfl⟩ (fun hb he => ?_) hb
  obtain ⟨before, hl⟩ := mem_edges.mp he
  obtain ⟨pc, hpc, hb, _⟩ := (T.edge_live hb.1 hl).1
  exact ⟨T.blockValid_of_live hpc hb, .inr ⟨pc, hpc, hb⟩⟩

theorem proper : g.Proper where
  entry_lt := by
    obtain ⟨d, rfl, hi⟩ := T.inv
    rw [hi.size]
    exact Nat.succ_pos _
  params hb := (T.blockValid hb).1.params
  body hb hn := (T.blockValid hb).1.lt _ hn
  inputs hb hn hx := by
    obtain ⟨before, after, hbo⟩ := append_of_mem hn
    have hv := (T.blockValid hb).1
    refine hv.visible_lt (fun y hy => ?_) ((hv.nodes before _ after hbo).inputs _ hx)
    rw [hbo]
    exact mem_append_left _ hy
  cont hb hx := (T.blockValid hb).1.visible_lt (fun _ h => h) ((T.blockValid hb).1.inputs _ hx)
  target hb he := by
    obtain ⟨before, hl⟩ := mem_edges.mp he
    obtain ⟨pc, hpc, hbl, _⟩ := (T.edge_live (T.blockValid hb).1 hl).1
    obtain ⟨d, rfl, hi⟩ := T.inv
    exact (hi.block_lt hbl).2
  arity hb he := by
    obtain ⟨before, hl⟩ := mem_edges.mp he
    obtain ⟨_, _, _, hk⟩ := (T.edge_live (T.blockValid hb).1 hl).1
    simpa using (congrArg List.length hk).symm
  args hb he ha := by
    obtain ⟨before, hl⟩ := mem_edges.mp he
    have hv := (T.blockValid hb).1
    exact hv.visible_lt hl.subset_body ((T.edge_live hv hl).2 _ ha)

theorem placed : g.Placed where
  nodup hb := (T.blockValid hb).1.nodup
  apart _ _ hn hn' := by
    obtain ⟨d, rfl, hi⟩ := T.inv
    exact hi.apart _ _ _ hn hn'
  op hb hn c i hop := by
    obtain ⟨before, after, hbo⟩ := append_of_mem hn
    have := ((T.blockValid hb).1.nodes before _ after hbo).hasKind
    rw [hop] at this
    exact this

theorem emptyScope : g.Scoped fun _ _ => False where
  entry _ h := h
  entry_params := by
    obtain ⟨d, rfl, hi⟩ := T.inv
    exact hi.entry_params
  inputs hb hbo x hx := .inr (((T.blockValid hb).1.nodes _ _ _ hbo).inputs x hx)
  cont hb x hx := .inr ((T.blockValid hb).1.inputs x hx)
  edge hb hl x hx := .inr ((T.edge_live (T.blockValid hb).1 hl).2 x (hx.resolve_right id))

theorem kinded : g.Kinded where
  body hb hn := by
    obtain ⟨before, after, hbo⟩ := append_of_mem hn
    exact ((T.blockValid hb).1.nodes before _ after hbo).hasKind
  edge b hb e he := by
    obtain ⟨before, hl⟩ := mem_edges.mp he
    obtain ⟨_, _, _, hk⟩ := (T.edge_live (T.blockValid hb).1 hl).1
    exact hk.symm
  raise hb hc := ((T.blockValid hb).1.raise _ _ hc).1

theorem plain (hm : m.handlers = []) : g.Plain := by
  have hc : ∀ {params before : List NodeId} {e : Edge}, ¬ p.Catches g params before e := by
    intro params before e he
    obtain ⟨h, hme, _⟩ := he.handler
    rw [T.method, hm] at hme
    cases hme
  refine ⟨T.proper, T.placed, fun {b n} hb hn => ?_, fun {b x handler} hb hco => ?_⟩
  · obtain ⟨before, after, hbo⟩ := append_of_mem hn
    refine Option.eq_none_iff_forall_ne_some.mpr fun e he => ?_
    exact hc (((T.blockValid hb).1.nodes before n after hbo).catches e he).2
  · refine Option.eq_none_iff_forall_ne_some.mpr fun e he => ?_
    exact hc (((T.blockValid hb).1.raise x handler hco).2 e he)

end

end Translation
end StackCompiler.Graph
