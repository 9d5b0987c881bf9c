/-
Depth-first search finds what can be reached, each number once, and every visited
number before those that were first found from it. What lies below a number on
the stack stays until all that was found from it is finished (`Found`); meanwhile
numbers are added to the order (`Explored`).
-/
import StackCompiler.Search

namespace StackCompiler

open List

/-- `b` can be reached from `root`. -/
inductive Reaches (next : Nat → List Nat) (root : Nat) : Nat → Prop
  | refl : Reaches next root root
  | step {a b} : Reaches next root a → b ∈ next a → Reaches next root b

theorem Reaches.head {next a b c} (hab : b ∈ next a) (h : Reaches next b c) :
    Reaches next a c := by
  induction h with
  | refl => exact .step .refl hab
  | step _ hm ih => exact .step ih hm

/-- A way from `root` to the first of the numbers, against its direction. -/
inductive Way (next : Nat → List Nat) (root : Nat) : List Nat → Prop
  | root : Way next root [root]
  | step {a b rest} : Way next root (a :: rest) → b ∈ next a → Way next root (b :: a :: rest)

theorem Way.reaches {next root path} (h : Way next root path) : ∃ b rest, path = b :: rest ∧ Reaches next root b := by
  induction h with
  | root => exact ⟨_, _, rfl, .refl⟩
  | step _ hb ih =>
    obtain ⟨_, _, ⟨⟩, hr⟩ := ih
    exact ⟨_, _, rfl, hr.step hb⟩

theorem Way.head {next root r path} (h : Way next r path) (hr : r ∈ next root) : Way next root (path ++ [root]) := by
  induction h with
  | root => exact .step .root hr
  | step _ hb ih => exact .step ih hb

namespace Search

/-- What a search that began in `s` has added when it comes to `s'`. -/
structure Explored (next : Nat → List Nat) (roots : List Nat) (s s' : Search) (new : List Nat) : Prop where
  order : s'.order = new ++ s.order
  seen : ∀ k, s'.isSeen k = true ↔ s.isSeen k = true ∨ k ∈ new
  fresh : ∀ k ∈ new, ¬ s.isSeen k = true
  nodup : new.Nodup
  closed : ∀ k ∈ new, ∀ m ∈ next k, s'.isSeen m = true
  ways : ∀ k ∈ new, ∃ r ∈ roots, ∃ rest, Way next r (k :: rest) ∧ ∀ x ∈ rest, [x, k] <+ new
  forward : ∀ k ∈ new, ∀ m ∈ next k, s.isSeen m = true ∨ [k, m] <+ new ∨ Reaches next m k
  count : s'.unseen.length + new.length = s.unseen.length
  size : s'.seen.size = s.seen.size

variable {next : Nat → List Nat}

theorem Explored.refl (roots : List Nat) (s : Search) : Explored next roots s s [] where
  order := rfl
  seen := by simp
  fresh := by simp
  nodup := nodup_nil
  closed := by simp
  ways := by simp
  forward := by simp
  count := rfl
  size := rfl

variable {new roots : List Nat} {s s' : Search} {k n size : Nat}

theorem Explored.trans {s'' new'} (h : Explored next roots s s' new) (h' : Explored next roots s' s'' new') :
    Explored next roots s s'' (new' ++ new) where
  order := by rw [h'.order, h.order, append_assoc]
  seen k := by
    rw [h'.seen, h.seen, mem_append, or_assoc, or_comm (a := k ∈ new)]
  fresh := forall_mem_append.mpr ⟨fun k hk hs => h'.fresh k hk ((h.seen k).mpr (.inl hs)), h.fresh⟩
  nodup := by
    refine nodup_append.mpr ⟨h'.nodup, h.nodup, fun a ha b hb hab => ?_⟩
    exact h'.fresh a ha ((h.seen a).mpr (.inr (hab ▸ hb)))
  closed := forall_mem_append.mpr ⟨h'.closed, fun k hk m hm => (h'.seen m).mpr (.inl (h.closed k hk m hm))⟩
  ways k hk := by
    rcases mem_append.mp hk with hk | hk
    · obtain ⟨r, hr, rest, hw, hb⟩ := h'.ways k hk
      exact ⟨r, hr, rest, hw, fun x hx => (hb x hx).trans (sublist_append_left ..)⟩
    · obtain ⟨r, hr, rest, hw, hb⟩ := h.ways k hk
      exact ⟨r, hr, rest, hw, fun x hx => (hb x hx).trans (sublist_append_right ..)⟩
  forward k hk m hm := by
    rcases mem_append.mp hk with hk | hk
    · rcases h'.forward k hk m hm with hs | hl | hr
      · refine ((h.seen m).mp hs).imp_right fun hm => .inl ?_
        exact (singleton_sublist.mpr hk).append (singleton_sublist.mpr hm)
      · exact .inr (.inl (hl.trans (sublist_append_left ..)))
      · exact .inr (.inr hr)
    · exact (h.forward k hk m hm).imp_right (Or.imp_left fun hl => hl.trans (sublist_append_right ..))
  count := by
    have h₁ := h.count
    have h₂ := h'.count
    rw [length_append]
    omega
  size := h'.size.trans h.size

theorem Explored.mono {roots'} (h : Explored next roots s s' new) (hr : ∀ r ∈ roots, r ∈ roots') :
    Explored next roots' s s' new :=
  { h with ways := fun k hk => let ⟨r, hm, hp⟩ := h.ways k hk; ⟨r, hr r hm, hp⟩ }

theorem Explored.reached (h : Explored next roots s s' new) (hk : k ∈ new) : ∃ r ∈ roots, Reaches next r k := by
  obtain ⟨r, hr, rest, hw, -⟩ := h.ways k hk
  obtain ⟨_, _, ⟨⟩, hre⟩ := hw.reaches
  exact ⟨r, hr, hre⟩

/-! ## Marking -/

section
variable (h : s.isSeen n = false)
include h

theorem length_unseen_mark : (s.mark n).unseen.length + 1 = s.unseen.length := (unseen_perm h).length_eq.symm

theorem Explored.finish (hne : Explored next (next n) (s.mark n) s' new) (hnex : ∀ m ∈ next n, s'.isSeen m = true) :
    Explored next [n] s { s' with order := n :: s'.order } (n :: new) where
  order := by rw [hne.order]; rfl
  seen k := by
    refine (hne.seen k).trans ?_
    rw [isSeen_mark h, mem_cons, or_assoc]
  fresh := forall_mem_cons.mpr
    ⟨Bool.not_eq_true _ ▸ h, fun k hk hs => hne.fresh k hk ((isSeen_mark h k).mpr (.inl hs))⟩
  nodup := nodup_cons.mpr ⟨fun hn => hne.fresh n hn ((isSeen_mark h n).mpr (.inr rfl)), hne.nodup⟩
  closed := forall_mem_cons.mpr ⟨hnex, hne.closed⟩
  ways k hk := by
    refine ⟨n, mem_singleton.mpr rfl, ?_⟩
    rcases mem_cons.mp hk with rfl | hk
    · exact ⟨[], .root, by simp⟩
    · obtain ⟨r, hr, rest, hw, hb⟩ := hne.ways k hk
      exact ⟨rest ++ [n], hw.head hr, forall_mem_append.mpr ⟨fun x hx => .cons _ (hb x hx),
        forall_mem_singleton.mpr (.cons_cons _ (singleton_sublist.mpr hk))⟩⟩
  forward k hk m hm := by
    rcases mem_cons.mp hk with rfl | hk
    · rcases (hne.seen m).mp (hnex m hm) with hs | hl
      · exact ((isSeen_mark h m).mp hs).imp_right fun (hm : m = k) => .inr (hm ▸ .refl)
      · exact .inr (.inl (.cons_cons _ (singleton_sublist.mpr hl)))
    · rcases hne.forward k hk m hm with hs | hl | hr
      · refine ((isSeen_mark h m).mp hs).imp_right fun hm => .inr ?_
        obtain ⟨r, hr, hp⟩ := hne.reached hk
        exact hm ▸ hp.head hr
      · exact .inr (.inl (.cons _ hl))
      · exact .inr (.inr hr)
  count := by
    have h₁ := hne.count
    have h₂ := length_unseen_mark h
    change s'.unseen.length + (new.length + 1) = s.unseen.length
    omega
  size := hne.size.trans Array.size_setIfInBounds

end

/-! ## The stack -/

/-- What a search has done when it is done with some numbers, whatever waits below them. -/
structure Found (next : Nat → List Nat) (ms : List Nat) (s s' : Search) : Prop where
  walk : ∀ stack, walk next s (ms.map (·, false) ++ stack) = walk next s' stack
  explored : ∃ new, Explored next ms s s' new
  seen : ∀ m ∈ ms, s'.isSeen m = true

theorem Found.of_seen (h : s.isSeen n = true) : Found next [n] s s where
  walk stack := by rw [map_cons, map_nil, singleton_append, Search.walk, if_pos h]
  explored := ⟨[], .refl _ s⟩
  seen := forall_mem_singleton.mpr h

/-- A number is finished when all that comes next to it is found. -/
theorem Found.finish (h : s.isSeen n = false)
    (hf : Found next ((next n).filter (!(s.mark n).isSeen ·)) (s.mark n) s') :
    Found next [n] s { s' with order := n :: s'.order } := by
  obtain ⟨new, hn⟩ := hf.explored
  refine ⟨fun stack => ?_, ⟨n :: new, (hn.mono fun r hr => (mem_filter.mp hr).1).finish h fun m hm => ?_⟩,
    forall_mem_singleton.mpr ((hn.seen n).mpr (.inl ((isSeen_mark h n).mpr (.inr rfl))))⟩
  · rw [map_cons, map_nil, singleton_append, Search.walk, if_neg (by simp [h]), hf.walk, Search.walk]
  · cases hs : (s.mark n).isSeen m with
    | true => exact (hn.seen m).mpr (.inl hs)
    | false => exact hf.seen m (mem_filter.mpr ⟨hm, by simp [hs]⟩)

theorem Found.cons {ms s''} (h : Found next [n] s s') (h' : Found next ms s' s'') : Found next (n :: ms) s s'' := by
  obtain ⟨new, hn⟩ := h.explored
  obtain ⟨new', hn'⟩ := h'.explored
  refine ⟨fun stack => (h.walk _).trans (h'.walk stack), ⟨new' ++ new, ?_⟩, forall_mem_cons.mpr ⟨?_, h'.seen⟩⟩
  · exact (hn.mono fun r hr => mem_cons.mpr (.inl (mem_singleton.mp hr))).trans
      (hn'.mono fun r hr => mem_cons_of_mem _ hr)
  · exact (hn'.seen n).mpr (.inl (h.seen n mem_cons_self))

/-- The search is done with any numbers at some time. Each that it marks leaves fewer unseen. -/
theorem exists_found (ms : List Nat) (s : Search) : ∃ s', Found next ms s s' :=
  match ms with
  | [] => ⟨s, fun _ => rfl, ⟨[], .refl _ s⟩, by simp⟩
  | n :: ms => by
    obtain ⟨s₁, h₁⟩ : ∃ s₁, Found next [n] s s₁ := by
      cases h : s.isSeen n with
      | true => exact ⟨s, .of_seen h⟩
      | false =>
        have hm := length_unseen_mark h
        obtain ⟨s', hs'⟩ := exists_found ((next n).filter (!(s.mark n).isSeen ·)) (s.mark n)
        exact ⟨_, hs'.finish h⟩
    obtain ⟨new, hn⟩ := h₁.explored
    have hc := hn.count
    obtain ⟨s₂, h₂⟩ := exists_found ms s₁
    exact ⟨s₂, h₁.cons h₂⟩
termination_by (s.unseen.length, ms.length)
decreasing_by
  · rw [Prod.lex_def]
    dsimp only
    omega
  · rw [Prod.lex_def, length_cons]
    dsimp only
    omega

/-! ## Whole searches -/

theorem isSeen_start (size k : Nat) : ¬ (start size).isSeen k = true ↔ k < size := by
  simp only [start, isSeen, Array.getD_eq_getD_getElem?, Array.getElem?_replicate]
  by_cases h : k < size <;> simp [h]

theorem run_explored (size : Nat) (roots : List Nat) :
    Explored next roots (start size) (run size next roots) (run size next roots).order ∧
      ∀ r ∈ roots, (run size next roots).isSeen r = true := by
  obtain ⟨s, h⟩ := @exists_found next roots (start size)
  have hr : run size next roots = s := by rw [run, ← append_nil (roots.map _), h.walk, walk]
  obtain ⟨new, hn⟩ := h.explored
  have ho : s.order = new := hn.order.trans (append_nil new)
  rw [hr]
  exact ⟨ho ▸ hn, h.seen⟩

theorem size_run (size : Nat) (roots : List Nat) : (run size next roots).seen.size = size :=
  (run_explored size roots).1.size.trans Array.size_replicate

theorem mem_run_order :
    k ∈ (run size next roots).order ↔ k < size ∧ (run size next roots).isSeen k = true := by
  obtain ⟨h, -⟩ := @run_explored next size roots
  rw [h.seen k]
  constructor
  · intro hk
    exact ⟨(isSeen_start size k).mp (h.fresh k hk), .inr hk⟩
  · rintro ⟨hlt, hs | hk⟩
    · exact absurd hs ((isSeen_start size k).mpr hlt)
    · exact hk

theorem getD_run_seen :
    (run size next roots).seen.getD k false = true ↔ k ∈ (run size next roots).order := by
  rw [mem_run_order, isSeen, Array.getD_eq_getD_getElem?, Array.getD_eq_getD_getElem?]
  by_cases hk : k < size
  · have hlt : k < (run size next roots).seen.size := by rwa [size_run]
    simp only [Array.getElem?_eq_getElem hlt, Option.getD_some, hk, true_and]
  · have hge : (run size next roots).seen.size ≤ k := by rw [size_run]; omega
    simp [Array.getElem?_eq_none hge, hk]

theorem run_order_nodup (size : Nat) (roots : List Nat) : (run size next roots).order.Nodup :=
  (run_explored size roots).1.nodup

theorem run_order_closed {m} (hk : k ∈ (run size next roots).order) (hm : m ∈ next k) (hlt : m < size) :
    m ∈ (run size next roots).order :=
  mem_run_order.mpr ⟨hlt, (run_explored size roots).1.closed k hk m hm⟩

theorem root_mem_run_order {r} (hr : r ∈ roots) (hlt : r < size) :
    r ∈ (run size next roots).order :=
  mem_run_order.mpr ⟨hlt, (run_explored size roots).2 r hr⟩

theorem reaches_of_mem_run_order (hk : k ∈ (run size next roots).order) :
    ∃ r ∈ roots, Reaches next r k := (run_explored size roots).1.reached hk

theorem way_of_mem_run_order (hk : k ∈ (run size next roots).order) :
    ∃ r ∈ roots, ∃ rest, Way next r (k :: rest) ∧ ∀ x ∈ rest, [x, k] <+ (run size next roots).order :=
  (run_explored size roots).1.ways k hk

theorem run_order_forward {m} (hk : k ∈ (run size next roots).order) (hm : m ∈ next k) (hlt : m < size)
    (hr : ¬ Reaches next m k) : [k, m] <+ (run size next roots).order := by
  rcases (run_explored size roots).1.forward k hk m hm with hs | hl | hc
  · exact absurd hs ((isSeen_start size m).mpr hlt)
  · exact hl
  · exact absurd hc hr

theorem run_order_head {r} (hlt : r < size) :
    ∃ rest, (run size next [r]).order = r :: rest := by
  have hs := eq_false_of_ne_true ((isSeen_start size r).mpr hlt)
  obtain ⟨s, h⟩ := exists_found ((next r).filter (!((start size).mark r).isSeen ·)) ((start size).mark r)
  refine ⟨s.order, ?_⟩
  rw [run, ← append_nil ([r].map _), (h.finish hs).walk, walk]

end Search
end StackCompiler
