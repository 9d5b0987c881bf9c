/-
Predicting drains. A stack foresees that it drains within the next pushes when
they take it above its threshold. That is so as long as a drain comes before the
last place, which is kept for overflow (`Ready`), and as long as the sum of
pushes and cells fits 64 bits.
-/
import StackCompiler.Proofs.MarkingRuns

namespace StackCompiler

open List
namespace MarkingStack
variable {s t u : MarkingStack}

/-- From `s` to `t` a drain has visited a cell. -/
def DrainedSince (s t : MarkingStack) : Prop :=
  ∃ events c left, t.history = events ++ s.history ∧ .popped c left true ∈ events

theorem DrainedSince.mono (h : DrainedSince s t) (hu : t.history <:+ u.history) : DrainedSince s u := by
  obtain ⟨events, c, left, ht, hme⟩ := h
  obtain ⟨more, hm⟩ := hu
  exact ⟨more ++ events, c, left, by rw [← hm, ht, append_assoc], mem_append_right _ hme⟩

theorem not_drainedSince (h : t.history = s.history) : ¬ DrainedSince s t := by
  rintro ⟨events, c, left, ht, hm⟩
  have hn : events = [] := by simpa [h] using ht
  simp [hn] at hm

/-- No drain is under way, and the threshold is passed before the last place is taken. -/
structure Ready (v : Visitor) (s : MarkingStack) : Prop where
  draining : s.draining = false
  visitor : s.visitor = some v
  below : s.size ≤ s.threshold
  room : s.threshold + 1 < s.capacity

theorem willDrain_iff {n} (hd : s.draining = false) (h : s.size + n.toNat < UInt64.size) :
    s.willDrain n = true ↔ s.threshold < s.size + n.toNat := by
  have hm : (s.size + n.toNat) % UInt64.size = s.size + n.toNat := Nat.mod_eq_of_lt h
  simp [willDrain, hd, hm]

end MarkingStack

namespace Marking
open MarkingStack
variable {s t u : MarkingStack} {v : Visitor} {fuel : Nat} {c : Cell} {r : Except MarkingError Unit}
  {log : List (MarkingStep × MarkingReply)}

/-- Whatever the next `n` pushes are, they end, and drain exactly when it was foreseen. -/
def Foresees (s : MarkingStack) (n : UInt64) : Prop :=
  ∀ cells : List Cell, cells.length = n.toNat → (∃ log t, log.map Prod.fst = cells.map .push ∧ Run s log t) ∧
    ∀ log t, log.map Prod.fst = cells.map .push → Run s log t → (s.willDrain n = true ↔ DrainedSince s t)

/-! ## A visitor that pushes nothing -/

theorem pushAll_nil (h : Ends (pushAll fuel []) s r t) : r = .ok () ∧ t = s := by
  obtain ⟨fuel, rfl⟩ := exists_fuel (f := (pushAll · [])) h rfl
  exact ends_pure.mp h

section
variable (hv : ∀ history c, v history c = [])
include hv

theorem drainWith_quiet : ∀ {fuel : Nat} {s : MarkingStack}, Ends (drainWith fuel v) s r t → s.draining = true →
    r = .ok () ∧ t.cells = [] ∧ ((s.cells = [] ∧ t = s) ∨ DrainedSince s t)
  | 0, _, h, _ => absurd h not_ends_outOfFuel
  | fuel + 1, s, h, hd => by
    obtain ⟨hc, rfl, rfl⟩ | ⟨c, cells, history, hc, hh, h⟩ := drainWith_ends h
    · exact ⟨rfl, hc, .inl ⟨hc, rfl⟩⟩
    rw [hv] at h
    obtain ⟨u, hp, h⟩ | ⟨e, hp, -⟩ := h
    · obtain ⟨-, rfl⟩ := pushAll_nil hp
      obtain ⟨hr, ht, hvi⟩ := drainWith_quiet h hd
      have hf : DrainedSince s { s with cells, history } :=
        ⟨[.popped c cells.length true], c, cells.length, by rw [hh, hd]; rfl, mem_singleton_self _⟩
      refine ⟨hr, ht, .inr ?_⟩
      obtain ⟨-, rfl⟩ | ⟨events, -, -, he, -⟩ := hvi
      · exact hf
      · exact hf.mono ⟨events, he.symm⟩
    · cases (pushAll_nil hp).1

theorem exists_drainWith : ∀ (cells : List Cell) (s : MarkingStack), s.cells = cells →
    ∃ t, Ends (drainWith (cells.length + 1) v) s (.ok ()) t
  | [], s, hc => ⟨_, by simp only [drainWith, ends_bind_ok (run_pop s), hc]; exact ends_pure.mpr ⟨rfl, rfl⟩⟩
  | c :: cells, s, hc => by
    obtain ⟨t, h⟩ := exists_drainWith cells
      { s with cells, history := .popped c cells.length s.draining :: s.history } rfl
    refine ⟨t, ?_⟩
    rw [length_cons, drainWith, ends_bind_ok (run_pop s)]
    simp only [hc, head?_cons, ends_get_bind, ends_set_bind, hv]
    exact ends_bind_eq_ok.mpr ⟨(), _, ends_pure.mpr ⟨rfl, rfl⟩, h⟩

theorem exists_drain (hs : s.visitor = some v) : ∃ fuel t, Ends (drain fuel) s (.ok ()) t := by
  obtain ⟨t, h⟩ := exists_drainWith hv s.cells { s with visitor := none, draining := true } rfl
  refine ⟨s.cells.length + 2, { t with draining := false, visitor := some v }, ?_⟩
  simp only [drain]
  refine ends_bind_eq_ok.mpr ⟨v, { s with visitor := none }, ?_, ?_⟩
  · simp only [takeVisitor, ends_get_bind, hs]
    exact ends_pure.mpr ⟨rfl, rfl⟩
  · rw [ends_modify_bind]
    exact ends_attempt_bind.mpr ⟨_, t, h, ends_modify_bind.mpr (ends_pure.mpr ⟨rfl, rfl⟩)⟩

/-! ## Pushes below the threshold -/

variable (hs : s.Ready v)
include hs

theorem drain_ready {cells} (h : Ends (drain fuel) { s with cells := c :: cells } r t) :
    r = .ok () ∧ t.Ready v ∧ t.cells = [] ∧ DrainedSince s t := by
  have hro : t.threshold + 1 < t.capacity := by
    cases (restored_of_ends fuel).2.2.2.1 h fun hd => by simp [hs.draining] at hd
    exact hs.room
  obtain ⟨fuel, rfl⟩ := exists_fuel h rfl
  obtain ⟨hn, -⟩ | ⟨w, u, hw, hl, rfl⟩ := drain_ends h
  · simp [hs.visitor] at hn
  · obtain rfl : v = w := by simpa [hs.visitor] using hw
    obtain ⟨hr, hc, ⟨hni, -⟩ | hvi⟩ := drainWith_quiet hv hl rfl
    · cases hni
    · exact ⟨hr, ⟨rfl, rfl, by simp [size, hc], hro⟩, hc, hvi⟩

/-- A push stores, and drains when the stack is at its threshold. -/
theorem push_ready (h : Ends (push fuel c) s r t) : r = .ok () ∧ t.Ready v ∧
    ((s.size < s.threshold ∧ t = { s with cells := c :: s.cells }) ∨ (s.size = s.threshold ∧ DrainedSince s t)) := by
  have hb := hs.below
  have hro := hs.room
  obtain ⟨fuel, rfl⟩ := exists_fuel (f := (push · c)) h rfl
  obtain ⟨hf, -⟩ | ⟨hl, -⟩ | ⟨-, hp, -, h⟩ | ⟨-, hst, rfl, rfl⟩ := push_ends h
  · omega
  · omega
  · obtain ⟨hr, ht, -, hd⟩ := drain_ready hv hs h
    exact ⟨hr, ht, .inr ⟨by omega, hd⟩⟩
  · have hlt : s.size < s.threshold := Nat.not_le.mp fun hle => hst ⟨by omega, hs.draining⟩
    exact ⟨rfl, ⟨hs.draining, hs.visitor, hlt, hro⟩, .inl ⟨hlt, rfl⟩⟩

theorem exists_push (c : Cell) : ∃ fuel t, Ends (push fuel c) s (.ok ()) t := by
  have hb := hs.below
  have hr := hs.room
  obtain ⟨fuel, t, h⟩ := @exists_drain { s with cells := c :: s.cells } v hv hs.visitor
  by_cases hlt : s.size < s.threshold
  · refine ⟨1, { s with cells := c :: s.cells }, ?_⟩
    simp only [push, ends_get_bind]
    rw [if_neg (by omega), ends_set_bind, if_neg (by omega), if_neg fun hp => by omega]
    exact ends_pure.mpr ⟨rfl, rfl⟩
  · refine ⟨fuel + 1, t, ?_⟩
    simp only [push, ends_get_bind]
    rw [if_neg (by omega), ends_set_bind, if_neg (by omega), if_pos ⟨by omega, hs.draining⟩]
    exact h

end

/-! ## Runs of pushes -/

section
variable (hv : ∀ history c, v history c = [])
include hv

theorem exists_run : ∀ (cells : List Cell) {s : MarkingStack}, s.Ready v →
    ∃ log t, log.map Prod.fst = cells.map .push ∧ Run s log t
  | [], s, _ => ⟨[], s, rfl, .nil s⟩
  | c :: cells, s, hs => by
    obtain ⟨fuel, u, hp⟩ := exists_push hv hs c
    obtain ⟨log, t, hl, hr⟩ := exists_run cells (push_ready hv hs hp).2.1
    have ha : Ends (answer (fuel + 1) (.push c)) s (.ok (reply (.ok ()))) u := ends_reply.mpr ⟨_, hp, rfl⟩
    exact ⟨(.push c, .done) :: log, t, by rw [map_cons, hl, map_cons], .cons ha hr⟩

theorem Run.drained_iff (h : Run s log t) (hs : s.Ready v) {cells : List Cell}
    (hl : log.map Prod.fst = cells.map .push) : s.size + cells.length > s.threshold ↔ DrainedSince s t := by
  induction h generalizing cells with
  | nil s =>
    have hb := hs.below
    obtain rfl : cells = [] := by simpa using hl.symm
    exact ⟨fun h => by rw [length_nil] at h; omega, fun h => absurd h (not_drainedSince rfl)⟩
  | cons first rest ih =>
    obtain _ | ⟨c, cells⟩ := cells
    · cases hl
    obtain ⟨rfl, hre⟩ := cons.inj hl
    obtain ⟨fuel, ha⟩ := answers_of_ends first
    cases ha with
    | push hp =>
      obtain ⟨-, hu, ⟨-, rfl⟩ | ⟨heq, hdr⟩⟩ := push_ready hv hs hp
      · rw [length_cons, ← Nat.add_assoc, Nat.add_right_comm]
        exact ih hu hre
      · have hr := rest.restored fun hd => by simp [hu.draining] at hd
        exact ⟨fun _ => hdr.mono hr.history, fun _ => by rw [length_cons]; omega⟩

/-- A stack that is ready foresees its drains as far as it can count. -/
theorem foresees_iff_of_ready (hs : s.Ready v) (hc : s.threshold < UInt64.size) (n : UInt64) :
    Foresees s n ↔ s.size + n.toNat < UInt64.size := by
  constructor
  · intro h
    refine Nat.not_le.mp fun hle => ?_
    have hcells : (replicate n.toNat 0).length = n.toNat := length_replicate
    obtain ⟨⟨log, t, hl, hr⟩, hi⟩ := h (replicate n.toNat 0) hcells
    have hd : s.willDrain n = true := (hi log t hl hr).mpr ((hr.drained_iff hv hs hl).mp (by omega))
    have hb := hs.below
    have hn := n.toNat_lt_size
    have hm : (s.size + n.toNat) % UInt64.size = s.size + n.toNat - UInt64.size := by
      rw [Nat.mod_eq_sub_mod hle, Nat.mod_eq_of_lt (by omega)]
    simp [willDrain, hs.draining, hm] at hd
    omega
  · intro h cells hn
    refine ⟨exists_run hv cells hs, fun log t hl hr => ?_⟩
    rw [willDrain_iff hs.draining h, ← hr.drained_iff hv hs hl, hn]

theorem Run.ready (h : Run s log t) (hs : s.Ready v) (hl : ∀ entry ∈ log, entry.1 = .pop ∨ ∃ c, entry.1 = .push c) :
    t.Ready v := by
  induction h with
  | nil => exact hs
  | cons first rest ih =>
    obtain ⟨hst, hl⟩ := forall_mem_cons.mp hl
    obtain ⟨fuel, ha⟩ := answers_of_ends first
    refine ih ?_ hl
    obtain rfl | ⟨c, rfl⟩ := hst
    · cases ha
      exact ⟨hs.draining, hs.visitor, Nat.le_trans (by simp [size]) hs.below, hs.room⟩
    · cases ha with
      | push hp => exact (push_ready hv hs hp).2.1

end

/-! ## Pushes up to the last place -/

theorem Run.crowded (h : Run s log t) (hr : s.recovery = none) (hro : s.capacity ≤ s.threshold + 1) {cells : List Cell}
    (hl : log.map Prod.fst = cells.map .push) : t.history = s.history := by
  induction h generalizing cells with
  | nil => rfl
  | cons first rest ih =>
    obtain _ | ⟨c, cells⟩ := cells
    · cases hl
    obtain ⟨rfl, hre⟩ := cons.inj hl
    obtain ⟨fuel, ha⟩ := answers_of_ends first
    cases ha with
    | push h =>
      obtain ⟨fuel, rfl⟩ := exists_fuel (f := (push · c)) h rfl
      obtain ⟨-, -, rfl⟩ | ⟨-, h⟩ | ⟨hf, hp, -, -⟩ | ⟨-, -, -, rfl⟩ := push_ends h
      · exact ih hr hro hre
      · obtain ⟨fuel, rfl⟩ := exists_fuel h rfl
        obtain ⟨-, rfl⟩ | ⟨recovery, u, -, hso, -⟩ := overflow_ends h
        · exact ih hr hro hre
        · simp [hr] at hso
      · omega
      · exact ih hr hro hre

theorem room_of_foresees (h : ∀ n : UInt64, s.size + n.toNat < UInt64.size → Foresees s n) (hd : s.draining = false)
    (hr : s.recovery = none) (hc : s.size + s.threshold + 1 < UInt64.size) :
    s.size ≤ s.threshold ∧ s.threshold + 1 < s.capacity := by
  constructor
  · refine Nat.not_lt.mp fun hlt => not_drainedSince rfl (((h 0 ?_ [] rfl).2 [] s rfl (.nil s)).mp ?_)
    · simp only [UInt64.toNat_zero]
      omega
    · exact (willDrain_iff hd (by simp only [UInt64.toNat_zero]; omega)).mpr hlt
  · refine Nat.not_le.mp fun hro => ?_
    have hn : (UInt64.ofNat (s.threshold + 1)).toNat = s.threshold + 1 := UInt64.toNat_ofNat_of_lt' (by omega)
    have hlt : s.size + (UInt64.ofNat (s.threshold + 1)).toNat < UInt64.size := by omega
    obtain ⟨⟨log, t, hl, hru⟩, hi⟩ := h _ hlt (replicate (s.threshold + 1) 0) (by rw [length_replicate, hn])
    exact not_drainedSince (hru.crowded hr hro hl) ((hi log t hl hru).mp ((willDrain_iff hd hlt).mpr (by omega)))

/-- **When a stack foresees its drains.** Cells were pushed and popped, before and after the stack
got a visitor that pushes nothing. If the threshold leaves more than the last place and is not
passed, the next pushes end and drain exactly when the stack says so, as far as it can count in 64
bits. Without a recovery this is also the only case. A stack that had its visitor from the beginning
is never above such a threshold. -/
theorem drains_foreseen_iff (capacity percent : Nat) (hc : 2 ≤ capacity) (hm : capacity * 100 < UInt64.size)
    (v : Visitor) (hv : ∀ history c, v history c = []) :
    ∃ s₀, MarkingStack.create capacity percent = .ok s₀ ∧ ∀ recovery before u log s,
      Run { s₀ with recovery } before u → Run { u with visitor := some v } log s →
      (∀ entry ∈ before ++ log, entry.1 = .pop ∨ ∃ c, entry.1 = .push c) →
      s.draining = false ∧ s.threshold = capacity * min percent 100 / 100 ∧
      (s.size ≤ s.threshold ∧ s.threshold + 1 < capacity → ∀ n, Foresees s n ↔ s.size + n.toNat < UInt64.size) ∧
      (recovery = none → (∀ n, s.size + n.toNat < UInt64.size → Foresees s n) →
        s.size ≤ s.threshold ∧ s.threshold + 1 < capacity) ∧
      (before = [] → s.threshold + 1 < capacity → s.size ≤ s.threshold) := by
  refine ⟨_, if_neg (by omega), ?_⟩
  intro recovery before u log s hb hl hst
  obtain ⟨hfits⟩ := hb.restored fun hd => by cases hd
  obtain ⟨hfits'⟩ := hl.restored fun hd => by cases hd
  have hle := hfits' (hfits (Nat.zero_le _))
  have hth : capacity * min percent 100 / 100 ≤ capacity :=
    Nat.div_le_of_le_mul (by rw [Nat.mul_comm 100]; exact Nat.mul_le_mul_left _ (Nat.min_le_right _ _))
  refine ⟨rfl, rfl, fun ⟨hbe, hro⟩ => ?_, fun hr h => ?_, fun hn hro => ?_⟩
  · exact foresees_iff_of_ready hv ⟨rfl, rfl, hbe, hro⟩ (by dsimp only; omega)
  · exact room_of_foresees h rfl hr (by dsimp only [size] at hle ⊢; omega)
  · subst hn
    cases hb
    exact (hl.ready hv ⟨rfl, rfl, Nat.zero_le _, hro⟩ hst).below

/-- With room for eight cells, the stack is at its threshold after six pushes. It is wrong about the
most pushes that can be asked for. -/
theorem drains_foreseen_eight : ∃ s, Run { capacity := 8, threshold := 6, visitor := some fun _ _ => [] }
    ([1, 2, 3, 4, 5, 6].map fun c => (.push c, .done)) s ∧ s.size = 6 ∧ Foresees s 0 ∧ Foresees s 1 ∧
    ¬ Foresees s 18446744073709551615 := by
  obtain ⟨_, hs₀, h⟩ := drains_foreseen_iff 8 75 (by decide) (by decide) (fun _ _ => []) fun _ _ => rfl
  cases hs₀
  have hr : Run { capacity := 8, threshold := 6, visitor := some fun _ _ => [] }
      ([1, 2, 3, 4, 5, 6].map fun c => (.push c, .done)) _ :=
    @Run.cons 3 _ _ _ _ _ _ rfl (@Run.cons 3 _ _ _ _ _ _ rfl (@Run.cons 3 _ _ _ _ _ _ rfl
      (@Run.cons 3 _ _ _ _ _ _ rfl (@Run.cons 3 _ _ _ _ _ _ rfl (@Run.cons 3 _ _ _ _ _ _ rfl (.nil _))))))
  obtain ⟨-, -, hf, -⟩ := h none [] _ _ _ (.nil _) hr (by simp)
  have hf := hf (by decide)
  exact ⟨_, hr, rfl, (hf 0).mpr (by decide), (hf 1).mpr (by decide), fun h => absurd ((hf _).mp h) (by decide)⟩

/-- With room for four cells, the fourth push takes the last place: a drain is foreseen, but it overflows. -/
theorem last_place_not_foreseen : ∃ s t, Run { capacity := 4, threshold := 3, visitor := some fun _ _ => [] }
    [(.push 1, .done), (.push 2, .done), (.push 3, .done)] s ∧
    MarkingStack.create 4 75 = .ok { capacity := 4, threshold := 3 } ∧
    s.draining = false ∧ s.willDrain 1 = true ∧ Run s [(.push 4, .failed (.overflow 4))] t ∧ ¬ DrainedSince s t :=
  ⟨_, _, @Run.cons 3 _ _ _ _ _ _ rfl (@Run.cons 3 _ _ _ _ _ _ rfl (@Run.cons 3 _ _ _ _ _ _ rfl (.nil _))), rfl, rfl,
    rfl, @Run.cons 3 _ _ _ _ _ _ rfl (.nil _), not_drainedSince rfl⟩

end Marking
end StackCompiler
