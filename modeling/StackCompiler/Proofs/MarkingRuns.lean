/-
Runs of a marking stack. The visitor and the recovery call back into the stack,
so what an operation keeps is proved of all operations at once, by induction on
fuel (`restored_of_ends`). While a drain is under way a push only stores
(`drain_eq_drainStoring`), so a drain turns pushes into visits (`Balanced`).
-/
import StackCompiler.Collector.MarkingStack

namespace StackCompiler

open List
namespace Marking
variable {α β : Type} {s t : MarkingStack}

/-! ## Outcomes -/

/-- A computation ends with a result in a state. -/
def Ends (x : Marking α) (s : MarkingStack) (r : Except MarkingError α) (t : MarkingStack) : Prop :=
  x.run.run s = some (r, t)

variable {fuel : Nat} {r : Except MarkingError Unit} {x : Marking α}

theorem run_bind (x : Marking α) (f : α → Marking β) :
    (x >>= f).run.run s = (x.run.run s).bind fun p => (ExceptT.bindCont f p.1).run p.2 := rfl

theorem ends_bind {f : α → Marking β} {r} :
    Ends (x >>= f) s r t ↔ (∃ a u, Ends x s (.ok a) u ∧ Ends (f a) u r t) ∨
      ∃ e, Ends x s (.error e) t ∧ r = .error e := by
  unfold Ends
  rw [run_bind]
  cases x.run.run s with
  | none => simp
  | some p =>
    obtain ⟨e | a, u⟩ := p
    · constructor
      · intro h
        cases h
        exact .inr ⟨e, rfl, rfl⟩
      · rintro (⟨b, u', hb, -⟩ | ⟨e, he, rfl⟩)
        · cases hb
        · cases he
          rfl
    · constructor
      · intro h
        exact .inl ⟨a, u, rfl, h⟩
      · rintro (⟨b, u', hb, h⟩ | ⟨e, he, -⟩)
        · cases hb
          exact h
        · cases he

theorem ends_bind_eq_ok {f : α → Marking β} {b} :
    Ends (x >>= f) s (.ok b) t ↔ ∃ a u, Ends x s (.ok a) u ∧ Ends (f a) u (.ok b) t := by
  rw [ends_bind]
  simp

theorem ends_some {r r' u} (hx : x.run.run s = some (r', u)) : Ends x s r t ↔ r = r' ∧ t = u := by
  unfold Ends
  rw [hx, Option.some.injEq, Prod.mk.injEq, eq_comm, @eq_comm _ u]

@[simp] theorem ends_pure {a} {r : Except MarkingError α} : Ends (pure a) s r t ↔ r = .ok a ∧ t = s :=
  ends_some rfl

@[simp] theorem ends_throw {e} {r : Except MarkingError α} :
    Ends (throw e) s r t ↔ r = .error e ∧ t = s := ends_some rfl

@[simp] theorem ends_modify {f r} :
    Ends (modify f) s r t ↔ r = .ok () ∧ t = f s := ends_some rfl

@[simp] theorem not_ends_outOfFuel {r : Except MarkingError α} : ¬ Ends outOfFuel s r t := fun h => by cases h

theorem exists_fuel {f : Nat → Marking α} {r : Except MarkingError α} (h : Ends (f fuel) s r t)
    (hz : f 0 = outOfFuel) : ∃ n, fuel = n + 1 := by
  cases fuel with
  | zero => exact absurd (hz ▸ h) not_ends_outOfFuel
  | succ n => exact ⟨n, rfl⟩

section
variable {r : Except MarkingError β}

theorem ends_bind_ok {a u} {f : α → Marking β} (hx : x.run.run s = some (.ok a, u)) :
    Ends (x >>= f) s r t ↔ Ends (f a) u r t := by
  unfold Ends
  rw [run_bind, hx]
  rfl

@[simp] theorem ends_get_bind {f} : Ends (get >>= f) s r t ↔ Ends (f s) s r t := .rfl

@[simp] theorem ends_set_bind {u f} :
    Ends (set u >>= f) s r t ↔ Ends (f ()) u r t := .rfl

@[simp] theorem ends_modify_bind {g f} :
    Ends (modify g >>= f) s r t ↔ Ends (f ()) (g s) r t := .rfl

end

theorem run_attempt (x : Marking α) :
    (attempt x).run.run s = (x.run.run s).bind fun p => some (.ok p.1, p.2) := rfl

theorem ends_attempt_bind {f : Except MarkingError α → Marking β} {r} :
    Ends (attempt x >>= f) s r t ↔ ∃ r' u, Ends x s r' u ∧ Ends (f r') u r t := by
  unfold Ends
  rw [run_bind, run_attempt, Option.bind_assoc, Option.bind_eq_some_iff]
  exact Prod.exists

/-! ## What each operation does -/

theorem run_pop (s : MarkingStack) :
    pop.run.run s = some (.ok s.cells.head?, { s with cells := s.cells.tail }) := by
  obtain ⟨_, _, _ | _⟩ := s <;> rfl

theorem takeVisitor_ends {r} (h : Ends takeVisitor s r t) :
    (s.visitor = none ∧ r = .error .noVisitor ∧ t = s) ∨
      ∃ v, s.visitor = some v ∧ r = .ok v ∧ t = { s with visitor := none } := by
  simp only [takeVisitor, ends_get_bind] at h
  cases hv : s.visitor with
  | none =>
    simp only [hv, ends_throw] at h
    exact .inl ⟨rfl, h⟩
  | some v =>
    simp only [hv, ends_set_bind, ends_pure] at h
    exact .inr ⟨v, rfl, h⟩

theorem takeVisitor_bind_ends {f : Visitor → Marking β} {r} (h : Ends (takeVisitor >>= f) s r t) :
    (s.visitor = none ∧ r = .error .noVisitor ∧ t = s) ∨
      ∃ v, s.visitor = some v ∧ Ends (f v) { s with visitor := none } r t := by
  obtain ⟨v, u, hv, h⟩ | ⟨e, hv, rfl⟩ := ends_bind.mp h
  · obtain ⟨-, h', -⟩ | ⟨w, hw, h', rfl⟩ := takeVisitor_ends hv
    · cases h'
    · cases h'
      exact .inr ⟨v, hw, h⟩
  · obtain ⟨hn, h', rfl⟩ | ⟨w, hw, h', rfl⟩ := takeVisitor_ends hv
    · cases h'
      exact .inl ⟨hn, rfl, rfl⟩
    · cases h'

theorem flush_ends (h : Ends flush s r t) :
    (s.visitor = none ∧ r = .error .noVisitor ∧ t = s) ∨
      (s.visitor.isSome ∧ r = .ok () ∧
        t = { s with cells := [], history := (s.cells.map MarkingEvent.flushed).reverse ++ s.history }) := by
  obtain hn | ⟨v, hv, h⟩ := takeVisitor_bind_ends h
  · exact .inl hn
  · obtain ⟨rfl, rfl⟩ := ends_modify.mp h
    exact .inr ⟨by rw [hv]; rfl, rfl, by rw [hv]⟩

theorem push_ends {c} (h : Ends (push (fuel + 1) c) s r t) :
    (s.size ≥ s.capacity ∧ r = .error (.overflow s.capacity) ∧ t = s) ∨
      (s.size + 1 = s.capacity ∧ Ends (overflow fuel) { s with cells := c :: s.cells } r t) ∨
      (s.size + 1 < s.capacity ∧ s.size + 1 > s.threshold ∧ s.draining = false ∧
        Ends (drain fuel) { s with cells := c :: s.cells } r t) ∨
      (s.size + 1 < s.capacity ∧ ¬ (s.size + 1 > s.threshold ∧ s.draining = false) ∧
        r = .ok () ∧ t = { s with cells := c :: s.cells }) := by
  simp only [push, ends_get_bind] at h
  by_cases hf : s.size ≥ s.capacity
  · rw [if_pos hf] at h
    exact .inl ⟨hf, ends_throw.mp h⟩
  rw [if_neg hf, ends_set_bind] at h
  by_cases hl : s.size + 1 = s.capacity
  · rw [if_pos hl] at h
    exact .inr (.inl ⟨hl, h⟩)
  rw [if_neg hl] at h
  by_cases hd : s.size + 1 > s.threshold ∧ s.draining = false
  · rw [if_pos hd] at h
    exact .inr (.inr (.inl ⟨by omega, hd.1, hd.2, h⟩))
  · rw [if_neg hd] at h
    exact .inr (.inr (.inr ⟨by omega, hd, ends_pure.mp h⟩))

theorem drainWith_ends {v} (h : Ends (drainWith (fuel + 1) v) s r t) :
    (s.cells = [] ∧ r = .ok () ∧ t = s) ∨
      ∃ c cells history, s.cells = c :: cells ∧ history = .popped c cells.length s.draining :: s.history ∧
        ((∃ u, Ends (pushAll fuel (v history c)) { s with cells, history } (.ok ()) u ∧
            Ends (drainWith fuel v) u r t) ∨
          ∃ e, Ends (pushAll fuel (v history c)) { s with cells, history } (.error e) t ∧ r = .error e) := by
  simp only [drainWith, ends_bind_ok (run_pop s)] at h
  cases hc : s.cells with
  | nil =>
    simp only [hc, head?_nil, ends_pure] at h
    obtain ⟨rfl, rfl⟩ := h
    exact .inl ⟨rfl, rfl, by rw [tail_nil, ← hc]⟩
  | cons c cells =>
    simp only [hc, head?_cons, ends_get_bind, ends_set_bind] at h
    refine .inr ⟨c, cells, _, rfl, rfl, ?_⟩
    obtain ⟨_, u, hp, hr⟩ | he := ends_bind.mp h
    · exact .inl ⟨u, hp, hr⟩
    · exact .inr he

theorem drain_ends (h : Ends (drain (fuel + 1)) s r t) :
    (s.visitor = none ∧ r = .error .noVisitor ∧ t = s) ∨
      ∃ v u, s.visitor = some v ∧ Ends (drainWith fuel v) { s with visitor := none, draining := true } r u ∧
        t = { u with draining := false, visitor := some v } := by
  simp only [drain] at h
  obtain hn | ⟨v, hv, h⟩ := takeVisitor_bind_ends h
  · exact .inl hn
  rw [ends_modify_bind] at h
  obtain ⟨result, u, hl, h⟩ := ends_attempt_bind.mp h
  rw [ends_modify_bind] at h
  refine .inr ⟨v, u, hv, ?_⟩
  cases result with
  | ok =>
    obtain ⟨rfl, rfl⟩ := ends_pure.mp h
    exact ⟨hl, rfl⟩
  | error e =>
    obtain ⟨rfl, rfl⟩ := ends_throw.mp h
    exact ⟨hl, rfl⟩

/-- The answer to a step and the state behind it. -/
inductive Answers (fuel : Nat) (s : MarkingStack) : MarkingStep → MarkingReply → MarkingStack → Prop where
  | push {c : Cell} {r : Except MarkingError Unit} {t : MarkingStack} (h : Ends (push fuel c) s r t) :
    Answers fuel s (.push c) (reply r) t
  | pop : Answers fuel s .pop (.cell s.cells.head?) { s with cells := s.cells.tail }
  | drain {r : Except MarkingError Unit} {t : MarkingStack} (h : Ends (drain fuel) s r t) :
    Answers fuel s .drain (reply r) t
  | flush {r : Except MarkingError Unit} {t : MarkingStack} (h : Ends flush s r t) :
    Answers fuel s .flush (reply r) t
  | clear : Answers fuel s .clear .done { s with cells := [] }
  | willDrain (n : UInt64) : Answers fuel s (.willDrain n) (.flag (s.willDrain n)) s
  | describe : Answers fuel s .describe (.text s.listing) s

theorem ends_reply {x r} :
    Ends (do return reply (← attempt x)) s r t ↔ ∃ r', Ends x s r' t ∧ r = .ok (reply r') := by
  refine ends_attempt_bind.trans (exists_congr fun r' => ?_)
  constructor
  · rintro ⟨u, hx, h⟩
    obtain ⟨rfl, rfl⟩ := ends_pure.mp h
    exact ⟨hx, rfl⟩
  · rintro ⟨hx, rfl⟩
    exact ⟨t, hx, ends_pure.mpr ⟨rfl, rfl⟩⟩

theorem answer_ends {step r} (h : Ends (answer (fuel + 1) step) s r t) :
    ∃ a, r = .ok a ∧ Answers fuel s step a t := by
  cases step with
  | push c =>
    obtain ⟨r', hx, rfl⟩ := ends_reply.mp h
    exact ⟨_, rfl, .push hx⟩
  | drain =>
    obtain ⟨r', hx, rfl⟩ := ends_reply.mp h
    exact ⟨_, rfl, .drain hx⟩
  | flush =>
    obtain ⟨r', hx, rfl⟩ := ends_reply.mp h
    exact ⟨_, rfl, .flush hx⟩
  | pop =>
    have h := (ends_bind_ok (run_pop s)).mp h
    obtain ⟨rfl, rfl⟩ := ends_pure.mp h
    exact ⟨_, rfl, .pop⟩
  | clear =>
    obtain ⟨rfl, rfl⟩ := (ends_some rfl).mp h
    exact ⟨_, rfl, .clear⟩
  | willDrain n =>
    obtain ⟨rfl, rfl⟩ := (ends_some rfl).mp h
    exact ⟨_, rfl, .willDrain n⟩
  | describe =>
    obtain ⟨rfl, rfl⟩ := (ends_some rfl).mp h
    exact ⟨_, rfl, .describe⟩

theorem answers_of_ends {step a} (h : Ends (answer fuel step) s (.ok a) t) : ∃ n, Answers n s step a t := by
  obtain ⟨n, rfl⟩ := exists_fuel (f := (answer · step)) h rfl
  obtain ⟨a, ha, h⟩ := answer_ends h
  cases ha
  exact ⟨n, h⟩

theorem recover_ends {step rest} (h : Ends (recover (fuel + 1) (step :: rest)) s r t) :
    ∃ a u, Ends (answer fuel step) s (.ok a) u ∧
      Ends (recover fuel rest) { u with history := .recovery a u.size :: u.history } r t := by
  simp only [recover] at h
  obtain ⟨a, u, han, h⟩ | ⟨e, han, -⟩ := ends_bind.mp h
  · exact ⟨a, u, han, h⟩
  · obtain ⟨fuel, rfl⟩ := exists_fuel (f := (answer · step)) han rfl
    obtain ⟨a, ha, -⟩ := answer_ends han
    cases ha

theorem recover_ok : ∀ {fuel : Nat} {steps : List MarkingStep} {s : MarkingStack} {r : Except MarkingError Unit},
    Ends (recover fuel steps) s r t → r = .ok ()
  | 0, _, _, _, h => absurd h not_ends_outOfFuel
  | _ + 1, [], _, _, h => (ends_pure.mp h).1
  | _ + 1, _ :: _, _, _, h => by
    obtain ⟨a, u, -, h⟩ := recover_ends h
    exact recover_ok h

theorem overflow_ends (h : Ends (overflow (fuel + 1)) s r t) :
    (r = .error (.overflow s.capacity) ∧ t = s) ∨
      ∃ recovery u, s.overflowing = false ∧ s.recovery = some recovery ∧
        Ends (recover fuel (recovery (.overflow s.size :: s.history)))
          { s with overflowing := true, recovery := none, history := .overflow s.size :: s.history } (.ok ()) u ∧
        t = { u with overflowing := false, recovery := some recovery } ∧
        r = if u.size ≥ u.capacity then .error (.overflow u.capacity) else .ok () := by
  simp only [overflow, ends_get_bind] at h
  cases ho : s.overflowing with
  | true =>
    simp only [ho, ends_throw] at h
    exact .inl h
  | false =>
    cases hre : s.recovery with
    | none =>
      simp only [ho, hre, ends_throw] at h
      exact .inl h
    | some recovery =>
      simp only [ho, hre, ends_set_bind] at h
      obtain ⟨_, u, hr, h⟩ | ⟨e, hr, -⟩ := ends_bind.mp h
      · refine .inr ⟨recovery, u, rfl, rfl, hr, ?_⟩
        rw [ends_modify_bind, ends_get_bind] at h
        by_cases hf : u.size ≥ u.capacity
        · rw [if_pos (by exact hf)] at h
          obtain ⟨rfl, rfl⟩ := ends_throw.mp h
          exact ⟨rfl, (if_pos hf).symm⟩
        · rw [if_neg (by exact hf)] at h
          obtain ⟨rfl, rfl⟩ := ends_pure.mp h
          exact ⟨rfl, (if_neg hf).symm⟩
      · cases recover_ok hr

/-! ## Fuel -/

/-- Every outcome of a computation is one of the other. -/
def Within (x y : Marking α) : Prop := ∀ s r t, Ends x s r t → Ends y s r t

theorem Within.refl (x : Marking α) : Within x x := fun _ _ _ h => h

theorem Within.bind {y} {f g : α → Marking β} (hx : Within x y)
    (hf : ∀ a, Within (f a) (g a)) : Within (x >>= f) (y >>= g) := by
  intro s r t h
  obtain ⟨a, u, hfi, hre⟩ | ⟨e, he, hr⟩ := ends_bind.mp h
  · exact ends_bind.mpr (.inl ⟨a, u, hx _ _ _ hfi, hf a _ _ _ hre⟩)
  · exact ends_bind.mpr (.inr ⟨e, hx _ _ _ he, hr⟩)

theorem Within.attempt {y} {f : Except MarkingError α → Marking β} (h : Within x y) :
    Within (attempt x >>= f) (attempt y >>= f) := by
  intro s r t he
  obtain ⟨r', u, hx, hf⟩ := ends_attempt_bind.mp he
  exact ends_attempt_bind.mpr ⟨r', u, h _ _ _ hx, hf⟩

/-- With more fuel an operation has the same outcome. -/
theorem within_succ : ∀ fuel : Nat, (∀ c, Within (push fuel c) (push (fuel + 1) c)) ∧
    (∀ cells, Within (pushAll fuel cells) (pushAll (fuel + 1) cells)) ∧
    (∀ v, Within (drainWith fuel v) (drainWith (fuel + 1) v)) ∧
    Within (drain fuel) (drain (fuel + 1)) ∧ Within (overflow fuel) (overflow (fuel + 1)) ∧
    (∀ steps, Within (recover fuel steps) (recover (fuel + 1) steps)) ∧
    ∀ step, Within (answer fuel step) (answer (fuel + 1) step)
  | 0 => by
    refine ⟨fun c => ?_, fun cells => ?_, fun v => ?_, ?_, ?_, fun steps => ?_, fun step => ?_⟩ <;>
      exact fun _ _ _ h => absurd h not_ends_outOfFuel
  | fuel + 1 => by
    obtain ⟨hpu, hp, hd, hdr, ho, hr, ha⟩ := within_succ fuel
    refine ⟨fun c => ?push, fun cells => ?pushAll, fun v => ?drainWith, ?drain, ?overflow, fun steps => ?recover,
      fun step => ?answer⟩
    case push =>
      rw [push, push]
      refine .bind (.refl _) fun s => ?_
      split
      · exact .refl _
      · refine .bind (.refl _) fun _ => ?_
        split
        · exact ho
        · split
          · exact hdr
          · exact .refl _
    case pushAll =>
      cases cells with
      | nil => exact .refl _
      | cons c rest =>
        rw [pushAll, pushAll]
        exact .bind (hpu c) fun _ => hp rest
    case drainWith =>
      rw [drainWith, drainWith]
      refine .bind (.refl _) fun c => ?_
      cases c with
      | none => exact .refl _
      | some c => exact .bind (.refl _) fun s => .bind (.refl _) fun _ => .bind (hp _) fun _ => hd v
    case drain =>
      rw [drain, drain]
      exact .bind (.refl _) fun v => .bind (.refl _) fun _ => (hd v).attempt
    case overflow =>
      rw [overflow, overflow]
      refine .bind (.refl _) fun s => ?_
      split
      · exact .bind (.refl _) fun _ => .bind (hr _) fun _ => .refl _
      · exact .refl _
    case recover =>
      cases steps with
      | nil => exact .refl _
      | cons step rest =>
        rw [recover, recover]
        exact .bind (ha step) fun _ => .bind (.refl _) fun _ => .bind (.refl _) fun _ => hr rest
    case answer =>
      cases step with
      | push c => exact (hpu c).attempt
      | drain => exact hdr.attempt
      | _ => exact .refl _

theorem within_of_le {op : Nat → Marking α} (hop : ∀ fuel, Within (op fuel) (op (fuel + 1)))
    {fuel'} (hle : fuel ≤ fuel') : Within (op fuel) (op fuel') := by
  induction hle with
  | refl => exact .refl _
  | step _ ih => exact fun _ _ _ h => hop _ _ _ _ (ih _ _ _ h)

end Marking

/-! ## What every operation leaves as it was -/

namespace MarkingStack

/-- While a stack drains, its visitor is at work. -/
def Sound (s : MarkingStack) : Prop := s.draining = true → s.visitor = none

/-- The stack has other cells, which fit, and a longer history. -/
inductive Restored (s : MarkingStack) : MarkingStack → Prop where
  | intro {cells : List Cell} {history : List MarkingEvent} (fits : s.size ≤ s.capacity → cells.length ≤ s.capacity)
    (longer : s.history <:+ history) : Restored s { s with cells, history }

namespace Restored
variable {s t u : MarkingStack}

theorem refl (s : MarkingStack) : Restored s s := .intro id (suffix_refl _)

theorem trans (h : Restored s t) (h' : Restored t u) : Restored s u := by
  obtain ⟨hf, hl⟩ := h
  obtain ⟨hf', hl'⟩ := h'
  exact .intro (fun hs => hf' (hf hs)) (hl.trans hl')

theorem history (h : Restored s t) : s.history <:+ t.history := by
  obtain ⟨-, hl⟩ := h
  exact hl

theorem sound (h : Restored s t) (hs : s.Sound) : t.Sound := by
  cases h
  exact hs

theorem cells (s : MarkingStack) (cells : List Cell) (h : s.size ≤ s.capacity → cells.length ≤ s.capacity) :
    Restored s { s with cells } := .intro h (suffix_refl _)

theorem note (s : MarkingStack) (events : List MarkingEvent) :
    Restored s { s with history := events ++ s.history } := .intro id (suffix_append _ _)

theorem drain {v} (hs : s.Sound) (hv : s.visitor = some v)
    (h : Restored { s with visitor := none, draining := true } t) :
    Restored s { t with draining := false, visitor := some v } := by
  have hd : s.draining = false := Bool.not_eq_true _ ▸ fun hd => by cases (hs hd).symm.trans hv
  obtain ⟨hf, hl⟩ := h
  rw [← hd, ← hv]
  exact .intro hf hl

theorem overflow {recovery history} (ho : s.overflowing = false) (hr : s.recovery = some recovery)
    (hh : s.history <:+ history) (h : Restored { s with overflowing := true, recovery := none, history } t) :
    Restored s { t with overflowing := false, recovery := some recovery } := by
  obtain ⟨hf, hl⟩ := h
  rw [← ho, ← hr]
  exact .intro hf (hh.trans hl)

end Restored
end MarkingStack

namespace Marking
open MarkingStack
variable {α β : Type} {s t : MarkingStack}

/-- Each operation leaves the stack as it was, but for cells and history. -/
theorem restored_of_ends : ∀ fuel : Nat,
    (∀ {s t : MarkingStack} {c r}, Ends (push fuel c) s r t → s.Sound → Restored s t) ∧
    (∀ {s t : MarkingStack} {cs r}, Ends (pushAll fuel cs) s r t → s.Sound → Restored s t) ∧
    (∀ {s t : MarkingStack} {v r}, Ends (drainWith fuel v) s r t → s.Sound → Restored s t) ∧
    (∀ {s t : MarkingStack} {r}, Ends (drain fuel) s r t → s.Sound → Restored s t) ∧
    (∀ {s t : MarkingStack} {r}, Ends (overflow fuel) s r t → s.Sound → Restored s t) ∧
    (∀ {s t : MarkingStack} {steps r}, Ends (recover fuel steps) s r t → s.Sound → Restored s t) ∧
    (∀ {s t : MarkingStack} {step r}, Ends (answer fuel step) s r t → s.Sound → Restored s t)
  | 0 => by
    refine ⟨?_, ?_, ?_, ?_, ?_, ?_, ?_⟩ <;> intros <;> exact absurd ‹_› not_ends_outOfFuel
  | fuel + 1 => by
    obtain ⟨ihPush, ihPushAll, ihLoop, ihDrain, ihOverflow, ihRecover, ihAnswer⟩ := restored_of_ends fuel
    have hst : ∀ {s : MarkingStack} {c : Cell}, s.size + 1 ≤ s.capacity →
        Restored s { s with cells := c :: s.cells } := fun hf => .cells _ _ fun _ => hf
    refine ⟨?push, ?pushAll, ?loop, ?drain, ?overflow, ?recover, ?answer⟩
    case push =>
      intro s t c r h hs
      obtain ⟨-, -, rfl⟩ | ⟨hla, h⟩ | ⟨hf, -, -, h⟩ | ⟨hf, -, -, rfl⟩ := push_ends h
      · exact .refl _
      · exact (hst (by omega)).trans (ihOverflow h hs)
      · exact (hst (by omega)).trans (ihDrain h hs)
      · exact hst (by omega)
    case pushAll =>
      intro s t cs r h hs
      cases cs with
      | nil =>
        obtain ⟨-, rfl⟩ := ends_pure.mp h
        exact .refl _
      | cons c rest =>
        obtain ⟨_, u, hp, h⟩ | ⟨e, hp, -⟩ := ends_bind.mp h
        · have hu := ihPush hp hs
          exact hu.trans (ihPushAll h (hu.sound hs))
        · exact ihPush hp hs
    case loop =>
      intro s t v r h hs
      obtain ⟨-, -, rfl⟩ | ⟨c, cells, history, hc, rfl, h⟩ := drainWith_ends h
      · exact .refl _
      have hpo : Restored s { s with cells, history := .popped c cells.length s.draining :: s.history } := by
        refine (Restored.cells s cells fun hf => ?_).trans (.note _ [.popped c cells.length s.draining])
        rw [size, hc, length_cons] at hf
        omega
      obtain ⟨u, hp, h⟩ | ⟨e, hp, -⟩ := h
      · have hu := hpo.trans (ihPushAll hp (hpo.sound hs))
        exact hu.trans (ihLoop h (hu.sound hs))
      · exact hpo.trans (ihPushAll hp (hpo.sound hs))
    case drain =>
      intro s t r h hs
      obtain ⟨-, -, rfl⟩ | ⟨v, u, hv, hl, rfl⟩ := drain_ends h
      · exact .refl _
      · exact .drain hs hv (ihLoop hl fun _ => rfl)
    case overflow =>
      intro s t r h hs
      obtain ⟨-, rfl⟩ | ⟨recovery, u, ho, hr, hre, rfl, -⟩ := overflow_ends h
      · exact .refl _
      · exact .overflow ho hr (suffix_cons _ _) (ihRecover hre hs)
    case recover =>
      intro s t steps r h hs
      cases steps with
      | nil =>
        obtain ⟨-, rfl⟩ := ends_pure.mp h
        exact .refl _
      | cons step rest =>
        obtain ⟨a, u, ha, h⟩ := recover_ends h
        have hu := (ihAnswer ha hs).trans (.note u [.recovery a u.size])
        exact hu.trans (ihRecover h (hu.sound hs))
    case answer =>
      intro s t step r h hs
      obtain ⟨a, -, h⟩ := answer_ends h
      cases h with
      | push h => exact ihPush h hs
      | drain h => exact ihDrain h hs
      | flush h =>
        obtain ⟨-, -, rfl⟩ | ⟨-, -, rfl⟩ := flush_ends h
        · exact .refl _
        · exact (Restored.cells s [] fun _ => Nat.zero_le _).trans (.note _ _)
      | pop => exact .cells s _ fun hf => by rw [length_tail]; exact Nat.le_trans (Nat.sub_le _ _) hf
      | clear => exact .cells s _ fun _ => Nat.zero_le _
      | willDrain | describe => exact .refl _

/-! ## Drains do not nest -/

/-- A push that never drains, made while a drain is under way. -/
def store : Nat → Cell → Marking Unit
  | 0, _ => outOfFuel
  | fuel + 1, c => do
    let s ← get
    if s.draining = false ∨ s.visitor.isSome then outOfFuel
    else if s.size ≥ s.capacity then throw (.overflow s.capacity)
    else
      set { s with cells := c :: s.cells }
      if s.size + 1 = s.capacity then overflow fuel else pure ()

def storeAll : Nat → List Cell → Marking Unit
  | 0, _ => outOfFuel
  | _ + 1, [] => pure ()
  | fuel + 1, c :: rest => do
    store fuel c
    storeAll fuel rest

def drainStoringWith : Nat → Visitor → Marking Unit
  | 0, _ => outOfFuel
  | fuel + 1, v => do
    match ← pop with
    | none => pure ()
    | some c =>
      let s ← get
      let history := .popped c s.size s.draining :: s.history
      set { s with history }
      storeAll fuel (v history c)
      drainStoringWith fuel v

/-- A drain in which what the visitor pushes is only stored. -/
def drainStoring : Nat → Marking Unit
  | 0 => outOfFuel
  | fuel + 1 => do
    let v ← takeVisitor
    modify fun s => { s with draining := true }
    let result ← attempt (drainStoringWith fuel v)
    modify fun s => { s with draining := false, visitor := some v }
    match result with
    | .ok () => pure ()
    | .error e => throw e

theorem run_get_bind (f : MarkingStack → Marking β) : (get >>= f).run.run s = (f s).run.run s := rfl

theorem run_set_bind (u : MarkingStack) (f : PUnit → Marking β) : (set u >>= f).run.run s = (f ()).run.run u := rfl

theorem run_modify_bind (g : MarkingStack → MarkingStack) (f : PUnit → Marking β) :
    (modify g >>= f).run.run s = (f ()).run.run (g s) := rfl

theorem run_bind_congr {x y} {f g : α → Marking β} (hx : x.run.run s = y.run.run s)
    (hf : ∀ a u, Ends x s (.ok a) u → (f a).run.run u = (g a).run.run u) :
    (x >>= f).run.run s = (y >>= g).run.run s := by
  rw [run_bind, run_bind, ← hx]
  cases h : x.run.run s with
  | none => rfl
  | some p =>
    obtain ⟨e | a, u⟩ := p
    · rfl
    · exact hf a u h

theorem push_eq_store (hd : s.draining = true) (hv : s.visitor = none) (fuel : Nat) (c : Cell) :
    (push fuel c).run.run s = (store fuel c).run.run s := by
  cases fuel with
  | zero => rfl
  | succ fuel =>
    have hu : ¬ (s.draining = false ∨ s.visitor.isSome = true) := by simp [hd, hv]
    simp only [push, store]
    rw [run_get_bind, run_get_bind, if_neg hu]
    by_cases hf : s.size ≥ s.capacity
    · rw [if_pos hf, if_pos hf]
    · rw [if_neg hf, if_neg hf, run_set_bind, run_set_bind]
      by_cases hl : s.size + 1 = s.capacity
      · rw [if_pos hl, if_pos hl]
      · rw [if_neg hl, if_neg hl, if_neg (by simp [hd])]

theorem pushAll_eq_storeAll : ∀ (fuel : Nat) (cs : List Cell) {s : MarkingStack}, s.draining = true →
    s.visitor = none → (pushAll fuel cs).run.run s = (storeAll fuel cs).run.run s
  | 0, _, _, _, _ => rfl
  | _ + 1, [], _, _, _ => rfl
  | fuel + 1, c :: rest, s, hd, hv => by
    simp only [pushAll, storeAll]
    refine run_bind_congr (push_eq_store hd hv fuel c) fun _ u hu => ?_
    cases (restored_of_ends fuel).1 hu fun _ => hv
    exact pushAll_eq_storeAll fuel rest hd hv

theorem drainWith_eq_drainStoringWith (v : Visitor) : ∀ (fuel : Nat) {s : MarkingStack}, s.draining = true →
    s.visitor = none → (drainWith fuel v).run.run s = (drainStoringWith fuel v).run.run s
  | 0, _, _, _ => rfl
  | fuel + 1, s, hd, hv => by
    simp only [drainWith, drainStoringWith]
    refine run_bind_congr rfl fun c? u hu => ?_
    obtain ⟨hc, rfl⟩ := (ends_some (run_pop s)).mp hu
    cases c? with
    | none => rfl
    | some c =>
      simp only [run_get_bind, run_set_bind]
      refine run_bind_congr (pushAll_eq_storeAll fuel _ hd hv) fun _ u hu => ?_
      cases (restored_of_ends fuel).2.1 hu fun _ => hv
      exact drainWith_eq_drainStoringWith v fuel hd hv

/-- **Drains do not nest.** In a drain the visitor is at work, and what it pushes is stored. -/
theorem drain_eq_drainStoring (fuel : Nat) : drain fuel = drainStoring fuel := by
  cases fuel with
  | zero => rfl
  | succ fuel =>
    refine funext fun s => ?_
    change (drain (fuel + 1)).run.run s = (drainStoring (fuel + 1)).run.run s
    simp only [drain, drainStoring]
    refine run_bind_congr rfl fun v u hu => ?_
    obtain ⟨-, h, -⟩ | ⟨w, -, h, rfl⟩ := takeVisitor_ends hu
    · cases h
    rw [run_modify_bind, run_modify_bind]
    refine run_bind_congr ?_ fun _ _ _ => rfl
    rw [run_attempt, run_attempt, drainWith_eq_drainStoringWith v fuel rfl rfl]

theorem drain_noVisitor {fuel r} (hv : s.visitor = none) (h : Ends (drain fuel) s r t) :
    r = .error .noVisitor ∧ t = s := by
  obtain ⟨fuel, rfl⟩ := exists_fuel h rfl
  obtain ⟨-, rfl, rfl⟩ | ⟨v, -, hs, -⟩ := drain_ends h
  · exact ⟨rfl, rfl⟩
  · rw [hv] at hs
    cases hs

end Marking

/-! ## The cells of a history -/

namespace MarkingStack
variable {s t : MarkingStack}

/-- The cells that were visited, popped or flushed. -/
def visited : List MarkingEvent → List Cell
  | [] => []
  | .popped c _ _ :: rest | .flushed c :: rest => c :: visited rest
  | _ :: rest => visited rest

/-- The cells that a visitor pushed, at each cell that was popped for it. -/
def expanded (v : Visitor) : List MarkingEvent → List Cell
  | [] => []
  | .popped c left draining :: rest => v (.popped c left draining :: rest) c ++ expanded v rest
  | _ :: rest => expanded v rest

theorem visited_flushed (cells : List Cell) (history : List MarkingEvent) :
    visited ((cells.map MarkingEvent.flushed).reverse ++ history) = cells.reverse ++ visited history := by
  induction cells generalizing history with
  | nil => rfl
  | cons c rest ih =>
    rw [map_cons, reverse_cons, append_assoc, singleton_append, ih, reverse_cons,
      append_assoc]
    rfl

theorem expanded_flushed (v : Visitor) (cells : List Cell) (history : List MarkingEvent) :
    expanded v ((cells.map MarkingEvent.flushed).reverse ++ history) = expanded v history := by
  induction cells generalizing history with
  | nil => rfl
  | cons c rest ih =>
    rw [map_cons, reverse_cons, append_assoc, singleton_append, ih]
    rfl

/-- The recovery was never called. -/
def Smooth (s : MarkingStack) : Prop := ∀ left, .overflow left ∉ s.history

/-- All cells that were pushed, by hand or by the visitor, were visited or popped or are still there. -/
def Balanced (v : Visitor) (pushed popped : List Cell) (s : MarkingStack) : Prop :=
  (pushed ++ expanded v s.history).Perm (visited s.history ++ popped ++ s.cells)

theorem Restored.smooth (h : Restored s t) (ht : t.Smooth) : s.Smooth :=
  fun left hl => ht left (h.history.subset hl)

namespace Balanced
variable {v : Visitor} {pushed popped : List Cell}

section
variable (h : Balanced v pushed popped s)
include h

theorem perm {pushed' popped'} (hp : pushed'.Perm pushed) (hpo : popped.Perm popped') :
    Balanced v pushed' popped' s :=
  (hp.append_right _).trans (h.trans ((hpo.append_left _).append_right _))

theorem push (c : Cell) : Balanced v (c :: pushed) popped { s with cells := c :: s.cells } :=
  (List.Perm.cons c h).trans perm_middle.symm

theorem pop :
    Balanced v pushed (s.cells.head?.toList ++ popped) { s with cells := s.cells.tail } := by
  unfold Balanced at h ⊢
  cases hc : s.cells with
  | nil =>
    rw [hc] at h
    exact h
  | cons c cells =>
    rw [hc] at h
    refine h.trans (perm_iff_count.mpr fun x => ?_)
    simp only [count_append, count_cons, head?_cons, Option.toList_some, count_nil, tail_cons]
    omega

theorem flush : Balanced v pushed popped
    { s with cells := [], history := (s.cells.map MarkingEvent.flushed).reverse ++ s.history } := by
  unfold Balanced at h ⊢
  simp only [visited_flushed, expanded_flushed]
  refine h.trans (perm_iff_count.mpr fun x => ?_)
  simp only [count_append, count_reverse, count_nil]
  omega

theorem visit {c cells} (hc : s.cells = c :: cells) {history left draining}
    (hh : history = .popped c left draining :: s.history) :
    Balanced v pushed popped { s with cells := (v history c).reverse ++ cells, history } := by
  unfold Balanced at h ⊢
  subst hh
  rw [hc] at h
  refine perm_iff_count.mpr fun x => ?_
  have hco := h.count_eq x
  simp only [visited, expanded, count_append, count_cons, count_reverse] at hco ⊢
  omega

end

end Balanced
end MarkingStack

/-! ## What drains visit -/

namespace Marking
open MarkingStack
variable {s t : MarkingStack}

variable {fuel : Nat} {v : Visitor} {popped pushed : List Cell}

theorem overflow_recorded (h : Ends (overflow fuel) s (.ok ()) t) (hs : s.Sound) : ¬ t.Smooth := by
  obtain ⟨fuel, rfl⟩ := exists_fuel h rfl
  obtain ⟨he, -⟩ | ⟨recovery, u, -, -, hre, rfl, -⟩ := overflow_ends h
  · cases he
  · have hr := (restored_of_ends fuel).2.2.2.2.2.1 hre hs
    exact fun hsm => hsm s.size (hr.history.subset mem_cons_self)

theorem push_draining {c} (h : Ends (push fuel c) s (.ok ()) t) (hd : s.draining = true) (hv : s.visitor = none)
    (ht : t.Smooth) : t = { s with cells := c :: s.cells } := by
  obtain ⟨fuel, rfl⟩ := exists_fuel (f := (push · c)) h rfl
  obtain ⟨-, he, -⟩ | ⟨-, h⟩ | ⟨-, -, hi, -⟩ | ⟨-, -, -, ht⟩ := push_ends h
  · cases he
  · exact absurd ht (overflow_recorded h fun _ => hv)
  · rw [hd] at hi
    cases hi
  · exact ht

theorem pushAll_draining : ∀ {fuel : Nat} {cs : List Cell} {s : MarkingStack},
    Ends (pushAll fuel cs) s (.ok ()) t → s.draining = true → s.visitor = none → t.Smooth →
    t = { s with cells := cs.reverse ++ s.cells }
  | 0, _, _, h, _, _, _ => absurd h not_ends_outOfFuel
  | _ + 1, [], _, h, _, _, _ => (ends_pure.mp h).2
  | fuel + 1, c :: rest, s, h, hd, hv, ht => by
    obtain ⟨_, u, hp, h⟩ := ends_bind_eq_ok.mp h
    have hu := (restored_of_ends fuel).1 hp fun _ => hv
    have hr := (restored_of_ends fuel).2.1 h (hu.sound fun _ => hv)
    obtain rfl := push_draining hp hd hv (hr.smooth ht)
    rw [pushAll_draining h hd hv ht, reverse_cons, append_assoc, singleton_append]

theorem drainWith_balanced : ∀ {fuel : Nat} {s : MarkingStack},
    Ends (drainWith fuel v) s (.ok ()) t → s.draining = true → s.visitor = none → t.Smooth →
    s.Balanced v pushed popped → t.Balanced v pushed popped ∧ t.cells = []
  | 0, _, h, _, _, _, _ => absurd h not_ends_outOfFuel
  | fuel + 1, s, h, hd, hv, ht, hs => by
    obtain ⟨hc, -, rfl⟩ | ⟨c, cells, history, hc, hh, h⟩ := drainWith_ends h
    · exact ⟨hs, hc⟩
    obtain ⟨u, hp, h⟩ | ⟨e, -, he⟩ := h
    · have hu := (restored_of_ends fuel).2.1 hp fun _ => hv
      have hr := (restored_of_ends fuel).2.2.1 h (hu.sound fun _ => hv)
      obtain rfl := pushAll_draining hp hd hv (hr.smooth ht)
      exact drainWith_balanced h hd hv ht (hs.visit hc hh)
    · cases he

theorem drain_balanced (h : Ends (drain fuel) s (.ok ()) t) (hv : ∀ w, s.visitor = some w → w = v)
    (ht : t.Smooth) (hs : s.Balanced v pushed popped) : t.Balanced v pushed popped := by
  obtain ⟨fuel, rfl⟩ := exists_fuel h rfl
  obtain ⟨-, he, -⟩ | ⟨w, u, hw, hl, rfl⟩ := drain_ends h
  · cases he
  · obtain rfl := hv w hw
    exact (drainWith_balanced hl rfl rfl ht hs).1

theorem push_balanced {c} (h : Ends (push fuel c) s (.ok ()) t) (hso : s.Sound)
    (hv : ∀ w, s.visitor = some w → w = v) (ht : t.Smooth) (hs : s.Balanced v pushed popped) :
    t.Balanced v (c :: pushed) popped := by
  obtain ⟨fuel, rfl⟩ := exists_fuel (f := (push · c)) h rfl
  obtain ⟨-, he, -⟩ | ⟨-, h⟩ | ⟨-, -, -, h⟩ | ⟨-, -, -, rfl⟩ := push_ends h
  · cases he
  · exact absurd ht (overflow_recorded h hso)
  · exact drain_balanced h hv ht (hs.push c)
  · exact hs.push c

/-! ## Runs -/

/-- Operations one after the other, each with its answer. -/
inductive Run : MarkingStack → List (MarkingStep × MarkingReply) → MarkingStack → Prop where
  | nil (s : MarkingStack) : Run s [] s
  | cons {fuel : Nat} {step : MarkingStep} {a : MarkingReply} {s u t : MarkingStack}
    {log : List (MarkingStep × MarkingReply)} (first : Ends (answer fuel step) s (.ok a) u) (rest : Run u log t) :
    Run s ((step, a) :: log) t

/-- The cells that operations push. -/
def pushedIn (log : List (MarkingStep × MarkingReply)) : List Cell :=
  log.flatMap fun | (.push c, _) => [c] | _ => []

/-- The cells that operations hand out. -/
def poppedIn (log : List (MarkingStep × MarkingReply)) : List Cell :=
  log.flatMap fun | (_, .cell c) => c.toList | _ => []

theorem Run.restored {log} (h : Run s log t) (hs : s.Sound) : Restored s t := by
  induction h with
  | nil s => exact .refl s
  | @cons fuel _ _ _ _ _ _ first _ ih =>
    have hu := (restored_of_ends fuel).2.2.2.2.2.2 first hs
    exact hu.trans (ih (hu.sound hs))

theorem answers_balanced {step a} (h : Answers fuel s step a t) (hso : s.Sound)
    (hv : ∀ w, s.visitor = some w → w = v) (ht : t.Smooth) (hc : step ≠ .clear) (hok : ∀ e, a ≠ .failed e)
    (hs : s.Balanced v pushed popped) :
    t.Balanced v (pushedIn [(step, a)] ++ pushed) (poppedIn [(step, a)] ++ popped) := by
  cases h with
  | @push c r _ h =>
    cases r with
    | ok => exact push_balanced h hso hv ht hs
    | error e => exact absurd rfl (hok e)
  | @drain r _ h =>
    cases r with
    | ok => exact drain_balanced h hv ht hs
    | error e => exact absurd rfl (hok e)
  | @flush r _ h =>
    obtain ⟨-, rfl, -⟩ | ⟨-, rfl, rfl⟩ := flush_ends h
    · exact absurd rfl (hok .noVisitor)
    · exact hs.flush
  | pop =>
    have hce : poppedIn [(.pop, .cell s.cells.head?)] = s.cells.head?.toList := append_nil _
    rw [hce]
    exact hs.pop
  | clear => exact absurd rfl hc
  | willDrain | describe => exact hs

theorem Run.balanced {log} (h : Run s log t) (hso : s.Sound) (hv : ∀ w, s.visitor = some w → w = v) (ht : t.Smooth)
    (hl : ∀ entry ∈ log, entry.1 ≠ .clear ∧ ∀ e, entry.2 ≠ .failed e) (pushed popped : List Cell)
    (hs : s.Balanced v pushed popped) :
    t.Balanced v (pushedIn log ++ pushed) (poppedIn log ++ popped) := by
  induction h generalizing pushed popped with
  | nil => exact hs
  | @cons fuel step a s u t log first rest ih =>
    have hu := (restored_of_ends fuel).2.2.2.2.2.2 first hso
    obtain ⟨hcl, hok⟩ := hl _ mem_cons_self
    obtain ⟨_, han⟩ := answers_of_ends first
    have hf := answers_balanced han hso hv ((rest.restored (hu.sound hso)).smooth ht) hcl hok hs
    have hvi : u.visitor = s.visitor := by
      cases hu
      rfl
    have hr := ih (hu.sound hso) (fun w hw => hv w (hvi ▸ hw)) ht
      (fun entry he => hl entry (mem_cons_of_mem _ he)) _ _ hf
    have hc : ∀ f : MarkingStep × MarkingReply → List Cell, ∀ cells : List Cell,
        (log.flatMap f ++ ([(step, a)].flatMap f ++ cells)).Perm (((step, a) :: log).flatMap f ++ cells) := by
      intro f cells
      rw [flatMap_cons, flatMap_cons, flatMap_nil, append_nil, ← append_assoc]
      exact perm_append_comm.append_right cells
    exact hr.perm (hc _ _).symm (hc _ _)

/-- **Nothing is lost and nothing is visited twice.** A stack of at least two cells can be made with
every threshold. Whatever is done with it, it fits its capacity, is not draining, and visitor and
recovery are in place. As long as nothing fails or overflows or is dropped by hand, the cells that
were pushed, by hand or by the visitor, are those that were visited, popped by hand or are still
there, each as often. And a drain never nests: it can be done with pushes that cannot drain, and
without a visitor nothing is drained. -/
theorem marking_run_conserves_cells (capacity percent : Nat) (hcapacity : 2 ≤ capacity) :
    ∃ s, MarkingStack.create capacity percent = .ok s ∧
      (∀ visitor recovery log t, Run { s with visitor, recovery } log t →
        (t.capacity = capacity ∧ t.size ≤ capacity ∧ t.draining = false ∧ t.overflowing = false ∧
          t.visitor = visitor ∧ t.recovery = recovery) ∧
        ((∀ entry ∈ log, entry.1 ≠ .clear ∧ ∀ e, entry.2 ≠ .failed e) → (∀ left, .overflow left ∉ t.history) →
          (pushedIn log ++ expanded (visitor.getD fun _ _ => []) t.history).Perm
            (visited t.history ++ poppedIn log ++ t.cells))) ∧
      (∀ fuel, drain fuel = drainStoring fuel) ∧
      ∀ fuel u r t, u.visitor = none → Ends (drain fuel) u r t → r = .error .noVisitor ∧ t = u := by
  refine ⟨_, if_neg (by omega), ?_, drain_eq_drainStoring, fun fuel u r t hv h => drain_noVisitor hv h⟩
  intro visitor recovery log t hru
  obtain ⟨hf, -⟩ := hru.restored fun h => by cases h
  refine ⟨⟨rfl, hf (Nat.zero_le _), rfl, rfl, rfl, rfl⟩, ?_⟩
  · intro hl hs
    have hv : ∀ w, visitor = some w → w = visitor.getD fun _ _ => [] := by
      rintro w rfl
      rfl
    have hb := hru.balanced (fun h => by cases h) hv hs hl [] [] .rfl
    rw [append_nil, append_nil] at hb
    exact hb

/-- Does operations in order, all with the same fuel. -/
def answerAll (fuel : Nat) : List MarkingStep → Marking (List MarkingReply)
  | [] => pure []
  | step :: rest => do
    let a ← answer fuel step
    let replies ← answerAll fuel rest
    pure (a :: replies)

theorem Run.of_answerAll : ∀ {steps : List MarkingStep} {replies : List MarkingReply}
    {s : MarkingStack}, Ends (answerAll fuel steps) s (.ok replies) t → Run s (steps.zip replies) t
  | [], _, s, h => by
    obtain ⟨-, rfl⟩ := ends_pure.mp h
    exact .nil t
  | step :: rest, _, s, h => by
    obtain ⟨a, u, hf, h⟩ := ends_bind_eq_ok.mp h
    obtain ⟨replies, w, hre, h⟩ := ends_bind_eq_ok.mp h
    obtain ⟨hr, rfl⟩ := ends_pure.mp h
    cases hr
    exact .cons hf (.of_answerAll hre)

/-- A visitor that pushes one more cell when it visits the cell 3. -/
def oneMore : Visitor := fun _ c => if c = 3 then [30] else []

/-- The third push drains the stack; of the two cells that follow one is popped by hand and one flushed. -/
theorem oneMore_conserves_cells : ∃ s t log, MarkingStack.create 4 50 = .ok s ∧
    log = [(.push 1, .done), (.push 2, .done), (.push 3, .done), (.push 4, .done), (.push 5, .done),
      (.pop, .cell (some 5)), (.flush, .done), (.drain, .done)] ∧
    Run { s with visitor := some oneMore } log t ∧
    t.history = [.flushed 4, .popped 1 0 true, .popped 2 1 true, .popped 30 2 true, .popped 3 2 true] ∧
    t.visitor = some oneMore ∧ t.draining = false ∧
    (pushedIn log ++ expanded oneMore t.history).Perm (visited t.history ++ poppedIn log ++ t.cells) := by
  obtain ⟨s, hs, hru, -⟩ := marking_run_conserves_cells 4 50 (by decide)
  cases hs
  have he : ((answerAll 20 [.push 1, .push 2, .push 3, .push 4, .push 5, .pop, .flush, .drain]).run.run
      { capacity := 4, threshold := 2, visitor := some oneMore }).map (fun p => (p.1.toOption, p.2.history)) =
      some (some [.done, .done, .done, .done, .done, .cell (some 5), .done, .done],
        [.flushed 4, .popped 1 0 true, .popped 2 1 true, .popped 30 2 true, .popped 3 2 true]) := by decide +kernel
  obtain ⟨⟨r, t⟩, hen, heq⟩ := Option.map_eq_some_iff.mp he
  obtain ⟨hr, hh⟩ := Prod.mk.inj heq
  cases r with
  | error e => cases hr
  | ok replies =>
    cases hr
    have hrun := Run.of_answerAll hen
    obtain ⟨⟨-, -, hd, -, hv, -⟩, hc⟩ := hru (some oneMore) none _ t hrun
    refine ⟨_, t, _, rfl, rfl, hrun, hh, hv, hd, hc (by simp) fun left => ?_⟩
    rw [show t.history = _ from hh]
    simp

end Marking
end StackCompiler
