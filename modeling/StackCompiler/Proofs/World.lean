/-
What surrounds a running method: how values are computed, what the outside
answers to a request, and what an observer sees. A world settles in any way what
the arithmetic of constants leaves open, division by zero and the order of
references, if it respects kinds and orders values totally.
-/
import StackCompiler.Arithmetic

namespace StackCompiler

open List

/-- Whether a value can stand where a kind is expected. Only the zero of void locals has kind void. -/
def Value.Fits (v : Value) (k : Kind) : Prop := v.kind = k.zero.kind

instance (v : Value) (k : Kind) : Decidable (v.Fits k) :=
  inferInstanceAs (Decidable (v.kind = k.zero.kind))

/-! ## Requests and events -/

/-- What a method cannot do by itself. -/
inductive Service where
  | newArray (element : Kind)
  | newInstance (cls : ObjectRef)
  | arrayLength
  | arrayLoad (element : Kind)
  | arrayStore (element : Kind)
  | callStatic (callee : MethodKey)
  | callNative (callee : MethodKey)
  | callIndirect (signature : Signature)
deriving DecidableEq, Repr

/-- The kind of what a service gives back. -/
def Service.result : Service → Kind
  | newArray _ | newInstance _ => .reference
  | arrayLength => .int
  | arrayLoad element => element
  | arrayStore _ => .void
  | callStatic callee | callNative callee =>
    match callee.signature? with
    | some s => s.result
    | none => .void
  | callIndirect s => s.result

/-- A service with the values that it is given. An indirect call is given its address first. -/
structure Request where
  service : Service
  args : List Value
deriving DecidableEq, Repr

/-- How a request comes back. -/
inductive Reply where
  | value (v : Value)
  | throws (exception : Value)
deriving DecidableEq, Repr

/-- What an observer sees of a run. -/
inductive Event where
  | asked (request : Request) (reply : Reply)
  /-- A poll for the collector, at a bytecode position. -/
  | polled (bci : Nat)
  /-- The method itself throws. -/
  | raised (exception : Value)
deriving DecidableEq, Repr

/-- How a run ends. It goes wrong where the code has no meaning, as at a read of what was never computed. -/
inductive Outcome where
  | returned (value : Option Value)
  | thrown (exception : Value)
  | wrong
deriving DecidableEq, Repr

/-! ## Worlds -/

/-- What surrounds a run. -/
structure World where
  args : List Value
  /-- The answer to a request, from everything that happened before. -/
  oracle : List Event → Request → Reply
  /-- The result of arithmetic that constants leave open. -/
  otherwise : BinaryOp → Kind → Value → Value → Value
  otherwise_fits : ∀ op k a b, (otherwise op k a b).Fits k
  /-- The order of values that constants leave open: that of references. -/
  before : Value → Value → Bool
  before_irrefl : ∀ a, before a a = false
  before_trans : ∀ a b c, before a b = true → before b c = true → before a c = true
  before_total : ∀ a b, a ≠ b → before a b = true ∨ before b a = true

namespace World

def binary (w : World) (op : BinaryOp) (k : Kind) (a b : Value) : Value :=
  (op.eval? a b).getD (w.otherwise op k a b)

def compare (w : World) (c : Comparison) (a b : Value) : Bool :=
  (c.eval? a b).getD (c.holds (a = b) (w.before a b) (w.before b a))

end World

/-- The value with the other sign; values without one become zero. -/
def Value.negateAs (k : Kind) (v : Value) : Value := v.negate?.getD k.zero

/-- The value in another kind; values that are not converted become zero. -/
def Conversion.apply (c : Conversion) (v : Value) : Value := (c.eval? v).getD c.result.zero

namespace World

/-- The answers of a world have the kinds that are asked for, and exceptions are objects. -/
structure Kinded (w : World) : Prop where
  value : ∀ past r v, w.oracle past r = .value v → r.service.result ≠ .void → v.Fits r.service.result
  throws : ∀ past r x, w.oracle past r = .throws x → x.Fits .reference

end World

/-! ## A world -/

/-- The number of a value's constructor. -/
def Value.sort : Value → Nat
  | int _ => 0
  | long _ => 1
  | double _ => 2
  | word _ => 3
  | reference _ => 4
  | null => 5

/-- The place of a value in an order of all values: by sort, then by register image. -/
def Value.place (v : Value) : Nat := v.sort * 18446744073709551616 + v.bits.toNat

theorem Value.eq_of_bits {a b : Value} (hs : a.sort = b.sort) (hb : a.bits = b.bits) : a = b := by
  have hl : ∀ {x y : Int64}, x.toUInt64 = y.toUInt64 → x = y := by
    rintro ⟨x⟩ ⟨y⟩ ⟨⟩
    rfl
  cases a <;> cases b <;> try cases hs
  case int.int x y =>
    have h : x.toInt64 = y.toInt64 := hl hb
    rw [← Int64.toInt_inj, Int32.toInt_toInt64, Int32.toInt_toInt64, Int32.toInt_inj] at h
    rw [h]
  case long.long x y => rw [hl hb]
  case double.double x y =>
    cases x
    cases y
    cases hb
    rfl
  case word.word x y => exact congrArg word hb
  case reference.reference x y =>
    cases x
    cases y
    cases hb
    rfl
  case null.null => rfl

theorem Value.place_inj {a b : Value} (h : a.place = b.place) : a = b := by
  have ha := a.bits.toNat_lt
  have hb := b.bits.toNat_lt
  simp only [place] at h
  exact eq_of_bits (by omega) (UInt64.toNat_inj.mp (by omega))

/-- A world in which the order is that of places, and everything left open is zero. -/
def World.standard (args : List Value) (oracle : List Event → Request → Reply) : World where
  args := args
  oracle := oracle
  otherwise _ k _ _ := k.zero
  otherwise_fits _ _ _ _ := rfl
  before a b := a.place < b.place
  before_irrefl _ := decide_eq_false (Nat.lt_irrefl _)
  before_trans _ _ _ hab hbc :=
    decide_eq_true (Nat.lt_trans (of_decide_eq_true hab) (of_decide_eq_true hbc))
  before_total _ _ hab :=
    (Nat.lt_or_gt_of_ne fun h => hab (Value.place_inj h)).imp decide_eq_true decide_eq_true

/-! ## Stores -/

/-- What numbered places hold; a place may hold nothing yet. -/
abbrev Store := Nat → Option Value

namespace Store

def empty : Store := fun _ => none

def set (s : Store) (x : Nat) (v : Option Value) : Store := fun y => if y = x then v else s y

/-- Sets several places, one after the other. -/
def setAll (s : Store) : List Nat → List (Option Value) → Store
  | x :: xs, v :: vs => (s.set x v).setAll xs vs
  | _, _ => s

/-- The values of several places, if all hold one. -/
def read (s : Store) : List Nat → Option (List Value)
  | [] => some []
  | x :: xs =>
    match s x, s.read xs with
    | some v, some vs => some (v :: vs)
    | _, _ => none

@[simp] theorem set_self (s : Store) (x : Nat) (v : Option Value) : s.set x v x = v := by
  simp [set]

@[simp] theorem set_ne (s : Store) {x y} (v : Option Value) (h : y ≠ x) :
    s.set x v y = s y := by
  simp [set, h]

theorem setAll_of_not_mem {y} : ∀ (s : Store) (xs : List Nat) (vs : List (Option Value)),
    y ∉ xs → s.setAll xs vs y = s y
  | _, [], _, _ => rfl
  | _, _ :: _, [], _ => rfl
  | s, x :: xs, v :: vs, h => by
    simp only [mem_cons, not_or] at h
    rw [setAll, setAll_of_not_mem _ xs vs h.2, set_ne _ _ h.1]

theorem map_setAll : ∀ (s : Store) (xs : List Nat) (vs : List (Option Value)), xs.Nodup →
    xs.length = vs.length → xs.map (s.setAll xs vs) = vs
  | _, [], [], _, _ => rfl
  | s, x :: xs, v :: vs, hn, hl => by
    simp only [nodup_cons] at hn
    have hx : (s.set x v).setAll xs vs x = v := by
      rw [setAll_of_not_mem _ xs vs hn.1, set_self]
    have hxs := map_setAll (s.set x v) xs vs hn.2 (by simpa using hl)
    simp only [map_cons, setAll, hx, hxs]

theorem read_eq_some {s : Store} : ∀ {xs : List Nat} {vs : List Value},
    s.read xs = some vs ↔ xs.map s = vs.map some
  | [], [] => by simp [read]
  | [], _ :: _ => by simp [read]
  | x :: xs, [] => by
    simp only [read, map_cons, map_nil]
    constructor
    · intro h
      split at h <;> simp at h
    · intro h
      cases h
  | x :: xs, v :: vs => by
    simp only [read, map_cons, cons.injEq, ← @read_eq_some s xs vs]
    constructor
    · intro h
      split at h
      · next hx hxs =>
        simp only [Option.some.injEq, cons.injEq] at h
        exact ⟨h.1 ▸ hx, h.2 ▸ hxs⟩
      · cases h
    · intro h
      simp [h.1, h.2]

theorem read_congr {s t : Store} {xs ys} (h : xs.map s = ys.map t) :
    s.read xs = t.read ys := by
  induction xs generalizing ys with
  | nil => cases ys with
    | nil => rfl
    | cons => simp at h
  | cons x xs ih =>
    cases ys with
    | nil => simp at h
    | cons y ys =>
      simp only [map_cons, cons.injEq] at h
      simp only [read, h.1, ih h.2]

end Store
end StackCompiler
