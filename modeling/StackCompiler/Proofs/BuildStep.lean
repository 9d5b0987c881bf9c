/-
What reading one instruction does to a cursor, said once: it rearranges the
nodes of the frame, adds a node, or ends the block. Each case also says what the
stack machine does at the instruction, and what it does to kinds.
-/
import StackCompiler.Emission.Line
import StackCompiler.Graph.Build
import StackCompiler.Proofs.GraphMachine
import StackCompiler.Proofs.GraphFacts
import StackCompiler.Proofs.KindMachine
import StackCompiler.Proofs.StackMachine

namespace StackCompiler

open Instruction List Signature Convention

/-- The kind of a node agrees with what it computes, given the kinds of its inputs. -/
def Operator.HasKind (op : Operator) (kindOf : NodeId → Kind) (s : Signature) (k : Kind) : Prop :=
  match op with
  | .constant v => v.Fits k
  | .binary _ lhs rhs => kindOf lhs = k ∧ kindOf rhs = k
  | .negate x => kindOf x = k
  | .convert c x => kindOf x = c.source ∧ k = c.result
  | .parameter index => s.params[index]? = some k
  | .blockParam .. => False
  | .safepoint => k = .void
  | .caught => k = .reference
  | .callStatic callee args => ∃ s, callee.signature? = some s ∧ args.map kindOf = s.params ∧ s.result = k
  | op => ∃ service, op.service? = some service ∧ service.result = k

/-- An operator on values of a kind that instructions can be emitted for. -/
def Operator.Codable (op : Operator) (kind : Kind) : Prop :=
  match op with
  | .binary op _ _ => kind = .double → (Emission.doubleOpcode? op).isSome = true
  | .parameter index => index < arguments.length
  | .callStatic _ args | .callNative _ args | .callIndirect _ _ args =>
    args.length ≤ arguments.length
  | _ => True

theorem Operator.Codable.mapInputs {op : Operator} {kind} (h : op.Codable kind) (f : NodeId → NodeId) :
    (op.mapInputs f).Codable kind := by
  cases op with
  | callStatic callee args | callNative callee args | callIndirect target signature args =>
    exact Nat.le_trans (Nat.le_of_eq (length_map f)) h
  | _ => exact h

/-- What asks for something goes on with the next instruction. -/
theorem Instruction.next_of_request? {insn : Instruction} {stack r} (h : insn.request? stack = some r) :
    insn.target? = none ∧ insn.endsFlow = false := by
  cases insn <;> first | exact ⟨rfl, rfl⟩ | cases h

namespace Graph

namespace Cursor

def withStack (c : Cursor) (stack : List NodeId) : Cursor :=
  { c with frame := { c.frame with stack } }

/-- The nodes that the frame holds. -/
def held (c : Cursor) : List NodeId := c.frame.locals ++ c.frame.stack

def kinds (c : Cursor) : List Kind := c.frame.stack.map c.graph.kindOf

variable {c c' : Cursor} {ctx : Context} {pc : Nat}

theorem append_size (c : Cursor) (n : Node) : (c.append n).2.graph.nodes.size = c.graph.nodes.size + 1 :=
  addNode_size _ _

theorem append_fst_lt (c : Cursor) (n : Node) : c.graph.nodes.size < (c.append n).2.graph.nodes.size := by
  rw [append_size]
  exact Nat.lt_succ_self _

theorem append_body (c : Cursor) (n : Node) :
    (c.append n).2.body.toList = c.body.toList ++ [c.graph.nodes.size] := by
  simp [append]

theorem append_node_self (c : Cursor) (n : Node) : (c.append n).2.graph.node c.graph.nodes.size = n :=
  (node_addNode _ _ _).trans (if_pos rfl)

theorem append_node_lt (c : Cursor) (n : Node) {x} (hx : x < c.graph.nodes.size) :
    (c.append n).2.graph.node x = c.graph.node x :=
  (node_addNode _ _ _).trans (if_neg (Nat.ne_of_lt hx))

theorem take?_kinds {args rest ks} (h : c.frame.stack = args ++ rest) (hk : args.map c.graph.kindOf = ks) :
    Kind.take? ks c.kinds = some (c.withStack rest).kinds := by
  rw [kinds, h, map_append, hk]
  exact Kind.take?_append _ _

variable {bci : Nat} {k : Kind} {kinds : List Kind} {op : StackOp}

section
variable {β : Type} {r : β}

theorem popAny_bind {f} (h : (c.popAny ctx pc >>= f) = .ok r) :
    ∃ id stack, c.frame.stack = id :: stack ∧ f (id, c.withStack stack) = .ok r := by
  obtain ⟨⟨id, c₁⟩, hp, h⟩ := bind_eq_ok.mp h
  unfold popAny at hp
  split at hp
  · cases hp
  · next stack hs =>
    cases hp
    exact ⟨id, stack, hs, h⟩

theorem pop_bind {f} (h : (c.pop ctx pc k >>= f) = .ok r) :
    ∃ id stack, c.frame.stack = id :: stack ∧ c.graph.kindOf id = k ∧ f (id, c.withStack stack) = .ok r := by
  obtain ⟨_, hp, h⟩ := bind_eq_ok.mp h
  obtain ⟨id, stack, hs, hp⟩ := popAny_bind hp
  dsimp only at hp
  split at hp
  · next hk =>
    cases hp
    exact ⟨id, stack, hs, hk, h⟩
  · cases hp

theorem popReversed_eq_ok : ∀ {c : Cursor} {found ids : List NodeId},
    popReversed ctx pc kinds c found = .ok (ids, c') →
    ∃ args stack, c.frame.stack = args ++ stack ∧ args.map c.graph.kindOf = kinds ∧
      ids = args.reverse ++ found ∧ c' = c.withStack stack := by
  induction kinds with
  | nil =>
    intro c found ids h
    cases h
    exact ⟨[], _, rfl, rfl, rfl, rfl⟩
  | cons k kinds ih =>
    intro c found ids h
    obtain ⟨id, stack₁, hs, hk, h⟩ := pop_bind h
    obtain ⟨args, stack, hs', hki, rfl, rfl⟩ := ih h
    refine ⟨id :: args, stack, hs.trans (congrArg _ hs'), ?_, by simp, rfl⟩
    rw [map_cons, hk]
    exact congrArg _ hki

theorem popArgs_bind {f} (h : (c.popArgs ctx pc kinds >>= f) = .ok r) : ∃ args stack,
    c.frame.stack = args.reverse ++ stack ∧ args.map c.graph.kindOf = kinds ∧ f (args, c.withStack stack) = .ok r := by
  obtain ⟨⟨args, c₁⟩, hp, h⟩ := bind_eq_ok.mp h
  obtain ⟨ids, stack, hs, hk, rfl, rfl⟩ := popReversed_eq_ok hp
  refine ⟨_, stack, by simpa using hs, ?_, h⟩
  simp only [append_nil, map_reverse, hk, reverse_reverse]

end

/-! ## Instructions on stack and locals -/

/-- The effect of an instruction on stack and locals, the latter as many as declared where values matter. -/
inductive StackStep (c : Cursor) (kinds : List Kind) (bci : Nat) (op : StackOp) : Cursor → Prop
  | frame (locals stack : List NodeId)
      (held : ∀ n ∈ locals ++ stack, n ∈ c.held)
      (locals_kinds : c.frame.locals.map c.graph.kindOf = kinds → locals.map c.graph.kindOf = kinds)
      (apply : c.frame.locals.length = kinds.length → ∀ (w : World) (f : NodeId → Value),
        op.apply w (c.frame.locals.map f) (c.frame.stack.map f) = some (locals.map f, stack.map f))
      (kinds_eq : c.frame.locals.map c.graph.kindOf = kinds →
        op.kinds? kinds c.kinds = some (stack.map c.graph.kindOf)) :
      StackStep c kinds bci op { c with frame := ⟨locals, stack⟩ }
  | node (operator : Operator) (kind : Kind) (stack : List NodeId)
      (held : stack <:+ c.frame.stack)
      (inputs : ∀ n ∈ operator.inputs, n ∈ c.frame.stack)
      (pure : operator.isPure = true)
      (hasKind : operator.HasKind c.graph.kindOf c.graph.signature kind)
      (apply : ∀ (w : World) (f : NodeId → Value), ∃ v,
        op.apply w (c.frame.locals.map f) (c.frame.stack.map f) =
          some (c.frame.locals.map f, v :: stack.map f) ∧
        operator.value? w kind (fun n => some (f n)) = some v)
      (codable : operator.Codable kind)
      (kinds_eq : op.kinds? kinds c.kinds = some (kind :: stack.map c.graph.kindOf)) :
      StackStep c kinds bci op ((c.withStack stack).pushNew operator kind bci)

theorem binary_eq_ok {op} (h : c.binary ctx pc bci op k = .ok c') :
    ∃ lhs rhs stack, c.frame.stack = rhs :: lhs :: stack ∧ c.graph.kindOf lhs = k ∧
      c.graph.kindOf rhs = k ∧ c' = (c.withStack stack).pushNew (.binary op lhs rhs) k bci := by
  obtain ⟨rhs, stack₁, hs₁, hr, h⟩ := pop_bind h
  obtain ⟨lhs, stack, hs, hl, h⟩ := pop_bind h
  cases h
  exact ⟨lhs, rhs, stack, hs₁.trans (congrArg _ hs), hl, hr, rfl⟩

theorem negate_eq_ok (h : c.negate ctx pc bci k = .ok c') :
    ∃ x stack, c.frame.stack = x :: stack ∧ c.graph.kindOf x = k ∧
      c' = (c.withStack stack).pushNew (.negate x) k bci := by
  obtain ⟨x, stack, hs, hk, h⟩ := pop_bind h
  cases h
  exact ⟨x, stack, hs, hk, rfl⟩

theorem StackStep.const {v} (ha : ∀ w locals stack, op.apply w locals stack = some (locals, v :: stack))
    (hk : ∀ stack, op.kinds? kinds stack = some (v.kind :: stack)) :
    StackStep c kinds bci op (c.pushNew (.constant v) v.kind bci) :=
  .node (.constant v) v.kind c.frame.stack suffix_rfl (by simp [Operator.inputs]) rfl
    (by cases v <;> rfl) (fun w f => ⟨v, ha w _ _, rfl⟩) trivial (hk _)

theorem StackStep.arith {bop lhs rhs stack} (hs : c.frame.stack = rhs :: lhs :: stack) (hl : c.graph.kindOf lhs = k)
    (hr : c.graph.kindOf rhs = k)
    (ha : ∀ w locals a b stack, op.apply w locals (b :: a :: stack) = some (locals, w.binary bop k a b :: stack))
    (hc : k = .double → (Emission.doubleOpcode? bop).isSome = true)
    (hk : ∀ stack, op.kinds? kinds stack = (Kind.take? [k, k] stack).map (k :: ·)) :
    StackStep c kinds bci op ((c.withStack stack).pushNew (.binary bop lhs rhs) k bci) := by
  refine .node (.binary bop lhs rhs) k stack ⟨[rhs, lhs], hs.symm⟩ (by simp [Operator.inputs, hs]) rfl ⟨hl, hr⟩
    (fun w f => ⟨w.binary bop k (f lhs) (f rhs), ?_, rfl⟩) hc ?_
  · rw [hs]
    exact ha w _ _ _ _
  · have ht := @take?_kinds c [rhs, lhs] stack [k, k] hs (by simp [hl, hr])
    rw [hk, ht]
    rfl

theorem StackStep.unary {operator x stack} (hs : c.frame.stack = x :: stack) (hi : operator.inputs = [x])
    (hp : operator.isPure = true) (hk : operator.HasKind c.graph.kindOf c.graph.signature k)
    (ha : ∀ (w : World) (f : NodeId → Value) locals stack, ∃ v,
      op.apply w locals (f x :: stack) = some (locals, v :: stack) ∧
        operator.value? w k (fun n => some (f n)) = some v) (hc : operator.Codable k)
    (hki : ∀ stack, op.kinds? kinds stack = (Kind.take? [c.graph.kindOf x] stack).map (k :: ·)) :
    StackStep c kinds bci op ((c.withStack stack).pushNew operator k bci) := by
  refine .node operator k stack ⟨[x], hs.symm⟩ (by simp [hi, hs]) hp hk (fun w f => ?_) hc ?_
  · rw [hs]
    exact ha w f _ _
  · have ht := @take?_kinds c [x] stack [c.graph.kindOf x] hs rfl
    rw [hki, ht]
    rfl

theorem step_stackStep (h : c.step ctx pc bci op = .ok c') :
    StackStep c ctx.localKinds bci op c' := by
  cases op with
  | constInt v | constLong v | constDouble v | constNull | constObject v =>
    cases h
    exact .const (fun _ _ _ => rfl) fun _ => rfl
  | load index =>
    simp only [step] at h
    split at h
    · next id hid =>
      cases h
      refine .frame c.frame.locals (id :: c.frame.stack) ?_ (fun hl => hl) (fun _ w f => ?_) fun hl => ?_
      · intro n hn
        have hm := mem_of_getElem? hid
        simp only [held, mem_append, mem_cons] at hn ⊢
        rcases hn with hn | rfl | hn
        · exact .inl hn
        · exact .inl hm
        · exact .inr hn
      · simp [StackOp.apply, hid]
      · simp [StackOp.kinds?, ← hl, hid, kinds]
    · cases h
  | store index =>
    simp only [step] at h
    split at h
    · cases h
    · next k hk =>
      obtain ⟨id, stack, hs, hki, h⟩ := pop_bind h
      cases h
      refine .frame (c.frame.locals.set index id) stack ?_ (fun hl => ?_) (fun hl w f => ?_) fun _ => ?_
      · intro n hn
        simp only [held, mem_append] at hn ⊢
        rcases hn with hn | hn
        · rcases mem_or_eq_of_mem_set hn with hn | rfl
          · exact .inl hn
          · exact .inr (by rw [hs]; exact mem_cons_self)
        · exact .inr (by rw [hs]; exact mem_cons_of_mem _ hn)
      · obtain ⟨hi, rfl⟩ := List.getElem?_eq_some_iff.mp hk
        rw [map_set, hki, hl, set_getElem_self]
      · have hlt : index < c.frame.locals.length := hl ▸ (List.getElem?_eq_some_iff.mp hk).1
        simp [StackOp.apply, hs, hlt]
      · rw [StackOp.kinds?, hk]
        exact @take?_kinds c [id] stack _ hs (congrArg (fun k => [k]) hki)
  | pop =>
    obtain ⟨id, stack, hs, h⟩ := popAny_bind h
    cases h
    refine .frame c.frame.locals stack ?_ (fun hl => hl) (fun _ w f => by simp [StackOp.apply, hs]) fun _ => by
      simp [StackOp.kinds?, kinds, hs]
    intro n hn
    simp only [held, mem_append, hs, mem_cons] at hn ⊢
    exact hn.imp (fun h => h) .inr
  | dup =>
    obtain ⟨id, stack, hs, h⟩ := popAny_bind h
    cases h
    refine .frame c.frame.locals (id :: c.frame.stack) ?_ (fun hl => hl) (fun _ w f => by
      simp [StackOp.apply, hs]) fun _ => by simp [StackOp.kinds?, kinds, hs]
    intro n hn
    simp only [held, mem_append, hs, mem_cons] at hn ⊢
    rcases hn with hn | rfl | hn
    · exact .inl hn
    · exact .inr (.inl rfl)
    · exact .inr hn
  | intOp bop | longOp bop =>
    obtain ⟨lhs, rhs, stack, hs, hl', hr, rfl⟩ := binary_eq_ok h
    exact .arith hs hl' hr (fun _ _ _ _ _ => rfl) (fun hk => by cases hk) fun _ => rfl
  | doubleOp dop =>
    obtain ⟨lhs, rhs, stack, hs, hl', hr, rfl⟩ := binary_eq_ok h
    exact .arith hs hl' hr (fun _ _ _ _ _ => rfl) (fun _ => by cases dop <;> rfl) fun _ => rfl
  | negInt | negLong =>
    obtain ⟨x, stack, hs, hk, rfl⟩ := negate_eq_ok h
    exact .unary hs rfl rfl hk (fun _ _ _ _ => ⟨_, rfl, rfl⟩) trivial fun _ => by rw [hk]; rfl
  | convert conv =>
    obtain ⟨x, stack, hs, hk, h⟩ := pop_bind h
    cases h
    exact .unary hs rfl rfl ⟨hk, rfl⟩ (fun _ _ _ _ => ⟨_, rfl, rfl⟩) trivial fun _ => by rw [hk]; rfl

end Cursor

/-! ## All instructions -/

def Cursor.addPoll (c : Cursor) (pc : Nat) : Cursor :=
  (c.append { op := .safepoint, kind := .void, bci := pc }).2

/-- A branch polls if it leads backwards. -/
theorem Plan.poll_cases {P : Cursor → Prop} {c pc target} (hp : target ≤ pc → P (c.addPoll pc))
    (hc : pc < target → P c) :
    P (poll c pc target) := by
  unfold poll
  split
  · next hle => exact hp hle
  · next hlt => exact hc (Nat.lt_of_not_le hlt)

/-- Adds a constant to the block that stands in no frame. -/
def Cursor.addConstant (c : Cursor) (v : Value) (pc : Nat) : Cursor :=
  (c.append { op := .constant v, kind := v.kind, bci := pc }).2

namespace Plan

/-- An instruction that branches to `target` after a comparison with a value of kind `k`. -/
structure Branches (insn : Instruction) (pc target : Nat) (k : Kind) : Prop where
  kinds : ∀ locals result stack, insn.kinds? locals result stack = Kind.take? [k] stack
  next : insn.next pc = [target, pc + 1]
  target : insn.target? = some target

/-- The effect of an instruction: the cursor behind it, and how the block leaves if it does. -/
inductive StepSpec (p : Plan) (c : Cursor) (pc : Nat) : Instruction → Cursor → Option Exit → Prop
  | stack {op c'} (h : c.StackStep p.context.localKinds pc op c') :
      StepSpec p c pc (.stack op) c' none
  | ask {insn} (operator : Operator) (service : Service) (stack : List NodeId)
      (service? : operator.service? = some service)
      (held : stack <:+ c.frame.stack)
      (inputs : ∀ n ∈ operator.inputs, n ∈ c.frame.stack)
      (request : ∀ f : NodeId → Value, insn.request? (c.frame.stack.map f) =
        some (⟨service, operator.inputs.map f⟩, stack.map f))
      (hasKind : operator.HasKind c.graph.kindOf c.graph.signature service.result)
      (codable : operator.Codable service.result)
      (kinds_eq : insn.kinds? p.context.localKinds c.graph.signature.result c.kinds =
        some (service.result.pushOn (c.withStack stack).kinds)) :
      StepSpec p c pc insn (p.call (c.withStack stack) operator service.result pc) none
  | poll : StepSpec p c pc .safepoint (c.addPoll pc) none
  | jump (target : Nat) : StepSpec p c pc (.goto target) (poll c pc target) (some (.jump target))
  | branchConst {insn} (cond : Comparison) (v : Value) (lhs : NodeId)
      (stack : List NodeId) (target : Nat)
      (stack_eq : c.frame.stack = lhs :: stack)
      (next : pc + 1 < p.method.code.length)
      (test : ∀ (w : World) (f : NodeId → Value), insn.test? w (c.frame.stack.map f) =
        some (w.compare cond (f lhs) v, target, stack.map f))
      (kind : c.graph.kindOf lhs = v.kind) (branches : Branches insn pc target v.kind) :
      StepSpec p c pc insn (poll ((c.withStack stack).addConstant v pc) pc target)
        (some (.branch cond lhs c.graph.nodes.size target (pc + 1)))
  | branchCompare (cond : Comparison) (lhs rhs : NodeId) (stack : List NodeId) (target : Nat)
      (stack_eq : c.frame.stack = rhs :: lhs :: stack)
      (next : pc + 1 < p.method.code.length) (kind : c.graph.kindOf lhs = c.graph.kindOf rhs) :
      StepSpec p c pc (.ifCompare cond target) (poll (c.withStack stack) pc target)
        (some (.branch cond lhs rhs target (pc + 1)))
  | raise (x : NodeId) (stack : List NodeId) (stack_eq : c.frame.stack = x :: stack)
      (kind : c.graph.kindOf x = .reference) :
      StepSpec p c pc .raise (c.withStack stack) (some (.raise x (p.handlerEdge pc c.frame)))
  | ret (void : c.graph.signature.result = .void) : StepSpec p c pc .ret c (some (.ret none))
  | retValue (x : NodeId) (stack : List NodeId) (stack_eq : c.frame.stack = x :: stack)
      (kind : c.graph.kindOf x = c.graph.signature.result) :
      StepSpec p c pc .retValue (c.withStack stack) (some (.ret (some x)))

variable {p : Plan} {c c' : Cursor} {pc : Nat}

theorem calleeSignature_eq_ok {name descriptor s} (h : calleeSignature name descriptor = .ok s) :
    parse? descriptor = some s ∧ s.params.length ≤ maxArguments := by
  simp only [calleeSignature, bind_eq_ok] at h
  obtain ⟨s', h₁, h₂⟩ := h
  unfold parse at h₁
  split at h₁
  · next hs =>
    cases h₁
    split at h₂
    · cases h₂
    · next hle =>
      cases h₂
      exact ⟨hs, Nat.le_of_not_lt hle⟩
  · cases h₁

/-- The arguments of a call are as many as the signature that was checked has parameters. -/
theorem few_args {α : Type} {args : List α} {params : List Kind} {f} (h : args.map f = params)
    (hf : params.length ≤ maxArguments) : args.length ≤ arguments.length :=
  length_map f ▸ h ▸ hf

theorem takeArgs_append (args rest : List Value) :
    takeArgs args.length (args.reverse ++ rest) = some (args, rest) := by
  have h : args.length = args.reverse.length := by simp
  simp only [takeArgs, length_append, ← h, Nat.le_add_right, if_true]
  rw [h, take_left, drop_left, reverse_reverse]

theorem request_ask {operator : Operator} {stack} {service count}
    (hs : c.frame.stack = operator.inputs.reverse ++ stack) (hc : count = operator.inputs.length) (f : NodeId → Value) :
    request?.ask (c.frame.stack.map f) service count =
      some (⟨service, operator.inputs.map f⟩, stack.map f) := by
  have h := takeArgs_append (operator.inputs.map f) (stack.map f)
  rw [length_map, ← hc] at h
  simp only [request?.ask, hs, map_append, map_reverse, h]

variable {insn : Instruction} {x : Option Exit}

theorem StepSpec.ask_of (operator : Operator) {service stack} (hs : c.frame.stack = operator.inputs.reverse ++ stack)
    (hse : operator.service? = some service) {k} (hk : service.result = k)
    (hr : ∀ st, insn.request? st = request?.ask st service operator.inputs.length)
    (hkin : operator.HasKind c.graph.kindOf c.graph.signature k) (hc : operator.Codable k)
    (hki : insn.kinds? p.context.localKinds c.graph.signature.result c.kinds =
      (Kind.take? (operator.inputs.reverse.map c.graph.kindOf) c.kinds).map k.pushOn) :
    StepSpec p c pc insn (p.call (c.withStack stack) operator k pc) none := by
  subst hk
  refine .ask operator service stack hse ⟨_, hs.symm⟩ (fun n hn => ?_) (fun f => ?_) hkin hc ?_
  · rw [hs]
    exact mem_append_left _ (mem_reverse.mpr hn)
  · rw [hr]
    exact request_ask hs rfl f
  · rw [hki, Cursor.take?_kinds hs rfl]
    rfl

theorem branch_eq_ok {cond lhs rhs target} (h : p.branch c cond lhs rhs pc target = .ok (c', x)) :
    pc + 1 < p.method.code.length ∧ c' = poll c pc target ∧
      x = some (.branch cond lhs rhs target (pc + 1)) := by
  unfold branch at h
  split at h
  · cases h
  · next hlt =>
    cases h
    exact ⟨by omega, rfl, rfl⟩

theorem branchConst_stepSpec {cond v target} (h : p.branchConst c cond v pc target = .ok (c', x))
    (ht : ∀ w st, insn.test? w st = test?.against w st cond v target)
    (hb : Branches insn pc target v.kind) :
    StepSpec p c pc insn c' x := by
  obtain ⟨lhs, stack, hs, hk, h⟩ := Cursor.pop_bind h
  obtain ⟨hn, rfl, rfl⟩ := branch_eq_ok h
  refine .branchConst cond v lhs stack target hs hn (fun w f => ?_) hk hb
  rw [ht, hs]
  rfl

theorem step_stepSpec (h : p.step c pc insn = .ok (c', x)) : StepSpec p c pc insn c' x := by
  cases insn with
  | stack op =>
    obtain ⟨c₁, hst, h⟩ := bind_eq_ok.mp h
    cases h
    exact .stack (Cursor.step_stackStep hst)
  | newArray element =>
    obtain ⟨length, stack, hs, hk, h⟩ := Cursor.pop_bind h
    cases h
    exact .ask_of (.newArray element length) hs rfl rfl (fun _ => rfl) ⟨_, rfl, rfl⟩ trivial
      (by simp [Operator.inputs, hk]; rfl)
  | newInstance cls =>
    cases h
    exact .ask_of (.newInstance cls) (nil_append c.frame.stack).symm rfl rfl (fun _ => rfl) ⟨_, rfl, rfl⟩ trivial rfl
  | arrayLength =>
    obtain ⟨array, stack, hs, hk, h⟩ := Cursor.pop_bind h
    cases h
    exact .ask_of (.arrayLength array) hs rfl rfl (fun _ => rfl) ⟨_, rfl, rfl⟩ trivial
      (by simp [Operator.inputs, hk]; rfl)
  | arrayLoad element =>
    obtain ⟨index, stack₁, hs₁, hk₁, h⟩ := Cursor.pop_bind h
    obtain ⟨array, stack, hs₂, hk₂, h⟩ := Cursor.pop_bind h
    cases h
    have hk₂ : c.graph.kindOf array = .reference := hk₂
    have hs : c.frame.stack = [array, index].reverse ++ stack := hs₁.trans (congrArg _ hs₂)
    exact .ask_of (.arrayLoad element array index) hs rfl rfl (fun _ => rfl) ⟨_, rfl, rfl⟩ trivial
      (by simp [Operator.inputs, hk₁, hk₂]; rfl)
  | arrayStore element =>
    obtain ⟨value, stack₁, hs₁, hk₁, h⟩ := Cursor.pop_bind h
    obtain ⟨index, stack₂, hs₂, hk₂, h⟩ := Cursor.pop_bind h
    obtain ⟨array, stack, hs₃, hk₃, h⟩ := Cursor.pop_bind h
    cases h
    have hk₂ : c.graph.kindOf index = .int := hk₂
    have hk₃ : c.graph.kindOf array = .reference := hk₃
    have hs : c.frame.stack = [array, index, value].reverse ++ stack :=
      hs₁.trans (congrArg _ (Eq.trans hs₂ (congrArg _ hs₃)))
    refine .ask_of (.arrayStore element array index value) hs rfl rfl (fun _ => rfl) ⟨_, rfl, rfl⟩ trivial ?_
    simp only [Operator.inputs, map_reverse, map_cons, map_nil, hk₁, hk₂, hk₃]
    exact Option.map_id'.symm
  | invokeStatic callee | invokeNative callee =>
    obtain ⟨s, hsi, h⟩ := bind_eq_ok.mp h
    obtain ⟨hp, hf⟩ := calleeSignature_eq_ok hsi
    obtain ⟨args, stack, hs, hki, h⟩ := Cursor.popArgs_bind h
    cases h
    have hs' : callee.signature? = some s := hp
    refine .ask_of _ hs rfl (by simp [Service.result, hs']) (fun st => ?_)
      (by first | exact ⟨s, hs', hki, rfl⟩ | exact ⟨_, rfl, by simp [Service.result, hs']⟩) (few_args hki hf) ?_
    · simp [request?, hs', Operator.inputs, ← hki]
    · simp [kinds?, callKinds?, callable?_eq_some.mpr ⟨hp, hf⟩, Operator.inputs, hki]
  | invokeIndirect descriptor =>
    obtain ⟨s, hsi, h⟩ := bind_eq_ok.mp h
    obtain ⟨hp, hf⟩ := calleeSignature_eq_ok hsi
    obtain ⟨target, stack₁, hs₁, hk, h⟩ := Cursor.pop_bind h
    obtain ⟨args, stack, hs₂, hki, h⟩ := Cursor.popArgs_bind h
    cases h
    have hs : c.frame.stack = target :: (args.reverse ++ stack) := hs₁.trans (congrArg _ hs₂)
    refine .ask (.callIndirect target s args) (.callIndirect s) stack rfl ⟨target :: args.reverse, hs.symm⟩
      (fun n hn => ?_) (fun f => ?_) ⟨_, rfl, rfl⟩ (few_args hki hf) ?_
    · rw [hs]
      rcases mem_cons.mp hn with rfl | hn
      · exact mem_cons_self
      · exact mem_cons_of_mem _ (mem_append_left _ (mem_reverse.mpr hn))
    · have hl : s.params.length = (args.map f).length := by
        rw [← hki, length_map, length_map]
      simp only [request?, hp, hs, map_cons, map_append, map_reverse,
        hl, takeArgs_append, Operator.inputs]
    · have ha : args.map c.graph.kindOf = s.params := hki
      have ht := @Cursor.take?_kinds c (target :: args.reverse) stack _ hs rfl
      rw [map_cons, map_reverse, hk, ha] at ht
      simp [kinds?, callKinds?, callable?_eq_some.mpr ⟨hp, hf⟩, ht]
      rfl
  | safepoint =>
    cases h
    exact .poll
  | raise =>
    obtain ⟨x, stack, hs, hk, h⟩ := Cursor.pop_bind h
    cases h
    exact .raise x stack hs hk
  | ret =>
    simp only [step] at h
    split at h
    · next hv =>
      cases h
      exact .ret hv
    · cases h
  | retValue =>
    obtain ⟨x, stack, hs, hk, h⟩ := Cursor.pop_bind h
    cases h
    exact .retValue x stack hs hk
  | goto target =>
    cases h
    exact .jump target
  | ifZero cond target | ifNull target | ifNonNull target =>
    exact branchConst_stepSpec h (fun _ _ => rfl) ⟨fun _ _ _ => rfl, rfl, rfl⟩
  | ifCompare cond target =>
    obtain ⟨rhs, stack₁, hs₁, h⟩ := Cursor.popAny_bind h
    obtain ⟨lhs, stack, hs₂, hk, h⟩ := Cursor.pop_bind h
    obtain ⟨hne, rfl, rfl⟩ := branch_eq_ok h
    exact .branchCompare cond lhs rhs stack target (hs₁.trans (congrArg _ hs₂)) hne hk

end Plan
end Graph
end StackCompiler
