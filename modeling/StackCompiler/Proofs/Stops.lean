/-
The stops of emitted code. Each call and each safepoint of linear code, a
site, gives one stop.
-/
import Mathlib.Data.List.Induction
import StackCompiler.Bundle.Install
import StackCompiler.Proofs.EmittedLines
import StackCompiler.Proofs.LinearMachine
import StackCompiler.Proofs.LineShapes

namespace StackCompiler

open Convention List

namespace Linear

/-- A call or a safepoint of linear code. -/
structure Site where
  block : Nat
  /-- The place of the instruction in its block. -/
  index : Nat
  kind : StopKind
  bci : Nat
deriving DecidableEq, Repr

/-- The kind of stop that a call is. -/
def kindOf : CallTarget → StopKind
  | .direct callee => .direct callee false
  | .native callee => .direct callee true
  | .indirect _ => .indirect

/-- The kind and the bytecode position of the stop that an instruction is. -/
def Insn.stop? : Insn → Option (StopKind × Nat)
  | .call target _ _ _ bci => some (kindOf target, bci)
  | .safepoint bci => some (.safepoint, bci)
  | _ => none

/-- Whether an instruction is a call that does not return. -/
def Insn.noreturn : Insn → Bool
  | .call _ _ _ noreturn _ => noreturn
  | _ => false

theorem Insn.stop?_of_isStop {insn : Insn} (h : insn.isStop = true) :
    ∃ kind bci, insn.stop? = some (kind, bci) ∧ (kind = .safepoint ↔ insn.isCall = false) := by
  cases insn with
  | call target => cases target <;> exact ⟨_, _, rfl, by simp [isCall, kindOf]⟩
  | safepoint bci => exact ⟨_, _, rfl, by simp [isCall]⟩
  | _ => cases h

theorem Insn.isStop_of_stop? {insn : Insn} {stop} (h : insn.stop? = some stop) :
    insn.isStop = true := by
  cases insn with
  | call => rfl
  | safepoint => rfl
  | _ => cases h

/-- The site that an instruction is. -/
def Insn.site? (block index : Nat) (insn : Insn) : Option Site :=
  insn.stop?.map fun p => ⟨block, index, p.1, p.2⟩

/-- The sites among some instructions of a block, the first of which has the given index. -/
def sitesFrom (block : Nat) : Nat → List Insn → List Site
  | _, [] => []
  | index, insn :: rest => (insn.site? block index).toList ++ sitesFrom block (index + 1) rest

/-- The sites of a method, in the order of the code. -/
def Method.sites (m : Method) : List Site :=
  m.blocks.toList.zipIdx.flatMap fun (b, id) => sitesFrom id 0 b.insns

/-- The sites in the order of stops in a finished method: direct calls, indirect calls, safepoints. -/
def Method.stopOrder (m : Method) : List Site :=
  m.sites.filter (·.kind.rank = 0) ++ m.sites.filter (·.kind.rank = 1)
    ++ m.sites.filter (·.kind.rank = 2)

/-- The index of the stop of an instruction in a finished method. -/
def Method.stopIndex? (m : Method) (block index : Nat) : Option Nat :=
  m.stopOrder.findIdx? fun s => s.block = block ∧ s.index = index

variable {s : Site} {m : Method}

theorem getElem?_eq_some_iff_split {α : Type} {xs : List α} {k x} :
    xs[k]? = some x ↔ ∃ pre rest, xs = pre ++ x :: rest ∧ k = pre.length := by
  constructor
  · intro h
    obtain ⟨hlt, rfl⟩ := List.getElem?_eq_some_iff.mp h
    refine ⟨xs.take k, xs.drop (k + 1), ?_, (length_take_of_le (Nat.le_of_lt hlt)).symm⟩
    rw [← drop_eq_getElem_cons hlt, take_append_drop]
  · rintro ⟨pre, rest, rfl, rfl⟩
    simp

theorem sitesFrom_eq (block : Nat) : ∀ (n : Nat) (insns : List Insn),
    sitesFrom block n insns = (insns.zipIdx n).flatMap fun p => (p.1.site? block p.2).toList
  | _, [] => rfl
  | n, insn :: rest => by rw [sitesFrom, sitesFrom_eq block (n + 1) rest, zipIdx_cons, flatMap_cons]

theorem Method.mem_sites : s ∈ m.sites ↔
    ∃ b pre insn rest, m.blocks[s.block]? = some b ∧ b.insns = pre ++ insn :: rest ∧
      s.index = pre.length ∧ insn.stop? = some (s.kind, s.bci) := by
  simp only [sites, sitesFrom_eq, mem_flatMap, Prod.exists, mem_zipIdx_iff_getElem?,
    Array.getElem?_toList, Option.mem_toList, Insn.site?, Option.map_eq_some_iff]
  constructor
  · rintro ⟨b, id, hb, insn, index, hi, kind, bci, hs, rfl⟩
    obtain ⟨pre, rest, hins, rfl⟩ := getElem?_eq_some_iff_split.mp hi
    exact ⟨b, pre, insn, rest, hb, hins, rfl, hs⟩
  · rintro ⟨b, pre, insn, rest, hb, hi, hin, hs⟩
    have hg := getElem?_eq_some_iff_split.mpr ⟨pre, rest, hi, hin⟩
    exact ⟨b, s.block, hb, insn, s.index, hg, s.kind, s.bci, hs, rfl⟩

theorem Method.site_unique {s'} (hs : s ∈ m.sites) (hs' : s' ∈ m.sites) (hbl : s.block = s'.block)
    (hi : s.index = s'.index) : s = s' := by
  obtain ⟨b, pre, insn, rest, hb, hin, hp, hst⟩ := mem_sites.mp hs
  obtain ⟨b', pre', insn', rest', hb', hi', hp', hst'⟩ := mem_sites.mp hs'
  rw [hbl, hb'] at hb
  cases hb
  rw [hi, hp'] at hp
  obtain ⟨-, hc⟩ := append_inj (hi'.symm.trans hin) hp
  cases hc
  rw [hst'] at hst
  obtain ⟨block, index, kind, bci⟩ := s
  obtain ⟨block', index', kind', bci'⟩ := s'
  cases hbl
  cases hi
  cases hst
  rfl

theorem rank_le_two (kind : StopKind) : kind.rank ≤ 2 := by
  cases kind with
  | direct => exact Nat.zero_le 2
  | indirect => exact Nat.le_succ 1
  | safepoint => exact Nat.le_refl 2

theorem Method.mem_stopOrder : s ∈ m.stopOrder ↔ s ∈ m.sites := by
  have hra := rank_le_two s.kind
  simp only [stopOrder, mem_append, mem_filter, decide_eq_true_eq]
  constructor
  · rintro ((h | h) | h) <;> exact h.1
  · intro h
    have hc : s.kind.rank = 0 ∨ s.kind.rank = 1 ∨ s.kind.rank = 2 := by omega
    rcases hc with hr | hr | hr
    · exact .inl (.inl ⟨h, hr⟩)
    · exact .inl (.inr ⟨h, hr⟩)
    · exact .inr ⟨h, hr⟩

theorem Method.exists_stopIndex {id b} (hb : m.blocks[id]? = some b) {pre rest insn}
    (hin : b.insns = pre ++ insn :: rest) {kind bci} (hs : insn.stop? = some (kind, bci)) :
    ∃ i, m.stopIndex? id pre.length = some i ∧ m.stopOrder[i]? = some ⟨id, pre.length, kind, bci⟩ := by
  have hm : (⟨id, pre.length, kind, bci⟩ : Site) ∈ m.stopOrder :=
    mem_stopOrder.mpr (mem_sites.mpr ⟨b, pre, insn, rest, hb, hin, rfl, hs⟩)
  have hso : (m.stopIndex? id pre.length).isSome = true := by
    rw [stopIndex?, findIdx?_isSome, any_eq_true]
    exact ⟨_, hm, by simp⟩
  obtain ⟨i, hi⟩ := Option.isSome_iff_exists.mp hso
  obtain ⟨hlt, hp, -⟩ := findIdx?_eq_some_iff_getElem.mp hi
  simp only [decide_eq_true_eq] at hp
  refine ⟨i, hi, ?_⟩
  rw [getElem?_eq_getElem hlt]
  exact congrArg some (site_unique (mem_stopOrder.mp (getElem_mem hlt)) (mem_stopOrder.mp hm)
    hp.1 hp.2)

end Linear

/-! ## The lines of instructions -/

namespace Emission
open Linear

/-- Whether a line neither marks a stop nor starts a block. -/
def Line.isPlain : Line → Bool
  | .stop .. | .block .. => false
  | _ => true

/-- Whether a line is an instruction, or is refused in the place of one. -/
def Line.isInsn : Line → Bool
  | .insn .. | .toPlace .. | .refuse _ => true
  | _ => false

variable {line : Line}

theorem Line.isPlain_of_isInsn (h : line.isInsn = true) : line.isPlain = true := by
  cases line with
  | stop => cases h
  | block => cases h
  | _ => rfl

/-- Lines that are instructions only. -/
def Plain (lines : List Line) : Prop := ∀ line ∈ lines, line.isInsn = true

@[simp] theorem plain_nil : Plain [] := fun _ h => absurd h not_mem_nil

@[simp] theorem plain_cons {rest} :
    Plain (line :: rest) ↔ line.isInsn = true ∧ Plain rest := forall_mem_cons

@[simp] theorem plain_append {xs ys} : Plain (xs ++ ys) ↔ Plain xs ∧ Plain ys :=
  forall_mem_append

theorem Line.stopAt?_of_isInsn (h : line.isInsn = true) (position : Nat) :
    line.stopAt? position = none := by
  cases line with
  | stop => cases h
  | _ => rfl

theorem Plain.stopsFrom {lines} (h : Plain lines) (position : Nat) :
    stopsFrom position lines = [] :=
  stopsFrom_eq_nil (fun line hl _ => Line.stopAt?_of_isInsn (h line hl) _) position

section
variable (a : Allocation)

@[simp] theorem isInsn_regs (o : Opcode) (operands : List Reg) : (regs o operands).isInsn = true := rfl

@[simp] theorem isInsn_fetch (r : Reg) (l : Location) : (fetch r l).isInsn = true := by
  cases l <;> rfl

@[simp] theorem plain_read (v : Var) (temp : Reg) : Plain (read a v temp).1 := by
  unfold read
  split
  · exact plain_nil
  · exact plain_cons.mpr ⟨rfl, plain_nil⟩

@[simp] theorem plain_write (v : Var) (source : Reg) : Plain (write a v source) := by
  unfold write
  split
  · split
    · exact plain_nil
    · exact plain_cons.mpr ⟨rfl, plain_nil⟩
  · exact plain_cons.mpr ⟨rfl, plain_nil⟩

theorem plain_frame {size} : Plain (prologue size ++ epilogue size) := by
  intro line h
  obtain ⟨_, _, _, rfl, -⟩ := assemble_frame h
  rfl

theorem plain_prologue (size : Nat) : Plain (prologue size) := (plain_append.mp plain_frame).1

variable {a} in
theorem Line.Shape.isInsn {c s P} (hs : ¬ s) (h : line.Shape a c s P) : line.isInsn = true := by
  cases h with
  | stop h | trap h => exact absurd h hs
  | _ => rfl

theorem plain_terminator (next : Option Nat) (t : Terminator) : Plain (terminator a next t) := fun line hl =>
  (shape_terminator next hl).elim (fun h => plain_frame line (mem_append_right _ h)) (·.isInsn id)

variable (m : Linear.Method) (id index : Nat)

variable {b : Linear.Block} {i : Insn} {pre rest : List Insn}

theorem plain_insn (h : i.stop? = none) : Plain (insn m a id index i) := fun line hl =>
  (shaped_insn m id index i line hl).isInsn fun hs => by
    obtain ⟨_, _, hn, -⟩ := Insn.stop?_of_isStop hs
    cases h.symm.trans hn

/-- The instruction at a stop. -/
def stopOpcode : StopKind → Opcode
  | .direct .. => .bl
  | .indirect => .blr
  | .safepoint => .ldrImm

/-- The operands of the instruction at a stop. -/
def stopOperands : StopKind → List Operand
  | .direct .. => [.rel 0]
  | .indirect => [.reg scratch]
  | .safepoint => [.reg latch, .reg latch, .imm 0]

/-- The lines that put the result of a call into its place. -/
def storeResult (result : Option Var) : List Line := result.elim [] fun v => write a v Convention.result

theorem plain_storeResult (result : Option Var) : Plain (storeResult a result) := by
  cases result with
  | none => exact plain_nil
  | some v => exact plain_write a v _

/-- What stands behind an instruction: a trap behind a call that does not return. -/
def trapBehind (i : Insn) : List Line := if i.noreturn = true then [.trap] else []

theorem stopsFrom_trapBehind (i : Insn) (position : Nat) : stopsFrom position (trapBehind i) = [] := by
  unfold trapBehind
  split <;> rfl

theorem callLines_eq (target : CallTarget) (stop : StopKind → Line) :
    ∃ before, callLines a target stop = before ++
      [stop (kindOf target), .insn (stopOpcode (kindOf target)) (stopOperands (kindOf target))] ∧
        Plain before := by
  cases target with
  | direct callee => exact ⟨[], rfl, plain_nil⟩
  | native callee => exact ⟨[], rfl, plain_nil⟩
  | indirect address =>
    let r := (read a address scratch).2
    have hm : Plain (if r = scratch then [] else [regs .mov [scratch, r]]) := by
      split
      · exact plain_nil
      · exact plain_cons.mpr ⟨rfl, plain_nil⟩
    exact ⟨_, rfl, plain_append.mpr ⟨plain_read a address _, hm⟩⟩

theorem call_eq (target : CallTarget) {args} (result : Option Var) (noreturn : Bool) (stop : StopKind → Line)
    (ha : ¬ args.length > Convention.arguments.length) :
    ∃ before, call a target args result noreturn stop =
      before ++ stop (kindOf target) ::
        .insn (stopOpcode (kindOf target)) (stopOperands (kindOf target)) ::
          (storeResult a result ++ if noreturn = true then [.trap] else []) ∧ Plain before := by
  obtain ⟨before, hc, hb⟩ := callLines_eq a target stop
  have hf : Plain ((args.zip arguments).map fun p => fetch p.2 (a.location p.1)) := by
    intro line hl
    obtain ⟨p, -, rfl⟩ := mem_map.mp hl
    exact isInsn_fetch _ _
  refine ⟨_ ++ before, ?_, plain_append.mpr ⟨hf, hb⟩⟩
  unfold call
  rw [if_neg ha, hc]
  cases result <;> simp [storeResult]

/-- The lines of a call that is allowed. -/
theorem insn_call {target args result noreturn bci}
    (ha : ∀ what, Line.refuse what ∉ insn m a id index (.call target args result noreturn bci)) :
    ∃ before, insn m a id index (.call target args result noreturn bci) =
      before ++ stopLine m a id index (kindOf target) bci ::
        .insn (stopOpcode (kindOf target)) (stopOperands (kindOf target)) ::
          (storeResult a result ++ if noreturn = true then [.trap] else []) ∧ Plain before := by
  rw [show insn m a id index (.call target args result noreturn bci) =
    call a target args result noreturn fun kind => stopLine m a id index kind bci from rfl]
    at ha ⊢
  refine call_eq a target result noreturn _ fun hlt => ?_
  apply ha s!"call with {args.length} arguments"
  unfold call
  rw [if_pos hlt]
  exact mem_cons_self

/-- The lines of a stop: some before the mark, the mark, its instruction, some behind it, and a trap
if the call does not return. -/
theorem insn_of_stop {kind bci} (h : i.stop? = some (kind, bci))
    (ha : ∀ what, Line.refuse what ∉ insn m a id index i) :
    ∃ before after, insn m a id index i =
      before ++ stopLine m a id index kind bci :: .insn (stopOpcode kind) (stopOperands kind) ::
        (after ++ trapBehind i) ∧ Plain before ∧ Plain after := by
  cases i with
  | call target args result noreturn bci' =>
    cases h
    obtain ⟨before, heq, hb⟩ := insn_call a m id index ha
    exact ⟨before, storeResult a result, heq, hb, plain_storeResult a result⟩
  | safepoint bci' =>
    cases h
    exact ⟨[], [], rfl, plain_nil, plain_nil⟩
  | _ => cases h

/-! ## Positions -/

/-- The lines before a block. -/
def linesBeforeBlock : List Line :=
  prologue (frameSize a) ++ (m.blocks.toList.take id).zipIdx.flatMap fun p => block m a p.2 p.1

/-- The lines before an instruction. -/
def linesBefore : List Line :=
  linesBeforeBlock a m id ++ .block id (m.block id).handler ::
    ((m.block id).insns.take index).zipIdx.flatMap fun p => insn m a id p.2 p.1

/-- The lines of an instruction up to its stop. -/
def linesToStop : List Line :=
  ((m.block id).insns[index]?.elim [] (insn m a id index)).takeWhile Line.isPlain

/-- The position of the stop of an instruction. -/
def stopPosition : Nat := codeSize (linesBefore a m id index ++ linesToStop a m id index)

/-- The stop of a site. -/
def stopOf (s : Site) : Stop :=
  ⟨s.kind, stopPosition a m s.block s.index, s.bci, (liveRefs m a s.block s.index).1,
    (liveRefs m a s.block s.index).2⟩

variable {a m id index}

theorem takeWhile_isPlain {before rest line} (hb : Plain before) (hli : line.isPlain = false) :
    (before ++ line :: rest).takeWhile Line.isPlain = before := by
  rw [takeWhile_append_of_pos fun l hl => Line.isPlain_of_isInsn (hb l hl),
    takeWhile_cons_of_neg (by simp [hli]), append_nil]

theorem linesToStop_eq (hb : m.blocks[id]? = some b) (hi : b.insns = pre ++ i :: rest) {before behind line}
    (heq : insn m a id pre.length i = before ++ line :: behind) (hbe : Plain before)
    (hl : line.isPlain = false) : linesToStop a m id pre.length = before := by
  have hg : (m.block id).insns[pre.length]? = some i := by
    rw [Method.block_eq hb, hi, getElem?_append_right (Nat.le_refl _), Nat.sub_self]
    rfl
  rw [linesToStop, hg, Option.elim_some, heq]
  exact takeWhile_isPlain hbe hl

theorem stopsFrom_insn (hb : m.blocks[id]? = some b) (hi : b.insns = pre ++ i :: rest)
    (ha : ∀ what, Line.refuse what ∉ insn m a id pre.length i) :
    stopsFrom (codeSize (linesBefore a m id pre.length)) (insn m a id pre.length i) =
      (i.site? id pre.length).toList.map (stopOf a m) := by
  unfold Insn.site?
  cases hs : i.stop? with
  | none => rw [(plain_insn a m id pre.length hs).stopsFrom]; rfl
  | some p =>
    obtain ⟨kind, bci⟩ := p
    obtain ⟨before, after, heq, hbe, haf⟩ := insn_of_stop a m id pre.length hs ha
    have hto := linesToStop_eq hb hi heq hbe rfl
    rw [heq, stopsFrom_append, hbe.stopsFrom, nil_append]
    simp only [stopsFrom, stopsFrom_append, Line.stopAt?, stopLine, haf.stopsFrom,
      stopsFrom_trapBehind, Option.toList, Option.map, append_nil, List.map, stopOf, stopPosition,
      hto, codeSize_append]

theorem block_eq (b : Linear.Block) : block m a id b =
    .block id b.handler :: (b.insns.zipIdx.flatMap (fun p => insn m a id p.2 p.1) ++
      terminator a (if id + 1 < m.blocks.size then some (id + 1) else none) b.term) := rfl

theorem lines_eq : lines m a =
    prologue (frameSize a) ++ m.blocks.toList.zipIdx.flatMap fun p => block m a p.2 p.1 := rfl

/-- What is gathered from lines, each at its position, but not from instructions and the starts of blocks. -/
structure Gathers {β : Type} (F : Nat → List Line → List β) : Prop where
  append : ∀ position xs ys, F position (xs ++ ys) = F position xs ++ F (position + codeSize xs) ys
  plain : ∀ {lines}, Plain lines → ∀ position, F position lines = []
  block : ∀ id handler position, F position [.block id handler] = []

section
variable {β : Type} {F : Nat → List Line → List β} (hF : Gathers F)
include hF

/-- From pieces of code that stand behind each other it is gathered piece by piece. -/
theorem Gathers.flatMap {α : Type} {piece : α × Nat → List Line} {marks : α × Nat → List β} {start}
    {xs} (h : ∀ pre x rest, xs = pre ++ x :: rest → (∀ what, Line.refuse what ∉ piece (x, pre.length)) →
      F (start + codeSize (pre.zipIdx.flatMap piece)) (piece (x, pre.length)) = marks (x, pre.length))
    (ha : ∀ what, Line.refuse what ∉ xs.zipIdx.flatMap piece) :
    F start (xs.zipIdx.flatMap piece) = xs.zipIdx.flatMap marks := by
  induction xs using List.reverseRecOn with
  | nil => exact hF.plain plain_nil start
  | append_singleton pre x ih =>
    simp only [zipIdx_append, zipIdx_singleton, Nat.zero_add, flatMap_append, flatMap_singleton, mem_append,
      not_or] at ha ⊢
    have hp := ih (fun before y rest hs => h before y (rest ++ [x]) (by simp [hs])) fun what => (ha what).1
    rw [hF.append, hp, h pre x [] rfl fun what => (ha what).2]

/-- From the lines of a method it is gathered instruction by instruction. -/
theorem Gathers.lines (marks : Nat → Nat → Insn → List β)
    (h : ∀ {id b pre i rest}, m.blocks[id]? = some b → b.insns = pre ++ i :: rest →
      (∀ what, Line.refuse what ∉ insn m a id pre.length i) →
      F (codeSize (linesBefore a m id pre.length)) (insn m a id pre.length i) = marks id pre.length i)
    (ha : ∀ what, Line.refuse what ∉ lines m a) : F 0 (lines m a) =
      m.blocks.toList.zipIdx.flatMap fun p => p.1.insns.zipIdx.flatMap fun q => marks p.2 q.2 q.1 := by
  rw [lines_eq] at ha ⊢
  rw [hF.append, hF.plain (plain_prologue _), nil_append, Nat.zero_add]
  refine hF.flatMap (fun before b behind hbl ha => ?_) fun what hm => ha what (mem_append_right _ hm)
  have hb : m.blocks[before.length]? = some b := by simp [← Array.getElem?_toList, hbl]
  rw [block_eq] at ha ⊢
  rw [← singleton_append, hF.append, hF.block, nil_append, hF.append, hF.plain (plain_terminator a _ _), append_nil]
  refine hF.flatMap (fun pre i rest hi ha => ?_) fun what hm => ha what (mem_cons_of_mem _ (mem_append_left _ hm))
  rw [← h hb hi ha, linesBefore, linesBeforeBlock, Method.block_eq hb, hbl, hi, take_left, take_left]
  simp only [codeSize_append, codeSize, Line.size, Nat.zero_add, Nat.add_zero]

end

theorem linesBeforeBlock_succ {pre rest} (hb : m.blocks.toList = pre ++ b :: rest) :
    linesBeforeBlock a m (pre.length + 1) = linesBeforeBlock a m pre.length ++ block m a pre.length b := by
  have ht : (pre ++ b :: rest).take (pre.length + 1) = pre ++ [b] := by
    rw [append_cons]
    exact take_left' (by simp)
  simp only [linesBeforeBlock, hb, ht, take_left, zipIdx_append, flatMap_append]
  simp

theorem gathers_stopsFrom : Gathers stopsFrom := ⟨stopsFrom_append, Plain.stopsFrom, fun _ _ _ => rfl⟩

/-- Stops come in the order of sites, each with the references that are live there. -/
theorem stops_ofMethod {e} (h : ofMethod m a = .ok e) :
    e.stops.toList = m.sites.map (stopOf a m) := by
  have hs : e.stops.toList = stopsFrom 0 (lines m a) := (added_of_addAll h).stops
  rw [hs, gathers_stopsFrom.lines (fun id index i => (i.site? id index).toList.map (stopOf a m)) stopsFrom_insn
    (added_of_addAll h).allowed]
  simp only [Method.sites, sitesFrom_eq, map_flatMap]

end

end Emission

/-! ## The order of stops -/

namespace Bundle

theorem rank_trans (x y z : Stop) (hxy : decide (x.kind.rank ≤ y.kind.rank) = true)
    (hyz : decide (y.kind.rank ≤ z.kind.rank) = true) : decide (x.kind.rank ≤ z.kind.rank) = true := by
  rw [decide_eq_true_eq] at hxy hyz ⊢
  exact Nat.le_trans hxy hyz

theorem rank_total (x y : Stop) :
    (decide (x.kind.rank ≤ y.kind.rank) || decide (y.kind.rank ≤ x.kind.rank)) = true := by
  rw [Bool.or_eq_true, decide_eq_true_eq, decide_eq_true_eq]
  exact Nat.le_total _ _

theorem filter_orderStops (stops : List Stop) (k : Nat) :
    (orderStops stops).filter (·.kind.rank = k) = stops.filter (·.kind.rank = k) := by
  have hs : (stops.filter (·.kind.rank = k)).Pairwise fun x y =>
      decide (x.kind.rank ≤ y.kind.rank) = true := by
    refine List.Pairwise.imp_of_mem ?_ (pairwise_of_forall_mem_list fun _ _ _ _ => trivial)
    intro x y hx hy _
    have hx := of_decide_eq_true (mem_filter.mp hx).2
    have hy := of_decide_eq_true (mem_filter.mp hy).2
    exact decide_eq_true (by omega)
  have hsu := sublist_mergeSort rank_trans rank_total hs filter_sublist
  have hs' := hsu.filter fun s => s.kind.rank = k
  rw [filter_filter] at hs'
  simp only [Bool.and_self] at hs'
  have hl : ((orderStops stops).filter (·.kind.rank = k)).length =
      (stops.filter (·.kind.rank = k)).length :=
    ((mergeSort_perm stops _).filter _).length_eq
  exact (hs'.eq_of_length hl.symm).symm

theorem eq_filters_of_sorted {stops : List Stop}
    (h : stops.Pairwise fun x y => decide (x.kind.rank ≤ y.kind.rank) = true) :
    stops = stops.filter (·.kind.rank = 0) ++ stops.filter (·.kind.rank = 1)
      ++ stops.filter (·.kind.rank = 2) := by
  induction stops with
  | nil => rfl
  | cons x stops ih =>
    rw [pairwise_cons] at h
    have hra := Linear.rank_le_two x.kind
    have hn : ∀ k, k < x.kind.rank → stops.filter (·.kind.rank = k) = [] := by
      intro k hk
      refine filter_eq_nil_iff.mpr fun y hy => ?_
      have hle := of_decide_eq_true (h.1 y hy)
      rw [decide_eq_true_eq]
      omega
    have hc : x.kind.rank = 0 ∨ x.kind.rank = 1 ∨ x.kind.rank = 2 := by omega
    have hr := ih h.2
    rcases hc with hx | hx | hx
    · simp only [filter_cons, hx]
      simpa using hr
    · rw [hn 0 (by omega)] at hr
      simp only [filter_cons, hx, hn 0 (by omega)]
      simpa using hr
    · rw [hn 0 (by omega), hn 1 (by omega)] at hr
      simp only [filter_cons, hx, hn 0 (by omega), hn 1 (by omega)]
      simpa using hr

theorem orderStops_eq (stops : List Stop) : orderStops stops =
    stops.filter (·.kind.rank = 0) ++ stops.filter (·.kind.rank = 1)
      ++ stops.filter (·.kind.rank = 2) := by
  have h := eq_filters_of_sorted (pairwise_mergeSort rank_trans rank_total stops)
  rw [← filter_orderStops stops 0, ← filter_orderStops stops 1, ← filter_orderStops stops 2]
  exact h

/-- In a finished method stops are ordered by their kind. -/
theorem orderStops_sites {m a e} (h : Emission.ofMethod m a = .ok e) :
    orderStops e.stops.toList = m.stopOrder.map (Emission.stopOf a m) := by
  rw [orderStops_eq, Emission.stops_ofMethod h]
  simp only [Linear.Method.stopOrder, map_append, filter_map]
  rfl

end Bundle
end StackCompiler
