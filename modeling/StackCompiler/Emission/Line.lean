/-
The machine instructions of linear code, as lines of assembly. A variable on
the stack is loaded into a scratch register for a single instruction. From
high to low addresses a frame holds the saved frame pointer and link
register, then the slots; slot `i` is at `[sp, #8 * i]`.
-/
import StackCompiler.Machine.Opcode
import StackCompiler.Registers.Allocation

namespace StackCompiler

/-- A call of a known method, a call through an address, or a poll. -/
inductive StopKind where
  | direct (callee : MethodKey) (native : Bool)
  | indirect
  | safepoint
deriving DecidableEq, Repr

namespace Emission

/-- What a distance leads to. -/
inductive Place where
  | block (id : Nat)
  | literal (id : LiteralId)
deriving DecidableEq, Repr

/-- One step of emission. -/
inductive Line where
  | insn (opcode : Opcode) (operands : List Operand)
  /-- An instruction whose last operand is the distance to a place. -/
  | toPlace (opcode : Opcode) (operands : List Operand) (place : Place)
  /-- The next instruction is a call or a poll, while these slots and registers hold
  references. -/
  | stop (kind : StopKind) (bci : Nat) (slots registers : List Nat)
  | trap
  /-- The start of a block whose calls fall to a handler. -/
  | block (id : Nat) (handler : Option Nat)
  | refuse (what : String)
deriving DecidableEq, Repr

open Convention

def regs (o : Opcode) (operands : List Reg) : Line := .insn o (operands.map .reg)

def load (r : Reg) (slot : Nat) : Line := .insn .ldrImm [.reg r, .reg .sp, .imm (slot * 8)]

def store (r : Reg) (slot : Nat) : Line := .insn .strImm [.reg r, .reg .sp, .imm (slot * 8)]

def fetch (r : Reg) : Location → Line
  | .register source => regs .mov [r, source]
  | .stack slot => load r slot

/-- The lines that make a variable readable, and the register that then holds it. -/
def read (a : Allocation) (v : Var) (temp : Reg) : List Line × Reg :=
  match a.location v with
  | .register r => ([], r)
  | .stack slot => ([load temp slot], temp)

def dest (a : Allocation) (v : Var) (temp : Reg) : Reg :=
  match a.location v with
  | .register r => r
  | .stack _ => temp

def write (a : Allocation) (v : Var) (source : Reg) : List Line :=
  match a.location v with
  | .register r => if r = source then [] else [regs .mov [r, source]]
  | .stack slot => [store source slot]

/-! ## Frames -/

/-- The most that one instruction moves the stack pointer, to keep it aligned. -/
def maxFrameStep : Nat := 4080

def frameSteps (size : Nat) : List Nat :=
  List.replicate (size / maxFrameStep) maxFrameStep
    ++ (if size % maxFrameStep = 0 then [] else [size % maxFrameStep])

/-- The bytes of all slots, aligned. -/
def frameSize (a : Allocation) : Nat := alignUp (a.slots * referenceSize) frameAlignment

def prologue (size : Nat) : List Line :=
  [.insn .stpPre [.reg .fp, .reg .lr, .reg .sp, .imm (-16)],
   .insn .addImm [.reg .fp, .reg .sp, .imm 0]]
    ++ (frameSteps size).map fun step => .insn .subImm [.reg .sp, .reg .sp, .imm step]

def epilogue (size : Nat) : List Line :=
  (frameSteps size).map (fun step => .insn .addImm [.reg .sp, .reg .sp, .imm step])
    ++ [.insn .ldpPost [.reg .fp, .reg .lr, .reg .sp, .imm 16], .insn .ret []]

/-! ## Instructions -/

def fpr : Operand := .fpr 16

def fpr2 : Operand := .fpr 17

def toFprs (l r : Reg) : List Line :=
  [.insn .fmovDX [fpr, .reg l], .insn .fmovDX [fpr2, .reg r]]

def doubleOpcode? : BinaryOp → Option Opcode
  | .add => some .fadd
  | .sub => some .fsub
  | .mul => some .fmul
  | .div => some .fdiv
  | _ => none

def doubleArith (op : BinaryOp) (d l r : Reg) : List Line :=
  toFprs l r ++
    match doubleOpcode? op with
    | some o => [.insn o [fpr, fpr, fpr2], .insn .fmovXD [.reg d, fpr]]
    | none => [.refuse ("double " ++ op.title)]

/-- Integer arithmetic; a remainder is what a division leaves. -/
def integerArith (op : BinaryOp) (d l r : Reg) : List Line :=
  match op with
  | .add => [regs .addReg [d, l, r]]
  | .sub => [regs .subReg [d, l, r]]
  | .mul => [regs .mul [d, l, r]]
  | .div => [regs .sdiv [d, l, r]]
  | .rem => [regs .sdiv [scratch3, l, r], regs .msub [d, scratch3, r, l]]
  | .and => [regs .andReg [d, l, r]]
  | .or => [regs .orrReg [d, l, r]]
  | .xor => [regs .eorReg [d, l, r]]

def extend (kind : Kind) (d : Reg) : List Line :=
  if kind = .int then [regs .sxtw [d, d]] else []

def arith (op : BinaryOp) (kind : Kind) (d l r : Reg) : List Line :=
  if kind = .double then doubleArith op d l r else integerArith op d l r ++ extend kind d

def negate (kind : Kind) (d s : Reg) : List Line :=
  if kind = .double then
    [.insn .movz [.reg scratch2, .imm 0x8000, .imm 48], regs .eorReg [d, s, scratch2]]
  else regs .neg [d, s] :: extend kind d

def moveConst (d : Reg) (v : Value) : List Line :=
  let bits := v.signedBits
  if 0 ≤ bits ∧ bits ≤ 0xFFFF then [.insn .movImm [.reg d, .imm bits]]
  else if -0x10000 ≤ bits ∧ bits < 0 then [.insn .movn [.reg d, .imm (-bits - 1), .imm 0]]
  else [.refuse ("immediate " ++ v.text)]

/-- The instruction that loads a literal; ints are extended. -/
def literalOpcode : Option Literal → Opcode
  | some (.scalar (.int _)) => .ldrswLiteral
  | _ => .ldrLiteral

/-- The references that are live at a stop: their slots, and the map bits of their registers. -/
def liveRefs (m : Linear.Method) (a : Allocation) (block index : Nat) : List Nat × List Nat :=
  let refs := (a.liveAt block index).filter fun v => m.vars.getD v default = .reference
  let slots := refs.filterMap fun v =>
    match a.location v with
    | .stack slot => some slot
    | .register _ => none
  let registers := refs.filterMap fun v =>
    match a.location v with
    | .stack _ => none
    | .register r => mapIndex? r
  (slots.mergeSort, registers.mergeSort)

def stopLine (m : Linear.Method) (a : Allocation) (block index : Nat) (kind : StopKind)
    (bci : Nat) : Line :=
  let (slots, registers) := liveRefs m a block index
  .stop kind bci slots registers

/-- The lines that call a target whose address, for an indirect call, gets into a scratch
register. -/
def callLines (a : Allocation) (target : CallTarget) (stop : StopKind → Line) : List Line :=
  match target with
  | .direct callee => [stop (.direct callee false), .insn .bl [.rel 0]]
  | .native callee => [stop (.direct callee true), .insn .bl [.rel 0]]
  | .indirect address =>
    let (lines, r) := read a address scratch
    let moved := if r = scratch then [] else [regs .mov [scratch, r]]
    lines ++ moved ++ [stop .indirect, regs .blr [scratch]]

/-- A call, with its arguments, its result, and a trap behind it if it does not return. -/
def call (a : Allocation) (target : CallTarget) (args : List Var) (result : Option Var)
    (noreturn : Bool) (stop : StopKind → Line) : List Line :=
  if args.length > arguments.length then [.refuse s!"call with {args.length} arguments"]
  else
    (args.zip arguments).map (fun (v, r) => fetch r (a.location v))
      ++ callLines a target stop
      ++ (match result with | some v => write a v Convention.result | none => [])
      ++ (if noreturn then [.trap] else [])

/-- The lines of one instruction. -/
def insn (m : Linear.Method) (a : Allocation) (block index : Nat) : Linear.Insn → List Line
  | .move dst src =>
    let (lines, s) := read a src scratch
    lines ++ write a dst s
  | .const dst value =>
    let d := dest a dst scratch
    moveConst d value ++ write a dst d
  | .literal dst id =>
    let d := dest a dst scratch
    .toPlace (literalOpcode m.literals[id]?) [.reg d] (.literal id) :: write a dst d
  | .parameter dst i =>
    match arguments[i]? with
    | some r => write a dst r
    | none => [.refuse s!"parameter {i}"]
  | .arith op kind dst lhs rhs =>
    let (lines, l) := read a lhs scratch
    let (lines', r) := read a rhs scratch2
    let d := dest a dst scratch
    lines ++ lines' ++ arith op kind d l r ++ write a dst d
  | .negate kind dst src =>
    let (lines, s) := read a src scratch
    let d := dest a dst scratch
    lines ++ negate kind d s ++ write a dst d
  | .convert .intToLong dst src =>
    let (lines, s) := read a src scratch
    lines ++ write a dst s
  | .convert .longToInt dst src =>
    let (lines, s) := read a src scratch
    let d := dest a dst scratch
    lines ++ [regs .sxtw [d, s]] ++ write a dst d
  | .call target args result noreturn bci =>
    call a target args result noreturn fun kind => stopLine m a block index kind bci
  | .safepoint bci =>
    [stopLine m a block index .safepoint bci, .insn .ldrImm [.reg latch, .reg latch, .imm 0]]
  | .caught dst => write a dst result

/-! ## Ends of blocks -/

def integerCond : Comparison → Cond
  | .eq => .eq
  | .ne => .ne
  | .lt => .lt
  | .ge => .ge
  | .gt => .gt
  | .le => .le

/-- Conditions that, except for `ne`, are false for doubles without an order. -/
def doubleCond : Comparison → Cond
  | .eq => .eq
  | .ne => .ne
  | .lt => .mi
  | .ge => .ge
  | .gt => .gt
  | .le => .ls

def jump (next : Option Nat) (target : Nat) : List Line :=
  if next = some target then [] else [.toPlace .b [] (.block target)]

/-- Leaves by a condition. Only a condition on integers can be turned around. -/
def branch (next : Option Nat) (cond : Cond) (isDouble : Bool) (taken notTaken : Nat) :
    List Line :=
  if next = some taken ∧ isDouble = false then
    [.toPlace .bCond [.cond cond.negate] (.block notTaken)]
  else .toPlace .bCond [.cond cond] (.block taken) :: jump next notTaken

/-- The lines that leave a block, when `next` stands behind it. -/
def terminator (a : Allocation) (next : Option Nat) : Linear.Terminator → List Line
  | .jump target => jump next target
  | .branch cond kind lhs rhs taken notTaken =>
    let (lines, l) := read a lhs scratch
    let (lines', r) := read a rhs scratch2
    if kind = .double then
      lines ++ lines' ++ toFprs l r ++ [.insn .fcmp [fpr, fpr2]]
        ++ branch next (doubleCond cond) true taken notTaken
    else
      lines ++ lines' ++ [regs .cmp [l, r]]
        ++ branch next (integerCond cond) false taken notTaken
  | .ret none => epilogue (frameSize a)
  | .ret (some v) => fetch result (a.location v) :: epilogue (frameSize a)
  | .unreachable => []

def block (m : Linear.Method) (a : Allocation) (id : Nat) (b : Linear.Block) : List Line :=
  let next := if id + 1 < m.blocks.size then some (id + 1) else none
  .block id b.handler :: b.insns.zipIdx.flatMap (fun (i, index) => insn m a id index i)
    ++ terminator a next b.term

/-- The lines of a method: its prologue, then its blocks. -/
def lines (m : Linear.Method) (a : Allocation) : List Line :=
  prologue (frameSize a) ++ m.blocks.toList.zipIdx.flatMap fun (b, id) => block m a id b

end Emission
end StackCompiler
