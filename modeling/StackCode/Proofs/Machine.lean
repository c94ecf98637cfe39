import Mathlib.Data.Nat.Init
import Mathlib.Logic.Relation
import StackCode.Proofs.Decoding

/-!
# Running code on integers

The part of the machine that code on `int` and `boolean` values needs: a position, an operand
stack and registers. An instruction is first read as an `Act`, with its operands taken from the
bytes and the pool, and then performed. `Program.run` runs a program for a number of steps;
`Program.Reaches` forgets how many they are.

Branches on a condition share one rule: `Opcode.compare?` takes the operands off the stack and
says whether the branch is taken. Opposite branches are taken in opposite cases
(`compare?_negate`), and comparing with 0 is comparing with the constant 0 (`compare?_zero`).
-/

set_option maxRecDepth 4000

namespace StackCode

open Instruction

/-- The bytes of a method and the pool that they refer to. -/
structure Program where
  bytes : Array UInt8
  pool : Pool

/-- The machine between two instructions. -/
structure Machine where
  pc : ℕ
  stack : List Int32
  regs : ℕ → Int32

/-- What a method leaves: the value returned and the registers. -/
structure Answer where
  value : Int32
  regs : ℕ → Int32

/-! ### Conditions -/

namespace Opcode

/-- The branches that compare a value with 0. -/
def zeroTests : List Opcode := [ifeq, ifne, iflt, ifge, ifgt, ifle]

/-- The branches that compare two values. -/
def pairTests : List Opcode := [ifIcmpeq, ifIcmpne, ifIcmplt, ifIcmpge, ifIcmpgt, ifIcmple]

/-- Whether a branch compares integers. -/
def Compares (op : Opcode) : Prop := op ∈ zeroTests ∨ op ∈ pairTests

instance (op : Opcode) : Decidable op.Compares := inferInstanceAs (Decidable (_ ∨ _))

/-- The relation that a branch tests, by its place within its family. -/
def related (i : UInt8) (a b : Int32) : Bool :=
  if i = 0 then a = b
  else if i = 1 then a ≠ b
  else if i = 2 then a < b
  else if i = 3 then b ≤ a
  else if i = 4 then b < a
  else a ≤ b

/-- Whether a branch on a condition is taken, and the stack behind it. -/
def compare? (op : Opcode) (stack : List Int32) : Option (Bool × List Int32) :=
  if op ∈ zeroTests then
    match stack with
    | v :: stack => some (related (op - ifeq) v 0, stack)
    | _ => none
  else if op ∈ pairTests then
    match stack with
    | b :: a :: stack => some (related (op - ifIcmpeq) a b, stack)
    | _ => none
  else none

theorem related_negate :
    ∀ i ∈ [(0 : UInt8), 1, 2, 3, 4, 5], ∀ a b, related (i ^^^ 1) a b = !related i a b := by
  intro i hi a b
  simp only [List.mem_cons, List.not_mem_nil, or_false] at hi
  have hflip {p q : Prop} [Decidable p] [Decidable q] (h : q ↔ ¬ p) : decide q = !decide p := by
    rw [← decide_not]
    exact decide_eq_decide.mpr h
  rcases hi with rfl | rfl | rfl | rfl | rfl | rfl
  · exact hflip Iff.rfl
  · exact hflip not_not.symm
  · exact hflip Int32.not_lt.symm
  · exact hflip Int32.not_le.symm
  · exact hflip Int32.not_lt.symm
  · exact hflip Int32.not_le.symm

/-- Comparing with 0 has branches of its own, in the order of the general ones. -/
theorem compare?_zero {op : Opcode} (h : op ∈ pairTests) (a : Int32) (stack : List Int32) :
    compare? (op - ifIcmpeq + ifeq) (a :: stack) = compare? op (0 :: a :: stack) := by
  have hall : ∀ op ∈ pairTests, op - ifIcmpeq + ifeq ∈ zeroTests ∧ op ∉ zeroTests ∧
      op - ifIcmpeq + ifeq - ifeq = op - ifIcmpeq := by
    decide
  obtain ⟨hzero, hno, hsame⟩ := hall op h
  unfold compare?
  rw [if_pos hzero, if_neg hno, if_pos h, hsame]

/-- The opposite branch is taken in the opposite case. -/
theorem compare?_negate {op : Opcode} (h : op.Compares) (stack : List Int32) :
    compare? op.negate stack = (compare? op stack).map fun (b, rest) => (!b, rest) := by
  have hzeros : ∀ op ∈ zeroTests, op.negate ∈ zeroTests ∧ op.negate - ifeq = (op - ifeq) ^^^ 1 ∧
      op - ifeq ∈ [(0 : UInt8), 1, 2, 3, 4, 5] := by
    decide
  have hpairs : ∀ op ∈ pairTests, op ∉ zeroTests ∧ op.negate ∉ zeroTests ∧ op.negate ∈ pairTests ∧
      op.negate - ifIcmpeq = (op - ifIcmpeq) ^^^ 1 ∧
        op - ifIcmpeq ∈ [(0 : UInt8), 1, 2, 3, 4, 5] := by
    decide
  unfold compare?
  rcases h with h | h
  · obtain ⟨hneg, hplace, hi⟩ := hzeros op h
    rw [if_pos h, if_pos hneg, hplace]
    cases stack with
    | nil => rfl
    | cons v stack => simp only [Option.map_some, related_negate _ hi]
  · obtain ⟨hno, hno', hneg, hplace, hi⟩ := hpairs op h
    rw [if_neg hno, if_pos h, if_neg hno', if_pos hneg, hplace]
    rcases stack with _ | ⟨v, _ | ⟨w, stack⟩⟩
    · rfl
    · rfl
    · simp only [Option.map_some, related_negate _ hi]

theorem Compares.negate {op : Opcode} (h : op.Compares) : op.negate.Compares := by
  have hall : ∀ op ∈ zeroTests ++ pairTests, op.negate.Compares := by decide
  exact hall op (List.mem_append.mpr h)

theorem Compares.isConditional {op : Opcode} (h : op.Compares) : op.isConditional = true := by
  have hall : ∀ op ∈ zeroTests ++ pairTests, op.isConditional = true := by decide
  exact hall op (List.mem_append.mpr h)

end Opcode

/-! ### Instructions -/

/-- An instruction with its operands. -/
inductive Act where
  | push (v : Int32)
  | load (reg : ℕ)
  | store (reg : ℕ)
  | dup
  | combine (op : Opcode)
  | jump (target : ℕ)
  | test (op : Opcode) (target : ℕ)
  | answer

/-- The integer at a pool index. -/
def Pool.int? (p : Pool) (index : UInt16) : Option Int32 :=
  match p.get? index with
  | some (.int v) => some v
  | _ => none

/-- What an instruction does, if it is one on integers. -/
def Instruction.act? (i : Instruction) (p : Program) : Option Act :=
  if .iconstM1 ≤ i.op ∧ i.op ≤ .iconst5 then some (.push (i.op - .iconst0).toInt8.toInt32)
  else if i.op = .bipush then (byteAt p.bytes (i.pc + 1)).toOption.map fun b =>
    .push b.toInt8.toInt32
  else if i.op = .sipush then (shortAt p.bytes (i.pc + 1)).toOption.map fun v => .push (.ofInt v)
  else if i.op = .ldc then do
    let index ← (byteAt p.bytes (i.pc + 1)).toOption
    return .push (← p.pool.int? index.toUInt16)
  else if i.op = .ldcW then do
    let index ← (shortAt p.bytes (i.pc + 1)).toOption
    return .push (← p.pool.int? (.ofInt index))
  else if i.op = .iload ∨ .iload0 ≤ i.op ∧ i.op ≤ .iload3 then do
    let reg ← (← (i.register? p.bytes).toOption)
    return .load reg
  else if i.op = .istore ∨ .istore0 ≤ i.op ∧ i.op ≤ .istore3 then do
    let reg ← (← (i.register? p.bytes).toOption)
    return .store reg
  else if i.op = .dup then some .dup
  else if i.op = .iand ∨ i.op = .ior ∨ i.op = .ixor then some (.combine i.op)
  else if i.op = .goto ∨ i.op = .gotoW then do
    let target ← (← (i.branchTarget? p.bytes).toOption)
    return .jump target
  else if i.op.Compares then do
    let target ← (← (i.branchTarget? p.bytes).toOption)
    return .test i.op target
  else if i.op = .ireturn then some .answer
  else none

/-- What two values are combined to. -/
def Opcode.combine (op : Opcode) (a b : Int32) : Int32 :=
  if op = .iand then a &&& b else if op = .ior then a ||| b else a ^^^ b

/-- What an instruction does to the machine; `next` is where the next instruction begins. -/
def Act.perform (a : Act) (next : ℕ) (m : Machine) : Option (Machine ⊕ Answer) :=
  match a, m.stack with
  | .push v, stack => some (.inl ⟨next, v :: stack, m.regs⟩)
  | .load reg, stack => some (.inl ⟨next, m.regs reg :: stack, m.regs⟩)
  | .store reg, v :: stack => some (.inl ⟨next, stack, Function.update m.regs reg v⟩)
  | .dup, v :: stack => some (.inl ⟨next, v :: v :: stack, m.regs⟩)
  | .combine op, b :: a :: stack => some (.inl ⟨next, op.combine a b :: stack, m.regs⟩)
  | .jump target, stack => some (.inl ⟨target, stack, m.regs⟩)
  | .test op target, stack =>
    (op.compare? stack).map fun (taken, stack) =>
      .inl ⟨if taken then target else next, stack, m.regs⟩
  | .answer, v :: _ => some (.inr ⟨v, m.regs⟩)
  | _, _ => none

namespace Program

/-- The instruction at `pc`, and where the next one begins. -/
def read (p : Program) (pc : ℕ) : Option (Act × ℕ) := do
  let i ← (decodeAt p.bytes pc).toOption
  return (← i.act? p, pc + i.length)

/-- One instruction. -/
def step (p : Program) (m : Machine) : Option (Machine ⊕ Answer) := do
  let (a, next) ← p.read m.pc
  a.perform next m

/-- At most `n` instructions, up to the return. -/
def run (p : Program) : ℕ → Machine → Option Answer
  | 0, _ => none
  | n + 1, m =>
    match p.step m with
    | some (.inl m') => p.run n m'
    | some (.inr a) => some a
    | none => none

/-- The machine comes from `m` to `m'`. -/
def Reaches (p : Program) : Machine → Machine → Prop :=
  Relation.ReflTransGen fun m m' => p.step m = some (.inl m')

/-- The machine returns from `m`. -/
def Returns (p : Program) (m : Machine) (a : Answer) : Prop :=
  ∃ m', p.Reaches m m' ∧ p.step m' = some (.inr a)

variable {p : Program} {m m' m'' : Machine} {a : Answer}

theorem Reaches.refl (p : Program) (m : Machine) : p.Reaches m m := Relation.ReflTransGen.refl

theorem Reaches.trans (h : p.Reaches m m') (h' : p.Reaches m' m'') : p.Reaches m m'' :=
  Relation.ReflTransGen.trans h h'

theorem Reaches.returns (h : p.Reaches m m') (h' : p.Returns m' a) : p.Returns m a := by
  obtain ⟨m'', hreach, hstep⟩ := h'
  exact ⟨m'', h.trans hreach, hstep⟩

/-- An instruction that is read is performed. -/
theorem reaches_of_read {act : Act} {next : ℕ} (hread : p.read m.pc = some (act, next))
    (hperform : act.perform next m = some (.inl m')) : p.Reaches m m' := by
  refine Relation.ReflTransGen.single ?_
  rw [step, hread]
  exact hperform

theorem returns_of_read {next : ℕ} {v : Int32} {rest : List Int32}
    (hread : p.read m.pc = some (.answer, next)) (hstack : m.stack = v :: rest) :
    p.Returns m ⟨v, m.regs⟩ := by
  refine ⟨m, .refl p m, ?_⟩
  rw [step, hread]
  simp only [Option.bind_eq_bind, Option.bind_some, Act.perform, hstack]

/-- A return is seen by running long enough. -/
theorem Returns.run (h : p.Returns m a) : ∃ n, p.run n m = some a := by
  obtain ⟨m', hreach, hstep⟩ := h
  induction hreach using Relation.ReflTransGen.head_induction_on with
  | refl => exact ⟨1, by rw [Program.run, hstep]⟩
  | head hfirst _ ih =>
      obtain ⟨n, hn⟩ := ih
      exact ⟨n + 1, by rw [Program.run, hfirst]; exact hn⟩

end Program

end StackCode
