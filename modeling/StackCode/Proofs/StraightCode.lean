import StackCode.Proofs.Evaluating
import StackCode.Proofs.PoolIntegrity

/-!
# Straight code on values of every kind

The part of the machine that constants, conversions and increments need. A value is a `Const`, so
that floating values are told apart by their bits, and a value of two words is one entry of the
stack. Each instruction is fetched as an `Operation`, with its operands taken from the bytes and the
pool, and then performed; instructions on integers are fetched as before.

Code without branches is a list of operations, one behind the other. `Spells x a d d' ops` says
that the step `x` answers with `a` and writes code that is fetched as `ops`, wherever the machine
gets there; the code at hand need not be settled, only live once its waiting branches are resolved.
-/

set_option maxRecDepth 4000

namespace StackCode

open Instruction

/-! ### Operations -/

/-- The operand stack and the registers. -/
structure Values where
  stack : List Const
  regs : ℕ → Const

/-- The value of kind `k` that an integer is cut back to: the one that differs from it by a multiple
of the number of values of that kind. -/
def Kind.narrow (k : Kind) (v : Int32) : Int32 :=
  match k with
  | .byte => .ofInt (v.toInt.bmod 0x100)
  | .short => .ofInt (v.toInt.bmod 0x10000)
  | .char => .ofInt (v.toInt % 0x10000)
  | _ => v

/-- An instruction with its operands. -/
inductive Operation where
  | push (c : Const)
  | load (reg : ℕ)
  | store (reg : ℕ)
  | increment (reg : ℕ) (delta : Int32)
  | add
  | sub
  /-- from `int` to `long` -/
  | extend
  /-- from `long` to `int` -/
  | cut
  /-- from `int` to a kind below it -/
  | narrow (k : Kind)
deriving DecidableEq

/-- What an operation does; one that meets a value of another kind gets stuck. -/
def Operation.perform : Operation → Values → Option Values
  | .push c, ⟨stack, regs⟩ => some ⟨c :: stack, regs⟩
  | .load reg, ⟨stack, regs⟩ =>
    match regs reg with
    | .int v => some ⟨.int v :: stack, regs⟩
    | _ => none
  | .store reg, ⟨.int v :: stack, regs⟩ => some ⟨stack, Function.update regs reg (.int v)⟩
  | .increment reg delta, ⟨stack, regs⟩ =>
    match regs reg with
    | .int v => some ⟨stack, Function.update regs reg (.int (v + delta))⟩
    | _ => none
  | .add, ⟨.int b :: .int a :: stack, regs⟩ => some ⟨.int (a + b) :: stack, regs⟩
  | .sub, ⟨.int b :: .int a :: stack, regs⟩ => some ⟨.int (a - b) :: stack, regs⟩
  | .extend, ⟨.int v :: stack, regs⟩ => some ⟨.long (.ofInt v.toInt) :: stack, regs⟩
  | .cut, ⟨.long v :: stack, regs⟩ => some ⟨.int (.ofInt v.toInt) :: stack, regs⟩
  | .narrow k, ⟨.int v :: stack, regs⟩ => some ⟨.int (k.narrow v) :: stack, regs⟩
  | _, _ => none

/-- What operations do one after the other. -/
def Operation.performAll (ops : List Operation) (v : Values) : Option Values :=
  ops.foldlM (fun v o => o.perform v) v

/-- The constant at a pool index. -/
def Pool.const? (p : Pool) (i : UInt16) : Option Const :=
  match p.read? i with
  | some (.int v) => some (.int v)
  | some (.long v) => some (.long v)
  | some (.float b) => some (.float b)
  | some (.double b) => some (.double b)
  | some (.string s) => some (.str s)
  | _ => none

theorem Pool.Reads.const?_eq {p : Pool} {i : UInt16} {c : Const} (h : p.Reads i (.ofConst c)) :
    p.const? i = some c := by
  rw [const?, h.read?_eq]
  cases c <;> rfl

/-- Whether a constant takes two words, and so has a loading instruction of its own. -/
def Const.isWide : Const → Bool
  | .long _ | .double _ => true
  | _ => false

/-- An operation on integers among the others. -/
def Act.operation? : Act → Option Operation
  | .push v => some (.push (.int v))
  | .load reg => some (.load reg)
  | .store reg => some (.store reg)
  | _ => none

/-- The instructions without operands. -/
def Operation.plain : List (Opcode × Operation) :=
  [(.lconst0, .push (.long 0)), (.lconst1, .push (.long 1)),
   (.fconst0, .push (.float 0)), (.fconst1, .push (.float 0x3f800000)),
   (.fconst2, .push (.float 0x40000000)),
   (.dconst0, .push (.double 0)), (.dconst1, .push (.double 0x3ff0000000000000)),
   (.iadd, .add), (.isub, .sub), (.i2l, .extend), (.l2i, .cut),
   (.i2b, .narrow .byte), (.i2c, .narrow .char), (.i2s, .narrow .short)]

/-- The amount of an increment, which has the form of its register. -/
def Instruction.amount? (i : Instruction) (code : Array UInt8) : Option Int32 :=
  if i.wide then (shortAt code (i.pc + 4)).toOption.map .ofInt
  else (byteAt code (i.pc + 2)).toOption.map fun b => b.toInt8.toInt32

/-- What an instruction does that is not one of those on integers. -/
def Instruction.beyond? (i : Instruction) (p : Program) : Option Operation :=
  if i.op = .ldc then do
    let index ← (byteAt p.bytes (i.pc + 1)).toOption
    let c ← p.pool.const? index.toUInt16
    if c.isWide then none else some (.push c)
  else if i.op = .ldcW then do
    let index ← (shortAt p.bytes (i.pc + 1)).toOption
    let c ← p.pool.const? (.ofInt index)
    if c.isWide then none else some (.push c)
  else if i.op = .ldc2W then do
    let index ← (shortAt p.bytes (i.pc + 1)).toOption
    let c ← p.pool.const? (.ofInt index)
    if c.isWide then some (.push c) else none
  else if i.op = .iinc then do
    let reg ← (← (i.register? p.bytes).toOption)
    return .increment reg (← i.amount? p.bytes)
  else Operation.plain.lookup i.op

def Instruction.operation? (i : Instruction) (p : Program) : Option Operation :=
  match i.act? p with
  | some a => a.operation?
  | none => i.beyond? p

namespace Program

/-- The operation at `pc`, and where the next one begins. -/
def fetch (p : Program) (pc : ℕ) : Option (Operation × ℕ) := do
  let i ← (decodeAt p.bytes pc).toOption
  return (← i.operation? p, pc + i.length)

/-- One instruction: the position and the values behind it. -/
def advance (p : Program) (m : ℕ × Values) : Option (ℕ × Values) := do
  let (o, next) ← p.fetch m.1
  return (next, ← o.perform m.2)

/-- The machine gets from `m` to `m'`. -/
def Executes (p : Program) : ℕ × Values → ℕ × Values → Prop :=
  Relation.ReflTransGen fun m m' => p.advance m = some m'

/-- The operations are fetched one behind the other, from `pc` up to `stop`. -/
def Fetches (p : Program) : ℕ → List Operation → ℕ → Prop
  | pc, [], stop => pc = stop
  | pc, o :: ops, stop => ∃ next, p.fetch pc = some (o, next) ∧ p.Fetches next ops stop

variable {p : Program} {q q' stop : ℕ} {ops ops' : List Operation}

theorem Fetches.append (h : p.Fetches q ops q') (h' : p.Fetches q' ops' stop) :
    p.Fetches q (ops ++ ops') stop := by
  induction ops generalizing q with
  | nil => exact h ▸ h'
  | cons o ops ih =>
      obtain ⟨next, hfetch, hrest⟩ := h
      exact ⟨next, hfetch, ih hrest⟩

theorem advance_of_fetch {o : Operation} {next : ℕ} {v w : Values}
    (hfetch : p.fetch q = some (o, next)) (hperform : o.perform v = some w) :
    p.advance (q, v) = some (next, w) := by
  simp [advance, hfetch, hperform]

/-- What is fetched is performed. -/
theorem Fetches.executes (h : p.Fetches q ops stop) {v w : Values}
    (hv : Operation.performAll ops v = some w) :
    p.Executes (q, v) (stop, w) := by
  induction ops generalizing q v with
  | nil =>
      obtain rfl : v = w := Option.some.inj hv
      obtain rfl : q = stop := h
      exact Relation.ReflTransGen.refl
  | cons o ops ih =>
      obtain ⟨next, hfetch, hrest⟩ := h
      obtain ⟨u, hu, hrun⟩ := Option.bind_eq_some_iff.mp hv
      exact Relation.ReflTransGen.head (advance_of_fetch hfetch hu) (ih hrest hrun)

/-! ### Fetching instructions -/

/-- An instruction on integers. -/
theorem fetch_of_read {a : Act} {o : Operation} (hread : p.read q = some (a, q'))
    (ha : a.operation? = some o) :
    p.fetch q = some (o, q') := by
  obtain ⟨i, hi, hrest⟩ := Option.bind_eq_some_iff.mp hread
  obtain ⟨b, hb, hpair⟩ := Option.bind_eq_some_iff.mp hrest
  obtain ⟨rfl, rfl⟩ := Prod.mk.inj (Option.some.inj hpair)
  simp [fetch, hi, operation?, hb, ha]

theorem fetch_of_decodeAt {i : Instruction} {o : Operation} (hi : decodeAt p.bytes q = .ok i)
    (hact : i.act? p = none) (ho : i.beyond? p = some o) : p.fetch q = some (o, q + i.length) := by
  simp [fetch, hi, Except.toOption, operation?, hact, ho]

/-- An integer of the pool is fetched as before, any other constant is not one on integers. -/
theorem fetch_constant {i : Instruction} {index : UInt16} {c : Const}
    (hi : decodeAt p.bytes q = .ok i) (hpool : p.pool.Reads index (.ofConst c))
    (hact : i.act? p = (p.pool.int? index).map Act.push) (hbeyond : i.beyond? p = some (.push c)) :
    p.fetch q = some (.push c, q + i.length) := by
  cases c with
  | int v =>
      have hint : p.pool.get? index = some (.int v) := hpool
      rw [Pool.int?, hint] at hact
      exact fetch_of_read (read_of_decodeAt hi hact) rfl
  | str text =>
      obtain ⟨n, hn, -⟩ := hpool
      rw [Pool.int?, hn] at hact
      exact fetch_of_decodeAt hi hact hbeyond
  | long v =>
      have hlong : p.pool.get? index = some (.long v) := hpool
      rw [Pool.int?, hlong] at hact
      exact fetch_of_decodeAt hi hact hbeyond
  | float b =>
      have hfloat : p.pool.get? index = some (.float b) := hpool
      rw [Pool.int?, hfloat] at hact
      exact fetch_of_decodeAt hi hact hbeyond
  | double b =>
      have hdouble : p.pool.get? index = some (.double b) := hpool
      rw [Pool.int?, hdouble] at hact
      exact fetch_of_decodeAt hi hact hbeyond

theorem fetch_plain {op : Opcode} {o : Operation} (h : (op, o) ∈ Operation.plain)
    (hold : Holds p.bytes q #[op]) : p.fetch q = some (o, q + 1) := by
  have hall : ∀ e ∈ Operation.plain, e.1.length? = some 1 := by
    simp only [Operation.plain, List.forall_mem_cons]
    decide
  have hnone : act? ⟨q, op, 1, false⟩ p = none ∧ beyond? ⟨q, op, 1, false⟩ p = some o := by
    simp only [Operation.plain, List.mem_cons, Prod.mk.injEq, List.not_mem_nil, or_false] at h
    rcases h with h | h | h | h | h | h | h | h | h | h | h | h | h | h <;>
      obtain ⟨rfl, rfl⟩ := h <;> exact ⟨rfl, rfl⟩
  exact fetch_of_decodeAt (decodeAt_of_holds (a := #[]) hold rfl (hall _ h)) hnone.1 hnone.2

/-- A constant of one word, whose index is a byte. -/
theorem fetch_ldc {index : UInt16} {c : Const} (hindex : index ≤ 0xFF) (hc : c.isWide = false)
    (hpool : p.pool.Reads index (.ofConst c))
    (hold : Holds p.bytes q (#[Opcode.ldc] ++ #[index.toUInt8])) :
    p.fetch q = some (.push c, q + 2) := by
  have hbyte : p.bytes[q + 1]? = some index.toUInt8 := (holds_append_iff.mp hold).2 0 Nat.one_pos
  have hback : index.toUInt8.toUInt16 = index := by
    apply UInt16.toNat_inj.mp
    have hle : index.toNat ≤ 255 := UInt16.le_iff_toNat_le.mp hindex
    simp only [UInt8.toNat_toUInt16, UInt16.toNat_toUInt8]
    omega
  refine fetch_constant (decodeAt_of_holds (n := 1) hold rfl (by decide)) hpool ?_ ?_
  · show (do
      let index ← (byteAt p.bytes (q + 1)).toOption
      return Act.push (← p.pool.int? index.toUInt16)) = _
    rw [byteAt_eq_ok.mpr hbyte]
    show (do return Act.push (← p.pool.int? index.toUInt8.toUInt16)) = _
    rw [hback]
    exact Option.map_eq_bind.symm
  · show (do
      let index ← (byteAt p.bytes (q + 1)).toOption
      let c ← p.pool.const? index.toUInt16
      if c.isWide then none else some (Operation.push c)) = _
    rw [byteAt_eq_ok.mpr hbyte]
    show (do
      let c ← p.pool.const? index.toUInt8.toUInt16
      if c.isWide then none else some (Operation.push c)) = _
    rw [hback, hpool.const?_eq]
    exact if_neg (hc ▸ Bool.false_ne_true)

/-- A constant of one word, whose index is a word. -/
theorem fetch_ldcW {index : UInt16} {c : Const} (hc : c.isWide = false)
    (hpool : p.pool.Reads index (.ofConst c))
    (hold : Holds p.bytes q (#[Opcode.ldcW] ++ wordBytes index)) :
    p.fetch q = some (.push c, q + 3) := by
  obtain ⟨w, hshort, hback⟩ : ∃ w, shortAt p.bytes (q + 1) = .ok w ∧ UInt16.ofInt w = index :=
    ⟨_, shortAt_of_holds hold, ofInt_bmod index⟩
  refine fetch_constant (decodeAt_of_holds (n := 2) hold rfl (by decide)) hpool ?_ ?_
  · show (do
      let index ← (shortAt p.bytes (q + 1)).toOption
      return Act.push (← p.pool.int? (.ofInt index))) = _
    rw [hshort]
    show (do return Act.push (← p.pool.int? (.ofInt w))) = _
    rw [hback]
    exact Option.map_eq_bind.symm
  · show (do
      let index ← (shortAt p.bytes (q + 1)).toOption
      let c ← p.pool.const? (.ofInt index)
      if c.isWide then none else some (Operation.push c)) = _
    rw [hshort]
    show (do
      let c ← p.pool.const? (.ofInt w)
      if c.isWide then none else some (Operation.push c)) = _
    rw [hback, hpool.const?_eq]
    exact if_neg (hc ▸ Bool.false_ne_true)

/-- A constant of two words. -/
theorem fetch_ldc2W {index : UInt16} {c : Const} (hc : c.isWide = true)
    (hpool : p.pool.Reads index (.ofConst c))
    (hold : Holds p.bytes q (#[Opcode.ldc2W] ++ wordBytes index)) :
    p.fetch q = some (.push c, q + 3) := by
  obtain ⟨w, hshort, hback⟩ : ∃ w, shortAt p.bytes (q + 1) = .ok w ∧ UInt16.ofInt w = index :=
    ⟨_, shortAt_of_holds hold, ofInt_bmod index⟩
  refine fetch_of_decodeAt (decodeAt_of_holds (n := 2) hold rfl (by decide)) rfl ?_
  show (do
    let index ← (shortAt p.bytes (q + 1)).toOption
    let c ← p.pool.const? (.ofInt index)
    if c.isWide then some (Operation.push c) else none) = _
  rw [hshort]
  show (do
    let c ← p.pool.const? (.ofInt w)
    if c.isWide then some (Operation.push c) else none) = _
  rw [hback, hpool.const?_eq]
  exact if_pos hc

/-- However its index is written, the constant is pushed. -/
theorem fetch_ldcOp {index : UInt16} {c : Const} {k : Kind}
    (hc : c.isWide = true ↔ k = .long ∨ k = .double) (hpool : p.pool.Reads index (.ofConst c))
    (hold : Holds p.bytes q (#[Emit.ldcOp index k] ++ Emit.ldcBytes index k)) :
    p.fetch q = some (.push c, q + (#[Emit.ldcOp index k] ++ Emit.ldcBytes index k).size) := by
  unfold Emit.ldcOp Emit.ldcBytes at hold ⊢
  by_cases hk : k = .long ∨ k = .double
  · simp only [hk, if_true] at hold ⊢
    exact fetch_ldc2W (hc.mpr hk) hpool hold
  · have hc : c.isWide = false := Bool.eq_false_iff.mpr (mt hc.mp hk)
    simp only [hk, if_false] at hold ⊢
    by_cases hindex : index ≤ 0xFF
    · simp only [hindex, if_true] at hold ⊢
      exact fetch_ldc hindex hc hpool hold
    · simp only [hindex, if_false] at hold ⊢
      exact fetch_ldcW hc hpool hold

theorem act?_iinc (n : ℕ) (wide : Bool) : act? ⟨q, .iinc, n, wide⟩ p = none := rfl

/-- An increment, by its register and its amount. -/
theorem fetch_iincForm {reg : UInt16} {delta : Int32} {enc : Array UInt8} {f : Form}
    (henc : Encodes enc [f]) (hop : f.op = .iinc) (hreg : f.reg = some reg)
    (hold : Holds p.bytes q enc) (hamount : (f.ins q).amount? p.bytes = some delta) :
    p.fetch q = some (.increment reg.toNat delta, q + enc.size) := by
  obtain ⟨op, n, wide, reg'⟩ := f
  obtain rfl : op = .iinc := hop
  obtain ⟨⟨hdecode, hregister⟩, hstop⟩ := henc p.bytes q hold
  have hstop : q + n = q + enc.size := hstop
  rw [← hstop]
  refine fetch_of_decodeAt hdecode (act?_iinc n wide) ?_
  show (do
    let reg ← (← (register? ⟨q, .iinc, n, wide⟩ p.bytes).toOption)
    return Operation.increment reg (← amount? ⟨q, .iinc, n, wide⟩ p.bytes)) = _
  have hregister : register? ⟨q, .iinc, n, wide⟩ p.bytes = .ok (some reg.toNat) :=
    hregister reg hreg
  have hamount : amount? ⟨q, .iinc, n, wide⟩ p.bytes = some delta := hamount
  rw [hregister, hamount]
  rfl

theorem fetch_iinc {reg : UInt16} {delta : Int16}
    (hold : Holds p.bytes q (Emit.iincBytes reg delta)) :
    p.fetch q = some (.increment reg.toNat delta.toInt32, q + (Emit.iincBytes reg delta).size) := by
  unfold Emit.iincBytes at hold ⊢
  split at hold
  · rename_i hwide
    rw [if_pos hwide]
    have hword := (holds_append_iff.mp (holds_append_iff.mp (holds_append_iff.mp hold).2).2).2
    have hshort : shortAt p.bytes (q + 4) = .ok (Int.bmod delta.toUInt16.toNat 0x10000) :=
      shortAt_wordBytes (hword 0 Nat.two_pos) (hword 1 Nat.one_lt_two)
    have hback : Int32.ofInt (Int.bmod delta.toUInt16.toNat 0x10000) = delta.toInt32 := by
      have hdelta : Int.bmod delta.toUInt16.toNat 0x10000 = delta.toInt := by
        rw [Int16.toInt, BitVec.toInt_eq_toNat_bmod]
        rfl
      rw [hdelta]
      exact Int32.ofInt_int16ToInt delta
    refine fetch_iincForm (.wide rfl rfl rfl) rfl rfl hold ?_
    show (shortAt p.bytes (q + 4)).toOption.map Int32.ofInt = _
    rw [hshort, ← hback]
    rfl
  · rename_i hnarrow
    rw [if_neg hnarrow]
    simp only [Emit.iincWide, Bool.or_eq_true, decide_eq_true_eq, not_or, Int16.not_lt] at hnarrow
    obtain ⟨⟨hreg, hlo⟩, hhi⟩ := hnarrow
    have hlo : -128 ≤ delta.toInt := Int16.le_iff_toInt_le.mp hlo
    have hhi : delta.toInt ≤ 127 := Int16.le_iff_toInt_le.mp hhi
    have hbyte : p.bytes[q + 2]? = some delta.toInt8.toUInt8 :=
      (holds_append_iff.mp (holds_append_iff.mp hold).2).2 0 Nat.one_pos
    have hback : delta.toInt8.toUInt8.toInt8.toInt32 = delta.toInt32 := by
      rw [Int8.toInt8_toUInt8]
      apply Int32.toInt_inj.mp
      rw [Int8.toInt_toInt32, Int16.toInt_toInt32, Int16.toInt_toInt8]
      exact Int.bmod_eq_of_le (by omega) (by omega)
    have hlen : Opcode.iinc.length? = some 3 := by decide +kernel
    refine fetch_iincForm (.narrow rfl hlen rfl hreg) rfl rfl hold ?_
    show ((byteAt p.bytes (q + 2)).toOption.map fun b => b.toInt8.toInt32) = _
    rw [byteAt_eq_ok.mpr hbyte, ← hback]
    rfl

end Program

/-! ### Steps that write straight code -/

/-- Resolving the waiting branches leaves `c'`, and control comes there. -/
structure Code.Opens (c c' : Code) : Prop where
  flush : Emit.resolvePending c = .ok () c'
  alive : c'.alive = true

/-- Live code without waiting branches. -/
theorem Code.opens_self {c : Code} (halive : c.alive = true) (hpending : c.pending = []) :
    c.Opens c := by
  refine ⟨?_, halive⟩
  rw [Emit.resolvePending]
  refine EStateM.bind_eq_ok.mpr ⟨c, c, rfl, ?_⟩
  rw [hpending]
  rfl

/-- What comes of `s`, whose code opens to `c`: code behind it that is from first to last as `R`
says, and a stack that is `d` deep. -/
structure Assembly.Grows (s : Assembly) (c : Code) (R : Program → ℕ → ℕ → Prop) (d : ℕ)
    (s' : Assembly) : Prop where
  alive : s'.code.alive = true
  pending : s'.code.pending = []
  depth : s'.code.frame.depth = d
  pool : s.pool.Extends s'.pool
  indexed : s'.pool.Indexed
  bytes : ∃ enc, s'.code.bytes = c.bytes ++ enc ∧ ∀ (p : Program) (q : ℕ), s'.pool.Extends p.pool →
    p.pool.size ≤ 0x10000 → Holds p.bytes q enc → R p q (q + enc.size)

namespace Assembly.Grows

variable {s s₁ s₂ : Assembly} {c : Code} {R R' R'' : Program → ℕ → ℕ → Prop} {d d' : ℕ}

theorem append (h : s.Grows c R d s₁) (h' : s₁.Grows s₁.code R' d' s₂)
    (hR : ∀ p lo mid hi, R p lo mid → R' p mid hi → R'' p lo hi) : s.Grows c R'' d' s₂ := by
  obtain ⟨enc, hbytes, hfetch⟩ := h.bytes
  obtain ⟨enc', hbytes', hfetch'⟩ := h'.bytes
  refine ⟨h'.alive, h'.pending, h'.depth, h.pool.trans h'.pool, h'.indexed, enc ++ enc', ?_, ?_⟩
  · rw [hbytes', hbytes, Array.append_assoc]
  · intro p q hpool hsize hold
    obtain ⟨hold, hold'⟩ := holds_append_iff.mp hold
    rw [Array.size_append, ← Nat.add_assoc]
    exact hR p q _ _ (hfetch p q (h'.pool.trans hpool) hsize hold) (hfetch' p _ hpool hsize hold')

/-- Nothing is written. -/
theorem refl (halive : s.code.alive = true) (hpending : s.code.pending = [])
    (hindexed : s.pool.Indexed) (hR : ∀ p q, R p q q) : s.Grows s.code R s.code.frame.depth s :=
  ⟨halive, hpending, rfl, .refl _, hindexed, #[], Array.append_empty.symm, fun p q _ _ _ => hR p q⟩

/-- One instruction behind a step over the pool. -/
theorem of_puts {g : Pool → UInt16 × Pool} {Q : UInt16 → Pool → Prop} {y : UInt16 → Emit Unit}
    {enc : UInt16 → Array UInt8} {e : Effect} (hg : Pool.Puts g Q)
    (hQ : ∀ i p q, Q i p → p.Extends q → Q i q) (hy : ∀ i, Emit.Delivers (y i) (enc i) e)
    (hgoes : e.goesOn = true) (hneeds : e.needs ≤ c.frame.depth)
    (hR : ∀ (i : UInt16) (p : Program) (q : ℕ), Q i p.pool → Holds p.bytes q (enc i) →
      R p q (q + (enc i).size))
    (hopens : s.code.Opens c) (hindexed : s.pool.Indexed) :
    ∃ s', (do Asm.onCode (y (← Asm.pooled g)) : Asm Unit) s = .ok () s' ∧
      s.Grows c R (c.frame.depth - e.needs + e.puts) s' := by
  obtain ⟨code, pool⟩ := s
  obtain ⟨hext, hput⟩ := hg pool
  obtain ⟨hindexed', hfound⟩ := hput hindexed
  generalize hi : (g pool).1 = i at hfound
  have hframe := Code.frame_write (enc i) (e := e) (c := c) ⟨rfl, rfl⟩ hneeds
  refine ⟨⟨(c.markLine.written (enc i)).applyEffect e, (g pool).2⟩, ?_, ?_, ?_, hframe.1, hext,
    hindexed', enc i,
    c.bytes_write _ e, ?_⟩
  · refine EStateM.bind_eq_ok.mpr ⟨i, ⟨code, (g pool).2⟩, ?_, ?_⟩
    · rw [← hi]
      rfl
    · rw [Asm.onCode, hy i code c hopens.flush hopens.alive hneeds]
  · rw [Code.alive_write hopens.alive]
    exact hgoes
  · rw [Code.pending_write]
    exact (Emit.pending_resolvePending hopens.flush).1
  · intro p q hpool hsize hold
    exact hR i p q (hQ i _ _ (hfound (hpool.1.trans hsize)) hpool) hold

end Assembly.Grows

/-- The operations `ops` behind the code, and a stack that is `d` deep. -/
abbrev Assembly.Gains (s : Assembly) (c : Code) (ops : List Operation) (d : ℕ)
    (s' : Assembly) : Prop :=
  s.Grows c (fun p q stop => p.Fetches q ops stop) d s'

theorem Assembly.Gains.append {s s₁ s₂ : Assembly} {c : Code} {ops ops' : List Operation} {d d' : ℕ}
    (h : s.Gains c ops d s₁) (h' : s₁.Gains s₁.code ops' d' s₂) : s.Gains c (ops ++ ops') d' s₂ :=
  Grows.append h h' fun _ _ _ _ => Program.Fetches.append

/-- The step answers with `a` and writes the operations `ops`, which take the depth of the stack
from `d` to `d'`. -/
def Spells {α : Type} (x : Asm α) (a : α) (d d' : ℕ) (ops : List Operation) : Prop :=
  ∀ s c, s.code.Opens c → c.frame.depth = d → s.pool.Indexed → ∃ s', x s = .ok a s' ∧
    s.Gains c ops d' s'

/-- The same behind an instruction, so that nothing may be written as well. -/
def Continues {α : Type} (x : Asm α) (a : α) (d d' : ℕ) (ops : List Operation) : Prop :=
  ∀ s, s.code.alive = true → s.code.pending = [] → s.code.frame.depth = d → s.pool.Indexed →
    ∃ s', x s = .ok a s' ∧ s.Gains s.code ops d' s'

section

variable {α β : Type} {x : Asm α} {f : α → Asm β} {a : α} {b : β} {d d' d'' : ℕ}
  {ops ops' : List Operation}

theorem Continues.pure (a : α) (d : ℕ) : Continues (pure a) a d d [] := by
  rintro s halive hpending rfl hindexed
  exact ⟨s, rfl, .refl halive hpending hindexed fun p q => rfl⟩

theorem Continues.bind (h : Continues x a d d' ops) (h' : Continues (f a) b d' d'' ops') :
    Continues (x >>= f) b d d'' (ops ++ ops') := by
  intro s halive hpending hdepth hindexed
  obtain ⟨s₁, hx, h₁⟩ := h s halive hpending hdepth hindexed
  obtain ⟨s₂, hf, h₂⟩ := h' s₁ h₁.alive h₁.pending h₁.depth h₁.indexed
  exact ⟨s₂, EStateM.bind_eq_ok.mpr ⟨a, s₁, hx, hf⟩, h₁.append h₂⟩

theorem Spells.continues (h : Spells x a d d' ops) : Continues x a d d' ops :=
  fun s halive hpending => h s s.code (Code.opens_self halive hpending)

theorem Spells.bind (h : Spells x a d d' ops) (h' : Continues (f a) b d' d'' ops') :
    Spells (x >>= f) b d d'' (ops ++ ops') := by
  intro s c hopens hdepth hindexed
  obtain ⟨s₁, hx, h₁⟩ := h s c hopens hdepth hindexed
  obtain ⟨s₂, hf, h₂⟩ := h' s₁ h₁.alive h₁.pending h₁.depth h₁.indexed
  exact ⟨s₂, EStateM.bind_eq_ok.mpr ⟨a, s₁, hx, hf⟩, h₁.append h₂⟩

/-- The answer of a step does not matter for its code. -/
theorem Spells.answer (h : Spells x a d d' ops) (hf : f a = pure b) : Spells (x >>= f) b d d' ops :=
  List.append_nil ops ▸ h.bind (hf ▸ Continues.pure b d')

end

namespace Spells

variable {d d' : ℕ}

/-- One instruction behind a step over the pool. -/
theorem of_puts {g : Pool → UInt16 × Pool} {Q : UInt16 → Pool → Prop} {y : UInt16 → Emit Unit}
    {enc : UInt16 → Array UInt8} {e : Effect} {o : Operation} (hg : Pool.Puts g Q)
    (hQ : ∀ i p q, Q i p → p.Extends q → Q i q) (hy : ∀ i, Emit.Delivers (y i) (enc i) e)
    (hgoes : e.goesOn = true) (hneeds : e.needs ≤ d) (hd : d - e.needs + e.puts = d')
    (hfetch : ∀ (i : UInt16) (p : Program) (q : ℕ), Q i p.pool → Holds p.bytes q (enc i) →
      p.fetch q = some (o, q + (enc i).size)) :
    Spells (do Asm.onCode (y (← Asm.pooled g))) () d d' [o] := by
  rintro s c hopens rfl hindexed
  rw [← hd]
  exact Assembly.Grows.of_puts hg hQ hy hgoes hneeds
    (fun i p q hi hold => ⟨_, hfetch i p q hi hold, rfl⟩) hopens
    hindexed

/-- One instruction. -/
theorem of_delivers {y : Emit Unit} {enc : Array UInt8} {e : Effect} {o : Operation}
    (hy : Emit.Delivers y enc e) (hgoes : e.goesOn = true) (hneeds : e.needs ≤ d)
    (hd : d - e.needs + e.puts = d')
    (hfetch : ∀ (p : Program) (q : ℕ), Holds p.bytes q enc → p.fetch q = some (o, q + enc.size)) :
    Spells (Asm.onCode y) () d d' [o] :=
  @of_puts d d' (fun p => (0, p)) (fun _ _ => True) (fun _ => y) (fun _ => enc) e o
    (fun p => ⟨.refl p, fun h => ⟨h, fun _ => trivial⟩⟩) (fun _ _ _ _ _ => trivial)
    (fun _ => hy) hgoes hneeds hd
    fun _ p q _ => hfetch p q

/-- An instruction without operands. -/
theorem plain {op : Opcode} {o : Operation}
    (hop : (op, o) ∈ Operation.plain ∧ op.Takes .plain ∧ op.effect.goesOn = true)
    (hneeds : op.effect.needs ≤ d) (hd : d - op.effect.needs + op.effect.puts = d') :
    Spells (Asm.onCode (Emit.plain op)) () d d' [o] :=
  of_delivers (Emit.delivers_plain hop.2.1) hop.2.2 hneeds hd fun _ _ => Program.fetch_plain hop.1

end Spells

end StackCode
