import StackCode.Generate.Operator
import StackCode.Proofs.Layout

/-!
# Instructions by what they do

What the instruction table says of the instructions that are chosen by arithmetic on
opcodes. `Opcode.Moves` counts the words that an instruction takes and puts,
`Opcode.IsStraight` says that control goes on behind it, and `Opcode.IsTest` describes
what stands for the last test of a condition. An item picks its instruction by its
kind and its register, an operator by the family of its operands; each choice takes
and puts the words of its operands (`Selection.Fits`, `UnaryOp.Fits`).
-/

set_option maxRecDepth 4000

namespace StackCode

/-! ### The table -/

namespace Effect

/-- The words that an effect puts on the stack for those it needs. -/
def puts : Effect → Nat
  | pop _ | leave _ => 0
  | trade _ k => k.width
  | dup w u => w + u + w
  | swap => 2

/-- Whether control goes on behind an instruction with the effect. -/
def goesOn : Effect → Bool
  | leave _ => false
  | _ => true

end Effect

namespace Opcode

/-- A fact about every defined opcode follows from the rows of the table. -/
theorem forall_row {p : Opcode → Row → Prop}
    (h : ∀ x ∈ rows.toList.zipIdx, ∀ row ∈ x.1, p (UInt8.ofNat x.2) row) :
    ∀ op, ∀ row ∈ op.row?, p op row := by
  intro op row hrow
  rw [row?, Option.mem_def, Option.join_eq_some_iff] at hrow
  have hmem : (some row, op.toNat) ∈ rows.toList.zipIdx := by
    rw [List.mem_zipIdx_iff_getElem?]
    simpa using hrow
  have hp := h _ hmem row rfl
  rwa [UInt8.ofNat_toNat] at hp

/-- The effect that the instruction table gives an opcode. -/
def effect (op : Opcode) : Effect := (op.row?.map Row.effect).getD (.pop 0)

/-- Whether an opcode is followed by the given operands. -/
def Takes (op : Opcode) (operands : Operands) : Prop :=
  ∃ row, op.row? = some row ∧ row.operands = operands

theorem effect_of_row {op : Opcode} {row : Row} (h : op.row? = some row) :
    op.effect = row.effect := by
  rw [effect, h]
  rfl

theorem length_of_row {op : Opcode} {row : Row} (h : op.row? = some row) :
    op.length? = some row.length := by
  rw [length?, h]
  rfl

/-- Whether the instruction calls a subroutine. -/
def isCall (op : Opcode) : Bool := op == jsr || op == jsrW

/-- Whether the table leaves the effect of an instruction to whoever writes it. -/
def isOpen (op : Opcode) : Bool :=
  (ldc ≤ op && op ≤ ldc2W) || (getstatic ≤ op && op ≤ invokeinterface) || op == multianewarray
    || op == wide

/-! What the operands that follow an opcode say about it. -/

theorem of_takes_plain :
    ∀ op, ∀ row ∈ row? op, row.operands = .plain → op ≠ tableswitch → op ≠ lookupswitch →
      row.length = 1 ∧ op.isOpen = false ∧ op.isBranch = false := by
  apply forall_row
  decide +kernel

theorem of_takes_byte :
    ∀ op, ∀ row ∈ row? op, row.operands = .byte →
      row.length = 2 ∧ op.isOpen = false ∧ op.isBranch = false := by
  apply forall_row
  decide +kernel

theorem of_takes_register :
    ∀ op, ∀ row ∈ row? op, row.operands = .register →
      row.length = 2 ∧ op.isOpen = false ∧ op.isBranch = false ∧ op ≠ iinc := by
  apply forall_row
  decide +kernel

theorem of_takes_short :
    ∀ op, ∀ row ∈ row? op, row.operands = .short → row.length = 3 ∧ op.isOpen = false := by
  apply forall_row
  decide +kernel

/-! ### Straight instructions -/

/-- An instruction of the table behind which control goes on. -/
def IsStraight (op : Opcode) : Prop :=
  op ≠ tableswitch ∧ op ≠ lookupswitch ∧ op.effect.goesOn = true

instance (op : Opcode) : Decidable op.IsStraight :=
  inferInstanceAs (Decidable (_ ∧ _ ∧ _))

/-- An instruction that takes `n` words and puts `m`. -/
def Moves (op : Opcode) (n m : Nat) : Prop := op.effect.needs = n ∧ op.effect.puts = m

instance (op : Opcode) (n m : Nat) : Decidable (op.Moves n m) := inferInstanceAs (Decidable (_ ∧ _))

/-! ### Tests -/

/-- The branches on a condition. -/
def conditionals : List Opcode :=
  [ifeq, ifne, iflt, ifge, ifgt, ifle, ifIcmpeq, ifIcmpne, ifIcmplt, ifIcmpge, ifIcmpgt, ifIcmple,
    ifAcmpeq, ifAcmpne, ifnull, ifnonnull]

theorem mem_conditionals {op : Opcode} (h : op.isConditional = true) : op ∈ conditionals := by
  simp only [isConditional, Bool.or_eq_true, Bool.and_eq_true, decide_eq_true_eq, beq_iff_eq,
    UInt8.le_iff_toNat_le, show ifeq.toNat = 153 from rfl, show ifAcmpne.toNat = 166 from rfl] at h
  have hmem : ∀ n, 153 ≤ n → n ≤ 166 → UInt8.ofNat n ∈ conditionals := by
    have : ∀ k < 14, UInt8.ofNat (153 + k) ∈ conditionals := by decide
    intro n hlo hhi
    have := this (n - 153) (by omega)
    rwa [Nat.add_sub_cancel' hlo] at this
  rcases h with (h | rfl) | rfl
  · rw [← UInt8.ofNat_toNat (x := op)]
    exact hmem _ h.1 h.2
  · decide
  · decide

/-- What a branch on a condition does, and its opposite. -/
theorem of_isConditional {op : Opcode} (h : op.isConditional = true) :
    op.negate.isConditional = true ∧ op.negate.negate = op ∧ op.isCall = false ∧
      op ≠ goto ∧ op ≠ jsr ∧
      op.effect.puts = 0 ∧ op.effect.goesOn = true ∧ op.negate.effect.needs = op.effect.needs ∧
      0 < op.effect.needs := by
  have hall : ∀ op ∈ conditionals, op.negate.isConditional = true ∧ op.negate.negate = op ∧
      op.isCall = false ∧ op ≠ goto ∧ op ≠ jsr ∧ op.effect.puts = 0 ∧ op.effect.goesOn = true ∧
      op.negate.effect.needs = op.effect.needs ∧ 0 < op.effect.needs := by
    decide
  exact hall op (mem_conditionals h)

/-- What stands for the last test of a condition. -/
def IsTest (op : Opcode) : Prop := op.isConditional = true ∨ op = goto ∨ op = never

theorem IsTest.negate {op : Opcode} (h : op.IsTest) :
    op.negate.IsTest ∧ op.negate.effect.needs = op.effect.needs ∧
      (op.negate.isConditional = op.isConditional) ∧ (op.negate = goto ↔ op = never) ∧
      (op.negate = never ↔ op = goto) := by
  rcases h with hcond | rfl | rfl
  · obtain ⟨hneg, -, -, hgoto, hjsr, -, -, hneeds, -⟩ := of_isConditional hcond
    obtain ⟨-, -, -, hgoto', hjsr', -⟩ := of_isConditional hneg
    exact ⟨.inl hneg, hneeds, hneg.trans hcond.symm, iff_of_false hgoto' hjsr,
      iff_of_false hjsr' hgoto⟩
  · exact ⟨.inr (.inr rfl), by decide, by decide, by decide, by decide⟩
  · exact ⟨.inr (.inl rfl), by decide, by decide, by decide, by decide⟩

end Opcode

theorem Cond.isTrue_iff {c : Cond} : c.isTrue = true ↔ c.onFalse = [] ∧ c.op = .goto := by
  simp only [isTrue, Bool.and_eq_true, List.isEmpty_iff, beq_iff_eq]

theorem Cond.isFalse_iff {c : Cond} : c.isFalse = true ↔ c.onTrue = [] ∧ c.op = .never := by
  simp only [isFalse, Bool.and_eq_true, List.isEmpty_iff, beq_iff_eq]

/-! ### Instructions that an item chooses -/

namespace Item

theorem load_opcode (k : Kind) :
    (Opcode.iload + k.widen.code).IsStraight ∧
      (k ≠ .void → (Opcode.iload + k.widen.code).Moves 0 k.width) := by
  cases k <;> decide

theorem load_opcode_short (k : Kind) (r : Nat) (hr : r < 4) :
    (Opcode.iload0 + k.widen.code * 4 + UInt8.ofNat r).IsStraight ∧
      (k ≠ .void → (Opcode.iload0 + k.widen.code * 4 + UInt8.ofNat r).Moves 0 k.width) := by
  have hall : ∀ r < 4, (Opcode.iload0 + k.widen.code * 4 + UInt8.ofNat r).IsStraight ∧
      (k ≠ .void → (Opcode.iload0 + k.widen.code * 4 + UInt8.ofNat r).Moves 0 k.width) := by
    cases k <;> decide
  exact hall r hr

theorem store_opcode (k : Kind) :
    (Opcode.istore + k.widen.code).IsStraight ∧
      (k ≠ .void → (Opcode.istore + k.widen.code).Moves k.width 0) := by
  cases k <;> decide

theorem store_opcode_short (k : Kind) (r : Nat) (hr : r < 4) :
    (Opcode.istore0 + k.widen.code * 4 + UInt8.ofNat r).IsStraight ∧
      (k ≠ .void → (Opcode.istore0 + k.widen.code * 4 + UInt8.ofNat r).Moves k.width 0) := by
  have hall : ∀ r < 4, (Opcode.istore0 + k.widen.code * 4 + UInt8.ofNat r).IsStraight ∧
      (k ≠ .void → (Opcode.istore0 + k.widen.code * 4 + UInt8.ofNat r).Moves k.width 0) := by
    cases k <;> decide
  exact hall r hr

theorem iconst_opcode {v : Int32} (h : Int32.between v (-1) 5 = true) :
    (Opcode.iconst0 + v.toInt8.toUInt8).IsStraight ∧
      (Opcode.iconst0 + v.toInt8.toUInt8).Moves 0 1 := by
  have hall : ∀ n < 7, (Opcode.iconst0 + (Int32.ofInt ((n : Nat) - 1)).toInt8.toUInt8).IsStraight ∧
      (Opcode.iconst0 + (Int32.ofInt ((n : Nat) - 1)).toInt8.toUInt8).Moves 0 1 := by
    decide
  simp only [Int32.between, Bool.and_eq_true, decide_eq_true_eq, Int32.le_iff_toInt_le] at h
  have hlo : -1 ≤ v.toInt := h.1
  have hhi : v.toInt ≤ 5 := h.2
  have hv : v = Int32.ofInt (((v.toInt + 1).toNat : Nat) - 1) := by
    rw [Int.toNat_of_nonneg (by omega), Int.add_sub_cancel, Int32.ofInt_toInt]
  rw [hv]
  exact hall _ (by omega)

theorem store_array_opcode (k : Kind) :
    (Opcode.iastore + k.code).IsStraight ∧
      (k ≠ .void → (Opcode.iastore + k.code).Moves (2 + k.width) 0) := by
  cases k <;> decide

theorem load_array_opcode (k : Kind) :
    (Opcode.iaload + k.code).IsStraight ∧
      (k ≠ .void → (Opcode.iaload + k.code).Moves 2 k.width) := by
  cases k <;> decide

/-- The instruction that copies a value of kind `k` below `u` words. -/
theorem stash_opcode (k : Kind) :
    ((Opcode.dupX1 + 3 * (UInt8.ofNat k.width - 1)).IsStraight ∧
      (k ≠ .void → (Opcode.dupX1 + 3 * (UInt8.ofNat k.width - 1)).Moves (k.width + 1)
        (k.width + 1 + k.width))) ∧
    ((Opcode.dupX2 + 3 * (UInt8.ofNat k.width - 1)).IsStraight ∧
      (k ≠ .void → (Opcode.dupX2 + 3 * (UInt8.ofNat k.width - 1)).Moves (k.width + 2)
        (k.width + 2 + k.width))) := by
  cases k <;> decide

theorem convert_opcode (s t : Kind) (h : s ≠ t) (hs : s.isNumeric = true)
    (ht : t.isNumeric = true) :
    (Opcode.i2l + s.code * 3 + (if s.code < t.code then t.code - 1 else t.code)).IsStraight ∧
      (Opcode.i2l + s.code * 3 + (if s.code < t.code then t.code - 1 else t.code)).Moves s.width
        t.width := by
  have hall : ∀ a ∈ [Kind.int, .long, .float, .double],
      ∀ b ∈ [Kind.int, .long, .float, .double], a ≠ b →
      (Opcode.i2l + a.code * 3 + (if a.code < b.code then b.code - 1 else b.code)).IsStraight ∧
        (Opcode.i2l + a.code * 3 + (if a.code < b.code then b.code - 1 else b.code)).Moves a.width
          b.width := by
    decide
  have hmem (k : Kind) (hk : k.isNumeric = true) : k ∈ [Kind.int, .long, .float, .double] := by
    cases k <;> first | decide | exact absurd hk (by decide)
  exact hall s (hmem s hs) t (hmem t ht) h

theorem narrow_opcode (k : Kind) (h : k ≠ k.widen) :
    (Opcode.i2b + (k.code - Kind.byte.code)).IsStraight ∧
      (Opcode.i2b + (k.code - Kind.byte.code)).Moves k.width k.width := by
  have hall : ∀ a ∈ [Kind.byte, .char, .short],
      (Opcode.i2b + (a.code - Kind.byte.code)).IsStraight ∧
      (Opcode.i2b + (a.code - Kind.byte.code)).Moves a.width a.width := by
    decide
  have hmem : k ∈ [Kind.byte, .char, .short] := by
    cases k <;> first | decide | exact absurd rfl h
  exact hall k hmem

end Item

/-! ### Instructions that an operator chooses -/

/-- The stack words of an operand of the family. -/
def Family.width : Family → Nat
  | int | float | reference => 1
  | long | double => 2

theorem Ty.width_of_family {t : Ty} {f : Family} (h : t.family? = some f) : t.width = f.width := by
  cases t <;> cases h <;> rfl

/-- What is known of the instructions for a binary operator. -/
structure Selection.Fits (s : Selection) (op : BinaryOp) (n : Nat) : Prop where
  /-- an operation on two values -/
  plain : op.isComparison = false → s.compare = none ∧ s.op.isConditional = false ∧
    s.op.IsStraight ∧
    s.op.Moves (n + if op.isShift then 1 else n) n
  test : op.isComparison = true → s.op.isConditional = true ∧ op.isShift = false
  direct : op.isComparison = true → s.compare = none → s.op.effect.needs = n + n
  compared : ∀ c, s.compare = some c → c.IsStraight ∧ c.Moves (n + n) 1 ∧ s.op.effect.needs = 1
  /-- comparing with 0 -/
  zero : Opcode.ifIcmpeq ≤ s.op ∧ s.op ≤ Opcode.ifIcmple →
    op.isComparison = true ∧ (s.op - Opcode.ifIcmpeq + Opcode.ifeq).isConditional = true ∧
      (s.op - Opcode.ifIcmpeq + Opcode.ifeq).effect.needs = n
  /-- comparing with `null` -/
  null : Opcode.ifAcmpeq ≤ s.op ∧ s.op ≤ Opcode.ifAcmpne →
    op.isComparison = true ∧ (s.op - Opcode.ifAcmpeq + Opcode.ifnull).isConditional = true ∧
      (s.op - Opcode.ifAcmpeq + Opcode.ifnull).effect.needs = n

theorem BinaryOp.selectIn_fits {op : BinaryOp} {f : Family} {s : Selection}
    (h : op.selectIn f = some s) : s.Fits op f.width := by
  cases op <;> cases f <;> cases h <;> constructor <;> decide

theorem BinaryOp.select_fits {op : BinaryOp} {t : Ty} {s : Selection} (h : op.select t = .ok s) :
    s.Fits op t.width := by
  unfold select at h
  cases hf : t.family? with
  | none => simp [hf] at h
  | some f =>
      cases hs : op.selectIn f with
      | none => simp [hf, hs] at h
      | some s' =>
          simp only [hf, hs, Option.bind_some, Except.ok.injEq] at h
          rw [Ty.width_of_family hf, ← h]
          exact selectIn_fits hs

/-- What is known of the instruction for a unary operator. -/
structure UnaryOp.Fits (op : UnaryOp) (o : Opcode) (t : Ty) : Prop where
  straight : o.IsStraight
  moves : o.Moves (t.width + if op = .neg then 0 else t.width) t.width
  /-- only `int` arithmetic is done in place -/
  inPlace : o = .iadd ∨ o = .isub → t.width = 1
  long : op = .compl → (t.kind = .long ∨ t.kind.widen = .int)
  kind : t.kind ≠ .void

theorem UnaryOp.select_fits {op : UnaryOp} {t : Ty} {o : Opcode} (h : op.select t = .ok o) :
    op.Fits o t := by
  have hin (f : Family) (hf : t.family? = some f) (ho : op.selectIn f = some o) : op.Fits o t := by
    cases op <;> cases t <;> cases hf <;> cases ho <;> constructor <;> decide
  unfold select at h
  cases hf : t.family? with
  | none => simp [hf] at h
  | some f =>
      cases ho : op.selectIn f with
      | none => simp [hf, ho] at h
      | some o' =>
          simp only [hf, ho, Option.bind_some, Except.ok.injEq] at h
          exact hin f hf (h ▸ ho)

theorem Gen.one_opcode (k : Kind) :
    (Gen.one k).IsStraight ∧ (k ≠ .void → (Gen.one k).Moves 0 k.width) := by
  cases k <;> decide

end StackCode
