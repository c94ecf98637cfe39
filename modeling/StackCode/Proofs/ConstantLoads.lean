import StackCode.Proofs.StraightCode

/-!
# Constants are loaded and converted exactly

Loading a constant writes one instruction, and that instruction pushes the constant itself,
whichever of its forms is chosen and wherever its pool entry stands. Converting a constant takes
no code: what is loaded then is what the conversion instructions make of the value on the stack.
-/

set_option maxRecDepth 4000

namespace StackCode

open Instruction

/-- A constant of the sort that values of kind `k` are. -/
def Const.Suits (c : Const) (k : Kind) : Prop :=
  match c with
  | .int _ => k.widen = .int
  | .long _ => k = .long
  | .float _ => k = .float
  | .double _ => k = .double
  | .str _ => k = .object

namespace Spells

variable {d : ℕ}

/-! ### Loading -/

/-- A constant of the pool. -/
theorem ldc {c : Const} {k : Kind} {g : Pool → UInt16 × Pool}
    (hc : c.isWide = true ↔ k = .long ∨ k = .double)
    (hg : Pool.Puts g fun i p => p.Reads i (.ofConst c)) :
    Spells (do Asm.onCode (Emit.ldc (← Asm.pooled g) k)) () d (d + k.width) [.push c] := by
  refine of_puts hg (fun _ _ _ h hext => hext.reads h) (fun i => Emit.delivers_ldc i k) rfl
    (Nat.zero_le _) rfl ?_
  exact fun i p q hpool hold => Program.fetch_ldcOp hc hpool hold

theorem loadInt (v : Int32) : Spells (Item.loadInt v) () d (d + 1) [.push (.int v)] := by
  unfold Item.loadInt
  split
  · rename_i hv
    obtain ⟨htakes, hgoes, hneeds, hputs⟩ := Opcode.iconst_row hv
    exact of_delivers (Emit.delivers_plain htakes) hgoes (by omega) (by omega) fun p q hold =>
      Program.fetch_of_read (Program.read_iconst hv hold) rfl
  split
  · rename_i hv
    exact of_delivers (Emit.delivers_byte (by decide) _) (by decide)
      (Nat.zero_le d) rfl fun p q hold =>
      Program.fetch_of_read (Program.read_bipush hv hold) rfl
  split
  · rename_i hv
    exact of_delivers (Emit.delivers_short (by decide) _) (by decide)
      (Nat.zero_le d) rfl fun p q hold =>
      Program.fetch_of_read (Program.read_sipush hv hold) rfl
  · exact ldc (by simp [Const.isWide]) (Pool.puts_put (.int v))

theorem loadLong (v : Int64) : Spells (Item.loadLong v) () d (d + 2) [.push (.long v)] := by
  unfold Item.loadLong
  split
  · rename_i hv
    subst hv
    exact plain (by decide) (Nat.zero_le d) rfl
  split
  · rename_i hv
    subst hv
    exact plain (by decide) (Nat.zero_le d) rfl
  · exact ldc (by simp [Const.isWide]) (Pool.puts_put (.long v))

theorem loadFloat (bits : UInt32) :
    Spells (Item.loadFloat bits) () d (d + 1) [.push (.float bits)] := by
  unfold Item.loadFloat
  split
  · rename_i hv
    subst hv
    exact plain (by decide) (Nat.zero_le d) rfl
  split
  · rename_i hv
    subst hv
    exact plain (by decide) (Nat.zero_le d) rfl
  split
  · rename_i hv
    subst hv
    exact plain (by decide) (Nat.zero_le d) rfl
  · exact ldc (by simp [Const.isWide]) (Pool.puts_put (.float bits))

theorem loadDouble (bits : UInt64) :
    Spells (Item.loadDouble bits) () d (d + 2) [.push (.double bits)] := by
  unfold Item.loadDouble
  split
  · rename_i hv
    subst hv
    exact plain (by decide) (Nat.zero_le d) rfl
  split
  · rename_i hv
    subst hv
    exact plain (by decide) (Nat.zero_le d) rfl
  · exact ldc (by simp [Const.isWide]) (Pool.puts_put (.double bits))

/-- Any constant is loaded by one instruction, which pushes it. -/
theorem load {c : Const} {k : Kind} (h : c.Suits k) :
    Spells (Item.const k c).load (.stack k) d (d + k.width) [.push c] := by
  have hloads : Spells (Item.loadConst k c) () d (d + k.width) [.push c] ∧ k ≠ .void := by
    cases c with
    | int v =>
        have h : k.widen = .int := h
        cases k with
        | int | byte | char | short => exact ⟨loadInt v, by decide⟩
        | _ => cases h
    | long v => cases h; exact ⟨loadLong v, by decide⟩
    | float bits => cases h; exact ⟨loadFloat bits, by decide⟩
    | double bits => cases h; exact ⟨loadDouble bits, by decide⟩
    | str text =>
        cases h; exact ⟨ldc (by simp [Const.isWide]) (Pool.puts_const (.str text)), by decide⟩
  exact hloads.1.answer (by rw [Item.ofKind, if_neg hloads.2])

end Spells

/-! ### Converting -/

/-- The kinds whose values are integers. -/
def Kind.IsIntegral (k : Kind) : Prop := k.widen = .int ∨ k = .long

/-- The instructions that make a value of kind `t` out of one of kind `k`. -/
def Operation.conversion (k t : Kind) : List Operation :=
  if k = t then []
  else (if k = .long then [.cut] else if t = .long then [.extend] else []) ++
    if t = t.widen then [] else [.narrow t]

/-- Constants are cut back as values on the stack are. -/
theorem Item.foldConst_narrow (c : Const) {t : Kind} (ht : t.widen = .int) :
    foldConst c t = some (.int (t.narrow c.toInt32)) := by
  generalize hv : c.toInt32 = v
  cases t with
  | int => simp [foldConst, hv, Kind.narrow]
  | byte =>
      have hbyte : v.toInt8.toInt32 = .ofInt (v.toInt.bmod 0x100) := by
        rw [← Int32.ofInt_int8ToInt, Int32.toInt_toInt8]
      simp only [foldConst, hv, hbyte, Kind.narrow]
  | short =>
      have hshort : v.toInt16.toInt32 = .ofInt (v.toInt.bmod 0x10000) := by
        rw [← Int32.ofInt_int16ToInt, Int32.toInt_toInt16]
      simp only [foldConst, hv, hshort, Kind.narrow]
  | char =>
      have hchar : v.toUInt32.toUInt16.toUInt32.toInt32 = .ofInt (v.toInt % 0x10000) := by
        have hv := bmod_toUInt32 v
        have hw := bmod_toUInt32 v.toUInt32.toUInt16.toUInt32.toInt32
        rw [UInt32.toUInt32_toInt32, UInt16.toNat_toUInt32, UInt32.toNat_toUInt16] at hw
        have hlt := v.toUInt32.toNat_lt
        apply Int32.toInt_inj.mp
        rw [Int32.toInt_ofInt, show Int32.size = 0x100000000 from rfl]
        simp only [Int.bmod] at hv hw ⊢
        omega
      simp only [foldConst, hv, hchar, Kind.narrow]
  | _ => cases ht

theorem Asm.onCode_bind {α β : Type} (x : Emit α) (f : α → Emit β) :
    onCode (x >>= f) = onCode x >>= fun a => onCode (f a) := by
  funext ⟨code, pool⟩
  simp only [onCode, bind, EStateM.bind]
  cases x code with
  | ok a c => rfl
  | error e c => rfl

/-- The instructions that `convert` writes, by the kinds of integers. -/
theorem Continues.convert {k t : Kind} {d : ℕ} (hk : k.IsIntegral) (ht : t.IsIntegral)
    (hne : k ≠ t) :
    Continues (Asm.onCode (Item.convert k t)) () (d + k.width) (d + t.width)
      (Operation.conversion k t) := by
  have hnarrow (n : ℕ) {u : Kind} (hu : u ∈ [Kind.byte, .char, .short]) :
      Spells (Asm.onCode (Emit.plain (.i2b + (u.code - Kind.byte.code)))) () (n + 1)
        (n + 1) [.narrow u] := by
    simp only [List.mem_cons, List.not_mem_nil, or_false] at hu
    rcases hu with rfl | rfl | rfl <;> exact .plain (by decide) (Nat.le_add_left 1 n) rfl
  have hcut : Spells (Asm.onCode (Emit.plain .l2i)) () (d + 2) (d + 1) [.cut] :=
    .plain (by decide) (Nat.le_add_left 2 d) rfl
  have hextend : Spells (Asm.onCode (Emit.plain .i2l)) () (d + 1) (d + 2) [.extend] :=
    .plain (by decide) (Nat.le_add_left 1 d) rfl
  rcases hk with hk | rfl
  · cases k with
    | int | byte | char | short =>
      cases t with
      | byte | char | short =>
          first | exact absurd rfl hne | exact (hnarrow d (by decide)).continues
      | int => first | exact absurd rfl hne | exact .pure () _
      | long =>
        refine Spells.continues ?_
        rw [show Item.convert _ .long = (do Emit.plain .i2l; return) from rfl, Asm.onCode_bind]
        exact hextend.answer rfl
      | _ => rcases ht with h | h <;> cases h
    | _ => cases hk
  · cases t with
    | byte | char | short =>
      refine Spells.continues ?_
      rw [show Item.convert .long _ = (do Emit.plain .l2i; Emit.plain _) from rfl, Asm.onCode_bind]
      exact hcut.bind (hnarrow d (by decide)).continues
    | int =>
      refine Spells.continues ?_
      rw [show Item.convert .long .int = (do Emit.plain .l2i; return) from rfl, Asm.onCode_bind]
      exact hcut.answer rfl
    | long => exact absurd rfl hne
    | _ => rcases ht with h | h <;> cases h

/-- A value on the stack is converted by instructions. -/
theorem Continues.coerce {k t : Kind} {d : ℕ} (hk : k.IsIntegral) (ht : t.IsIntegral) :
    Continues ((Item.stack k).coerce t) (.stack t) (d + k.width) (d + t.width)
      (Operation.conversion k t) := by
  by_cases hne : k = t
  · subst hne
    rw [ExprCode.coerce_self (show (Item.stack k).kind = k from rfl),
      Operation.conversion, if_pos rfl]
    exact .pure _ _
  · have hvoid : t ≠ .void := by
      rintro rfl
      rcases ht with h | h <;> cases h
    have heq : (Item.stack k).coerce t = (do Asm.onCode (Item.convert k t); return .stack t) := by
      unfold Item.coerce
      rw [if_neg (show (Item.stack k).kind ≠ t from hne), Item.ofKind, if_neg hvoid]
      rfl
    rw [heq, ← List.append_nil (Operation.conversion k t)]
    exact (Continues.convert hk ht hne).bind (.pure _ _)

/-- A constant that is wanted as an `int` stays as it is, if it is below `int` itself. -/
theorem Item.coerce_kept {k : Kind} (c : Const) (hk : k.widen = .int) :
    (Item.const k c).coerce .int = pure (.const k c) := by
  unfold Item.coerce
  split
  · rfl
  · dsimp only
    rw [if_pos ⟨rfl, hk⟩]

/-- Any other one is converted. -/
theorem Item.coerce_folded {k t : Kind} {c c' : Const} (hne : k ≠ t)
    (hkeep : ¬ (t = .int ∧ k.widen = .int)) (hfold : foldConst c t = some c') :
    (Item.const k c).coerce t = pure (.const t c') := by
  unfold Item.coerce
  rw [if_neg (show (Item.const k c).kind ≠ t from hne)]
  dsimp only
  rw [if_neg hkeep, hfold]
  rfl

/-- What is folded is what the instructions make of the value. -/
theorem Operation.performAll_conversion {k t : Kind} {c : Const} (hk : k.IsIntegral)
    (ht : t.IsIntegral) (hne : k ≠ t) (hc : c.Suits k) :
    ∃ c', Item.foldConst c t = some c' ∧ c'.Suits t ∧
      ∀ v, performAll (.push c :: conversion k t) v = some ⟨c' :: v.stack, v.regs⟩ := by
  have hnarrow (ht : t.widen = .int) (n : Int32) (v : Values) :
      performAll (if t = t.widen then [] else [.narrow t]) ⟨.int n :: v.stack, v.regs⟩ =
        some ⟨.int (t.narrow n) :: v.stack, v.regs⟩ := by
    split
    · rename_i heq
      obtain rfl : t = .int := heq.trans ht
      rfl
    · rfl
  unfold conversion
  rw [if_neg hne]
  cases c with
  | int n =>
      have hlong : k ≠ .long := by
        rintro rfl
        cases hc
      rw [if_neg hlong]
      rcases ht with ht | rfl
      · rw [if_neg (by rintro rfl; cases ht)]
        exact ⟨_, Item.foldConst_narrow _ ht, ht, hnarrow ht n⟩
      · refine ⟨.long n.toInt64, rfl, rfl, fun v => ?_⟩
        rw [← Int64.ofInt_int32ToInt]
        rfl
  | long n =>
      obtain rfl : k = .long := hc
      rw [if_pos rfl]
      rcases ht with ht | rfl
      · refine ⟨_, Item.foldConst_narrow _ ht, ht, fun v => ?_⟩
        rw [← hnarrow ht, Const.toInt32, ← Int32.ofInt_int64ToInt]
        rfl
      · exact absurd rfl hne
  | float bits =>
      obtain rfl : k = .float := hc
      rcases hk with hk | hk <;> cases hk
  | double bits =>
      obtain rfl : k = .double := hc
      rcases hk with hk | hk <;> cases hk
  | str text =>
      obtain rfl : k = .object := hc
      rcases hk with hk | hk <;> cases hk

/-- A constant is converted without any, to what the instructions would make of it. -/
theorem Spells.coerce {c : Const} {k t : Kind} {d : ℕ} (hk : k.IsIntegral) (ht : t.IsIntegral)
    (hc : c.Suits k) :
    ∃ c' i, Spells (do (← (Item.const k c).coerce t).load) i d (d + t.width) [.push c'] ∧
      ∀ v, Operation.performAll (.push c :: Operation.conversion k t) v =
        some ⟨c' :: v.stack, v.regs⟩ := by
  by_cases hne : k = t
  · subst hne
    rw [ExprCode.coerce_self (show (Item.const k c).kind = k from rfl),
      Operation.conversion, if_pos rfl]
    exact ⟨c, .stack k, .load hc, fun v => rfl⟩
  obtain ⟨c', hfold, hc', hperform⟩ := Operation.performAll_conversion hk ht hne hc
  by_cases hkeep : t = .int ∧ k.widen = .int
  · obtain ⟨rfl, hwiden⟩ := hkeep
    have hwidth : k.width = 1 := by cases k <;> first | rfl | cases hwiden
    have hlong : k ≠ .long := by
      rintro rfl
      cases hwiden
    have hload : Spells (Item.const k c).load (.stack k) d (d + k.width) [.push c] := .load hc
    rw [hwidth] at hload
    rw [Item.coerce_kept c hwiden, Operation.conversion, if_neg hne, if_neg hlong,
      if_neg (by decide)]
    exact ⟨c, .stack k, hload, fun v => rfl⟩
  · rw [Item.coerce_folded hne hkeep hfold]
    exact ⟨c', .stack t, .load hc', hperform⟩

/-! ### What the machine does -/

/-- The program that code and pool make. -/
def Assembly.program (s : Assembly) : Program := ⟨s.code.bytes, s.pool⟩

/-- The code is there to be read once it is written. -/
theorem Assembly.Grows.reads {s s' : Assembly} {c : Code} {R : Program → ℕ → ℕ → Prop} {d : ℕ}
    (h : s.Grows c R d s') (hsize : s'.pool.size ≤ 0xFFFF) : R s'.program c.pc s'.code.pc := by
  obtain ⟨enc, hbytes, hread⟩ := h.bytes
  have hpc : s'.code.pc = c.pc + enc.size := by
    unfold Code.pc
    rw [hbytes, Array.size_append]
  rw [hpc]
  refine hread s'.program c.pc (.refl _) (Nat.le_succ_of_le hsize) fun i hi => ?_
  show s'.code.bytes[c.bytes.size + i]? = _
  rw [hbytes, Array.getElem?_append_right (Nat.le_add_right _ _), Nat.add_sub_cancel_left]

theorem Assembly.Gains.fetches {s s' : Assembly} {c : Code} {ops : List Operation} {d : ℕ}
    (h : s.Gains c ops d s') (hsize : s'.pool.size ≤ 0xFFFF) :
    s'.program.Fetches c.pc ops s'.code.pc :=
  Grows.reads h hsize

/-- A constant is loaded by one instruction, which pushes exactly the constant. An integer
constant that is converted first is loaded as what the conversion instructions make of the value
on the stack. -/
theorem Item.const_exact (s : Assembly) (c₁ : Code) (hopens : s.code.Opens c₁)
    (hpool : s.pool.Indexed) (k : Kind) (c : Const) (hc : c.Suits k) :
    (∃ s' enc, (Item.const k c).load s = .ok (.stack k) s' ∧ s'.code.bytes = c₁.bytes ++ enc ∧
      (s'.pool.size ≤ 0xFFFF → ∀ v,
        s'.program.advance (c₁.pc, v) = some (s'.code.pc, ⟨c :: v.stack, v.regs⟩))) ∧
    ∀ t, k.IsIntegral → t.IsIntegral → ∃ i s₁ s₂,
      (do (← (Item.const k c).coerce t).load) s = .ok i s₁ ∧
      (do let v ← (Item.const k c).load; v.coerce t) s = .ok (.stack t) s₂ ∧
      (s₁.pool.size ≤ 0xFFFF → s₂.pool.size ≤ 0xFFFF → ∃ c', ∀ v,
        s₁.program.Executes (c₁.pc, v) (s₁.code.pc, ⟨c' :: v.stack, v.regs⟩) ∧
        s₂.program.Executes (c₁.pc, v) (s₂.code.pc, ⟨c' :: v.stack, v.regs⟩)) := by
  refine ⟨?_, fun t hk ht => ?_⟩
  · obtain ⟨s', hload, hgains⟩ := Spells.load hc s c₁ hopens rfl hpool
    obtain ⟨enc, hbytes, -⟩ := hgains.bytes
    refine ⟨s', enc, hload, hbytes, fun hsize v => ?_⟩
    obtain ⟨next, hfetch, hnext⟩ := hgains.fetches hsize
    rw [← show next = s'.code.pc from hnext]
    exact Program.advance_of_fetch hfetch rfl
  · obtain ⟨c', i, hfolded, hperform⟩ := Spells.coerce hk ht hc
    obtain ⟨s₁, hrun₁, hgains₁⟩ := hfolded s c₁ hopens rfl hpool
    obtain ⟨s₂, hrun₂, hgains₂⟩ := (Spells.load hc).bind (f := fun v => v.coerce t)
      (Continues.coerce hk ht) s c₁ hopens rfl hpool
    refine ⟨i, s₁, s₂, hrun₁, hrun₂, fun hsize₁ hsize₂ => ⟨c', fun v => ⟨?_, ?_⟩⟩⟩
    · exact (hgains₁.fetches hsize₁).executes rfl
    · exact (hgains₂.fetches hsize₂).executes (hperform v)

/-- A `long` that neither an `int` nor a `byte` can hold, converted to `byte`. -/
theorem Item.const_exact_long :
    (∃ s' enc, (Item.const .long (.long 0x1000000c8)).load {} = .ok (.stack .long) s' ∧
      s'.code.bytes = #[] ++ enc ∧
      (s'.pool.size ≤ 0xFFFF → ∀ v, s'.program.advance (0, v) =
        some (s'.code.pc, ⟨.long 0x1000000c8 :: v.stack, v.regs⟩))) ∧
    ∃ i s₁ s₂, (do (← (Item.const .long (.long 0x1000000c8)).coerce .byte).load) {} = .ok i s₁ ∧
      (do let v ← (Item.const .long (.long 0x1000000c8)).load; v.coerce .byte) {} = .ok
        (.stack .byte) s₂ ∧
      (s₁.pool.size ≤ 0xFFFF → s₂.pool.size ≤ 0xFFFF → ∃ c', ∀ v,
        s₁.program.Executes (0, v) (s₁.code.pc, ⟨c' :: v.stack, v.regs⟩) ∧
        s₂.program.Executes (0, v) (s₂.code.pc, ⟨c' :: v.stack, v.regs⟩)) := by
  obtain ⟨hload, hcoerce⟩ :=
    Item.const_exact {} {} (Code.opens_self rfl rfl) Pool.indexed_empty .long
    (.long 0x1000000c8) rfl
  exact ⟨hload, hcoerce .byte (.inr rfl) (.inl rfl)⟩

end StackCode
