import StackCode.Proofs.Futures

/-!
# Instructions are performed

What is written is read back and performed. The first part reads each kind of instruction out of a
program that holds its bytes; the second says that writing succeeds where the stack is deep enough
and what the code is then.

The third part is about the state of the generator. `SucceedsWith x s Q` says that a step succeeds
and that `Q` holds of what it leaves. Of the machine, the generator knows the operand stack and
the values of the variables in its registers, which is a `Spot`. `s.Future ζ H p` is a program
that may come out of the state `s`, and `F.Comes m a` says that the machine comes from `m` to the
end of the code of `s`, to find what `a` says. `ControlFlow` describes a step by what happens
between the two ends.
-/

set_option maxRecDepth 4000

namespace StackCode

open Instruction

/-! ### Reading instructions -/

theorem Instruction.shortAt_bounds {a : Array UInt8} {pc : ℕ} {v : Int} (h : shortAt a pc = .ok v) :
    -0x8000 ≤ v ∧ v < 0x8000 := by
  obtain ⟨hi, -, h⟩ := Except.bind_eq_ok.mp h
  obtain ⟨lo, -, h⟩ := Except.bind_eq_ok.mp h
  rw [← Except.ok.inj h]
  have hlo := Int.le_bmod (x := hi.toNat * 0x100 + lo.toNat) (m := 0x10000) (by decide)
  have hhi := Int.bmod_lt (x := hi.toNat * 0x100 + lo.toNat) (m := 0x10000) (by decide)
  omega

theorem Instruction.intAt_bounds {a : Array UInt8} {pc : ℕ} {v : Int} (h : intAt a pc = .ok v) :
    -0x80000000 ≤ v ∧ v < 0x80000000 := by
  unfold intAt at h
  split at h
  · rename_i a b c d _ _ _ _
    rw [← Except.ok.inj h]
    have hlo := Int.le_bmod (x := ((a.toNat * 0x100 + b.toNat) * 0x100 + c.toNat) * 0x100 + d.toNat)
      (m := 0x100000000) (by decide)
    have hhi := Int.bmod_lt (x := ((a.toNat * 0x100 + b.toNat) * 0x100 + c.toNat) * 0x100 + d.toNat)
      (m := 0x100000000) (by decide)
    omega
  · cases h

/-- A branch of a short program leads to a position of 32 bits. -/
theorem Leads.offsetTarget {wide : Bool} {bs : Array UInt8} {q t : ℕ} (h : Leads wide bs q t)
    (hq : q ≤ 0xFFFF) :
    offsetTarget q ((t : Int) - q) = t := by
  have hlt : t < 0x100000000 := by
    cases wide with
    | true => have := (intAt_bounds h).2; omega
    | false => have := (shortAt_bounds h).2; omega
  rw [Code.offsetTarget_sub, Nat.mod_eq_of_lt hlt]

theorem size_append_pos (op : Opcode) (a : Array UInt8) : 0 < (#[op] ++ a).size := by
  rw [Array.size_append]
  exact Nat.add_pos_left Nat.one_pos _

namespace Program

variable {p : Program} {q t : ℕ}

theorem decodeAt_of_opcode {op : Opcode} {n : ℕ} (hop : p.bytes[q]? = some op)
    (hlen : op.length? = some (n + 1)) (hsize : q + (n + 1) ≤ p.bytes.size) :
    decodeAt p.bytes q = .ok ⟨q, op, n + 1, false⟩ :=
  decodeAt_eq_ok.mpr ⟨_, _, _, shapeAt_of_length hop hlen, hsize, rfl⟩

/-- How an instruction is read once it is decoded. -/
theorem read_of_decodeAt {i : Instruction} {a : Act} (hi : decodeAt p.bytes q = .ok i)
    (ha : i.act? p = some a) :
    p.read q = some (a, q + i.length) := by
  simp only [read, hi, Except.toOption, Option.bind_eq_bind, Option.bind_some, ha, Option.pure_def]

theorem read_goto (hop : p.bytes[q]? = some Opcode.goto) (hlead : Leads false p.bytes q t)
    (hsize : q + 3 ≤ p.bytes.size) (hshort : p.bytes.size ≤ 0xFFFF) :
    p.read q = some (.jump t, q + 3) := by
  refine read_of_decodeAt (decodeAt_of_opcode (n := 2) hop (by decide) hsize) ?_
  have htarget : branchTarget? ⟨q, .goto, 3, false⟩ p.bytes = .ok (some t) := by
    have hshortAt : shortAt p.bytes (q + 1) = .ok ((t : Int) - q) := hlead
    show (do return some (offsetTarget q (← shortAt p.bytes (q + 1))) : Except Error (Option ℕ)) = _
    rw [hshortAt]
    exact congrArg (fun t => Except.ok (some t)) (hlead.offsetTarget (by omega))
  show (do
    let target ← (← (branchTarget? ⟨q, .goto, 3, false⟩ p.bytes).toOption)
    return Act.jump target) = _
  rw [htarget]
  rfl

theorem read_gotoW (hop : p.bytes[q]? = some Opcode.gotoW) (hlead : Leads true p.bytes q t)
    (hsize : q + 5 ≤ p.bytes.size) (hshort : p.bytes.size ≤ 0xFFFF) :
    p.read q = some (.jump t, q + 5) := by
  refine read_of_decodeAt (decodeAt_of_opcode (n := 4) hop (by decide) hsize) ?_
  have htarget : branchTarget? ⟨q, .gotoW, 5, false⟩ p.bytes = .ok (some t) := by
    have hintAt : intAt p.bytes (q + 1) = .ok ((t : Int) - q) := hlead
    show (do return some (offsetTarget q (← intAt p.bytes (q + 1))) : Except Error (Option ℕ)) = _
    rw [hintAt]
    exact congrArg (fun t => Except.ok (some t)) (hlead.offsetTarget (by omega))
  show (do
    let target ← (← (branchTarget? ⟨q, .gotoW, 5, false⟩ p.bytes).toOption)
    return Act.jump target) = _
  rw [htarget]
  rfl

/-- A branch that compares integers. -/
theorem read_test {op : Opcode} (hcompares : op.Compares) (hop : p.bytes[q]? = some op)
    (hlead : Leads false p.bytes q t) (hsize : q + 3 ≤ p.bytes.size)
    (hshort : p.bytes.size ≤ 0xFFFF) :
    p.read q = some (.test op t, q + 3) := by
  have hall : ∀ op ∈ Opcode.zeroTests ++ Opcode.pairTests, op.length? = some 3 ∧
      (branchTarget? ⟨q, op, 3, false⟩ p.bytes =
        (do return some (offsetTarget q (← shortAt p.bytes (q + 1))) : Except Error (Option ℕ))) ∧
      act? ⟨q, op, 3, false⟩ p = (do
        let target ← (← (branchTarget? ⟨q, op, 3, false⟩ p.bytes).toOption)
        return Act.test op target) := by
    intro op hop
    simp only [Opcode.zeroTests, Opcode.pairTests, List.cons_append, List.nil_append, List.mem_cons,
      List.not_mem_nil, or_false] at hop
    rcases hop with rfl | rfl | rfl | rfl | rfl | rfl | rfl | rfl | rfl | rfl | rfl | rfl <;>
      exact ⟨by decide, rfl, rfl⟩
  obtain ⟨hlen, htarget, hact⟩ := hall op (List.mem_append.mpr hcompares)
  refine read_of_decodeAt (decodeAt_of_opcode (n := 2) hop hlen hsize) ?_
  have hshortAt : shortAt p.bytes (q + 1) = .ok ((t : Int) - q) := hlead
  rw [hact, htarget, hshortAt]
  exact congrArg (fun t => some (Act.test op t)) (hlead.offsetTarget (by omega))

theorem size_of_holds {enc : Array UInt8} (h : Holds p.bytes q enc) (henc : 0 < enc.size) :
    q + enc.size ≤ p.bytes.size := by
  have hlast := h (enc.size - 1) (by omega)
  rw [Array.getElem?_eq_getElem (by omega : enc.size - 1 < enc.size)] at hlast
  have := (Array.getElem?_eq_some_iff.mp hlast).1
  omega

/-- An instruction whose length its opcode tells, out of its bytes. -/
theorem decodeAt_of_holds {op : Opcode} {a : Array UInt8} {n : ℕ}
    (hold : Holds p.bytes q (#[op] ++ a)) (hn : a.size = n) (hlen : op.length? = some (n + 1)) :
    decodeAt p.bytes q = .ok ⟨q, op, n + 1, false⟩ := by
  have hsize := size_of_holds hold (size_append_pos op a)
  rw [Array.size_append, hn, Nat.add_comm _ n] at hsize
  exact decodeAt_of_opcode ((holds_append_iff.mp hold).1 0 Nat.one_pos) hlen hsize

theorem between_iff {v lo hi : Int32} :
    Int32.between v lo hi = true ↔ lo.toInt ≤ v.toInt ∧ v.toInt ≤ hi.toInt := by
  simp [Int32.between, Int32.le_iff_toInt_le]

theorem read_iconst {v : Int32} (hv : Int32.between v (-1) 5 = true)
    (hold : Holds p.bytes q #[Opcode.iconst0 + v.toInt8.toUInt8]) :
    p.read q = some (.push v, q + 1) := by
  obtain ⟨hlo, hhi⟩ := between_iff.mp hv
  have hlo : -1 ≤ v.toInt := hlo
  have hhi : v.toInt ≤ 5 := hhi
  have hcases : v.toInt = -1 ∨ v.toInt = 0 ∨ v.toInt = 1 ∨ v.toInt = 2 ∨ v.toInt = 3 ∨ v.toInt = 4 ∨
      v.toInt = 5 := by
    omega
  have hop : ∀ op : Opcode, op = Opcode.iconst0 + v.toInt8.toUInt8 →
      op.length? = some 1 ∧ (.iconstM1 ≤ op ∧ op ≤ .iconst5) ∧
        (op - .iconst0).toInt8.toInt32 = v := by
    have hof := Int32.ofInt_toInt v
    rintro op rfl
    rcases hcases with h | h | h | h | h | h | h <;> rw [h] at hof <;> subst hof <;> decide
  obtain ⟨hlen, hrange, hback⟩ := hop _ rfl
  refine read_of_decodeAt (decodeAt_of_holds (a := #[]) hold rfl hlen) ?_
  rw [act?, if_pos hrange, hback]

theorem read_bipush {v : Int32} (hv : Int32.between v (-128) 127 = true)
    (hold : Holds p.bytes q (#[Opcode.bipush] ++ #[v.toInt8.toUInt8])) :
    p.read q = some (.push v, q + 2) := by
  have hbyte : p.bytes[q + 1]? = some v.toInt8.toUInt8 := (holds_append_iff.mp hold).2 0 Nat.one_pos
  refine read_of_decodeAt (decodeAt_of_holds (n := 1) hold rfl (by decide)) ?_
  show ((byteAt p.bytes (q + 1)).toOption.map fun b => Act.push b.toInt8.toInt32) = _
  rw [byteAt_eq_ok.mpr hbyte]
  obtain ⟨hlo, hhi⟩ := between_iff.mp hv
  have hback : v.toInt8.toUInt8.toInt8.toInt32 = v := by
    rw [Int8.toInt8_toUInt8]
    apply Int32.toInt_inj.mp
    rw [Int8.toInt_toInt32, Int32.toInt_toInt8]
    have hlo : -128 ≤ v.toInt := hlo
    have hhi : v.toInt ≤ 127 := hhi
    exact Int.bmod_eq_of_le (by omega) (by omega)
  exact congrArg (fun v => some (Act.push v)) hback

/-- A word behind an opcode. -/
theorem shortAt_of_holds {op : Opcode} {w : UInt16}
    (hold : Holds p.bytes q (#[op] ++ wordBytes w)) :
    shortAt p.bytes (q + 1) = .ok (Int.bmod w.toNat 0x10000) := by
  have hword := (holds_append_iff.mp hold).2
  exact shortAt_wordBytes (hword 0 Nat.two_pos) (hword 1 Nat.one_lt_two)

theorem read_sipush {v : Int32} (hv : Int32.between v (-32768) 32767 = true)
    (hold : Holds p.bytes q (#[Opcode.sipush] ++ wordBytes v.toInt16.toUInt16)) :
    p.read q = some (.push v, q + 3) := by
  refine read_of_decodeAt (decodeAt_of_holds (n := 2) hold rfl (by decide)) ?_
  show ((shortAt p.bytes (q + 1)).toOption.map fun v => Act.push (.ofInt v)) = _
  rw [shortAt_of_holds hold]
  obtain ⟨hlo, hhi⟩ := between_iff.mp hv
  have hback : Int32.ofInt (Int.bmod v.toInt16.toUInt16.toNat 0x10000) = v := by
    have hlo : -32768 ≤ v.toInt := hlo
    have hhi : v.toInt ≤ 32767 := hhi
    have hword : Int.bmod v.toInt16.toUInt16.toNat 0x10000 = v.toInt16.toInt := by
      rw [Int16.toInt, BitVec.toInt_eq_toNat_bmod]
      rfl
    rw [hword, Int32.toInt_toInt16, Int.bmod_eq_of_le (by omega) (by omega), Int32.ofInt_toInt]
  exact congrArg (fun v => some (Act.push v)) hback

theorem ofInt_bmod (w : UInt16) : UInt16.ofInt (Int.bmod w.toNat 0x10000) = w := by
  apply UInt16.toNat_inj.mp
  have hlt := w.toNat_lt
  have hmod : Int.bmod w.toNat 0x10000 % 0x10000 = w.toNat % 0x10000 := Int.bmod_emod
  simp only [UInt16.ofInt, UInt16.toNat_ofNat']
  omega

theorem read_ldc {index : UInt16} {v : Int32} (hi : index ≤ 0xFF)
    (hpool : p.pool.int? index = some v)
    (hold : Holds p.bytes q (#[Opcode.ldc] ++ #[index.toUInt8])) :
    p.read q = some (.push v, q + 2) := by
  have hbyte : p.bytes[q + 1]? = some index.toUInt8 := (holds_append_iff.mp hold).2 0 Nat.one_pos
  have hback : index.toUInt8.toUInt16 = index := by
    apply UInt16.toNat_inj.mp
    have hle : index.toNat ≤ 255 := UInt16.le_iff_toNat_le.mp hi
    simp only [UInt8.toNat_toUInt16, UInt16.toNat_toUInt8]
    omega
  refine read_of_decodeAt (decodeAt_of_holds (n := 1) hold rfl (by decide)) ?_
  show (do
    let index ← (byteAt p.bytes (q + 1)).toOption
    return Act.push (← p.pool.int? index.toUInt16)) = _
  rw [byteAt_eq_ok.mpr hbyte]
  show (do return Act.push (← p.pool.int? index.toUInt8.toUInt16)) = _
  rw [hback, hpool]
  rfl

theorem read_ldcW {index : UInt16} {v : Int32} (hpool : p.pool.int? index = some v)
    (hold : Holds p.bytes q (#[Opcode.ldcW] ++ wordBytes index)) :
    p.read q = some (.push v, q + 3) := by
  obtain ⟨w, hshort, hback⟩ : ∃ w, shortAt p.bytes (q + 1) = .ok w ∧ UInt16.ofInt w = index :=
    ⟨_, shortAt_of_holds hold, ofInt_bmod index⟩
  refine read_of_decodeAt (decodeAt_of_holds (n := 2) hold rfl (by decide)) ?_
  show (do
    let index ← (shortAt p.bytes (q + 1)).toOption
    return Act.push (← p.pool.int? (.ofInt index))) = _
  rw [hshort]
  show (do return Act.push (← p.pool.int? (.ofInt w))) = _
  rw [hback, hpool]
  rfl

theorem act?_load {op : Opcode} (hop : op = .iload ∨ ∃ r < 4, op = .iload0 + UInt8.ofNat r) (n : ℕ)
    (wide : Bool) :
    act? ⟨q, op, n, wide⟩ p = (do
      let reg ← (← (register? ⟨q, op, n, wide⟩ p.bytes).toOption)
      return Act.load reg) := by
  rcases hop with rfl | ⟨r, hr, rfl⟩
  · rfl
  · rcases r with _ | _ | _ | _ | r
    · rfl
    · rfl
    · rfl
    · rfl
    · omega

theorem act?_store {op : Opcode} (hop : op = .istore ∨ ∃ r < 4, op = .istore0 + UInt8.ofNat r)
    (n : ℕ) (wide : Bool) :
    act? ⟨q, op, n, wide⟩ p = (do
      let reg ← (← (register? ⟨q, op, n, wide⟩ p.bytes).toOption)
      return Act.store reg) := by
  rcases hop with rfl | ⟨r, hr, rfl⟩
  · rfl
  · rcases r with _ | _ | _ | _ | r
    · rfl
    · rfl
    · rfl
    · rfl
    · omega

/-- An instruction on a register, by what it does with the register. -/
theorem read_register {act : ℕ → Act} {reg : UInt16} {enc : Array UInt8} {f : Form}
    (henc : Encodes enc [f]) (hreg : f.reg = some reg)
    (hact : (f.ins q).act? p =
      (do let reg ← (← ((f.ins q).register? p.bytes).toOption) return act reg))
    (hold : Holds p.bytes q enc) : p.read q = some (act reg.toNat, q + enc.size) := by
  obtain ⟨⟨hdecode, hregister⟩, hstop⟩ := henc p.bytes q hold
  have hstop : q + f.length = q + enc.size := hstop
  rw [← hstop]
  refine read_of_decodeAt hdecode ?_
  rw [hact, hregister reg hreg]
  rfl

end Program

namespace Emit

/-- What an instruction on a variable of kind `int` is written as. -/
def localBytes (family short : Opcode) (reg : UInt16) : Array UInt8 :=
  if reg ≤ 3 then #[short + reg.toUInt8] else registerBytes family reg

theorem encodes_localBytes {family short : Opcode} (reg : UInt16)
    (hshort : ∀ r < 4, (short + UInt8.ofNat r).Names r) (hlen : family.length? = some 2)
    (hfamily : hasRegister family = true) (hiinc : family ≠ .iinc) :
    ∃ f : Form, Encodes (localBytes family short reg) [f] ∧ f.reg = some reg ∧
      (f.op = family ∨ ∃ r < 4, f.op = short + UInt8.ofNat r) := by
  unfold localBytes
  split
  · rename_i hreg
    have hlt : reg.toNat < 4 := Nat.lt_succ_of_le (UInt16.le_iff_toNat_le.mp hreg)
    have hbyte : UInt8.ofNat reg.toNat = reg.toUInt8 := rfl
    exact ⟨_, .single (hbyte ▸ hshort _ hlt), rfl, .inr ⟨reg.toNat, hlt, rfl⟩⟩
  · unfold registerBytes
    split
    · have henc : Encodes (#[Opcode.wide] ++ (#[family] ++ (wordBytes reg ++ #[])))
          [⟨family, 4, true, some reg⟩] :=
        .wide rfl (if_neg hiinc) hfamily
      exact ⟨_, henc, rfl, .inl rfl⟩
    · rename_i hwide
      have henc : Encodes (#[family] ++ (#[reg.toUInt8] ++ #[])) [⟨family, 2, false, some reg⟩] :=
        .narrow rfl hlen hfamily hwide
      exact ⟨_, henc, rfl, .inl rfl⟩

end Emit

namespace Program

variable {p : Program} {q : ℕ}

/-- A variable is loaded from its register. -/
theorem read_load {reg : UInt16} (hold : Holds p.bytes q (Emit.localBytes .iload .iload0 reg)) :
    p.read q = some (.load reg.toNat, q + (Emit.localBytes .iload .iload0 reg).size) := by
  obtain ⟨f, henc, hreg, hop⟩ := Emit.encodes_localBytes reg
    (show ∀ r < 4, (Opcode.iload0 + UInt8.ofNat r).Names r by decide +kernel)
    (show Opcode.iload.length? = some 2 by decide) (by decide) (by decide)
  exact read_register henc hreg (act?_load hop _ _) hold

/-- A variable is stored into its register. -/
theorem read_store {reg : UInt16} (hold : Holds p.bytes q (Emit.localBytes .istore .istore0 reg)) :
    p.read q = some (.store reg.toNat, q + (Emit.localBytes .istore .istore0 reg).size) := by
  obtain ⟨f, henc, hreg, hop⟩ := Emit.encodes_localBytes reg
    (show ∀ r < 4, (Opcode.istore0 + UInt8.ofNat r).Names r by decide +kernel)
    (show Opcode.istore.length? = some 2 by decide) (by decide) (by decide)
  exact read_register henc hreg (act?_store hop _ _) hold

/-- An instruction without operands. -/
theorem read_plain {op : Opcode} {a : Act} (hlen : op.length? = some 1)
    (hact : act? ⟨q, op, 1, false⟩ p = some a) (hold : Holds p.bytes q #[op]) :
    p.read q = some (a, q + 1) :=
  read_of_decodeAt (decodeAt_of_holds (a := #[]) hold rfl hlen) hact

end Program

/-! ### Writing succeeds -/

instance (op : Opcode) (operands : Operands) : Decidable (op.Takes operands) :=
  decidable_of_iff (op.row?.map Opcode.Row.operands = some operands) Option.map_eq_some_iff

theorem Opcode.iconst_row {v : Int32} (hv : Int32.between v (-1) 5 = true) :
    (iconst0 + v.toInt8.toUInt8).Takes .plain ∧ (iconst0 + v.toInt8.toUInt8).effect.goesOn = true ∧
      (iconst0 + v.toInt8.toUInt8).effect.needs = 0 ∧
        (iconst0 + v.toInt8.toUInt8).effect.puts = 1 := by
  obtain ⟨hlo, hhi⟩ := Program.between_iff.mp hv
  have hlo : -1 ≤ v.toInt := hlo
  have hhi : v.toInt ≤ 5 := hhi
  have hcases : v.toInt = -1 ∨ v.toInt = 0 ∨ v.toInt = 1 ∨ v.toInt = 2 ∨ v.toInt = 3 ∨ v.toInt = 4 ∨
      v.toInt = 5 := by
    omega
  have hof := Int32.ofInt_toInt v
  rcases hcases with h | h | h | h | h | h | h <;> rw [h] at hof <;> subst hof <;> decide

namespace Emit

/-- Where control is and the stack is deep enough, the step writes `enc` with the effect `e`. -/
def Delivers (x : Emit Unit) (enc : Array UInt8) (e : Effect) : Prop :=
  ∀ c c₁ : Code, resolvePending c = .ok () c₁ → c₁.alive = true → e.needs ≤ c₁.frame.depth →
    x c = .ok () ((c₁.markLine.written enc).applyEffect e)

theorem opcode_eq {op : Opcode} {c c₁ : Code} (hflush : resolvePending c = .ok () c₁)
    (halive : c₁.alive = true) :
    opcode op c = .ok () (c₁.markLine.written #[op]) := by
  rw [opcode]
  refine EStateM.bind_eq_ok.mpr ⟨(), c₁, hflush, ?_⟩
  refine EStateM.bind_eq_ok.mpr ⟨c₁, c₁, rfl, ?_⟩
  rw [if_pos halive, ← Code.put1_alive (by rw [Code.alive_markLine, halive])]
  rfl

theorem effect_eq {e : Effect} {c : Code} (hneeds : e.needs ≤ c.frame.depth) :
    effect e c = .ok () (c.applyEffect e) := by
  rw [effect]
  refine EStateM.bind_eq_ok.mpr ⟨c, c, rfl, ?_⟩
  rw [if_neg (by omega)]
  rfl

theorem finishOp_eq {op : Opcode} {operands : Operands} {c : Code} (htakes : op.Takes operands)
    (halive : c.alive = true) (hneeds : op.effect.needs ≤ c.frame.depth) :
    finishOp op operands c = .ok () (c.applyEffect op.effect) := by
  obtain ⟨row, hrow, hoperands⟩ := htakes
  rw [finishOp]
  refine EStateM.bind_eq_ok.mpr ⟨c, c, rfl, ?_⟩
  rw [if_pos halive, hrow]
  show (if row.operands = operands then effect row.effect else _ : Emit Unit) c = _
  rw [if_pos hoperands, ← Opcode.effect_of_row hrow]
  exact effect_eq hneeds

/-- An opcode, its operands, its effect. -/
theorem delivers_of {op : Opcode} {f : Code → Code} {enc : Array UInt8} {fin : Emit Unit}
    {e : Effect} (hf : ∀ c : Code, c.alive = true → f c = c.written enc)
    (hfin : ∀ c : Code, c.alive = true → e.needs ≤ c.frame.depth →
      fin c = .ok () (c.applyEffect e)) :
    Delivers (do opcode op; modify f; fin) (#[op] ++ enc) e := by
  intro c c₁ hflush halive hneeds
  have halive' : (c₁.markLine.written #[op]).alive = true := by
    rw [← halive, ← c₁.alive_markLine]
    rfl
  refine EStateM.bind_eq_ok.mpr ⟨(), _, opcode_eq hflush halive, ?_⟩
  refine EStateM.bind_eq_ok.mpr ⟨(), _, rfl, ?_⟩
  rw [hf _ halive', Code.written_written]
  refine hfin _ halive' ?_
  rw [← c₁.frame_markLine] at hneeds
  exact hneeds

/-- The same behind the wide prefix. -/
theorem delivers_wide {op : Opcode} {f : Code → Code} {enc : Array UInt8} {fin : Emit Unit}
    {e : Effect} (hf : ∀ c : Code, c.alive = true → f c = c.written enc)
    (hfin : ∀ c : Code, c.alive = true → e.needs ≤ c.frame.depth →
      fin c = .ok () (c.applyEffect e)) :
    Delivers (do opcode .wide; opcode op; modify f; fin) (#[Opcode.wide] ++ (#[op] ++ enc)) e := by
  intro c c₁ hflush halive hneeds
  obtain ⟨c₂, hc₂⟩ : ∃ c₂, c₂ = c₁.markLine.written #[Opcode.wide] := ⟨_, rfl⟩
  have halive₂ : c₂.alive = true := by
    rw [hc₂, ← halive, ← c₁.alive_markLine]
    rfl
  have hflush₂ : resolvePending c₂ = .ok () c₂ := by
    have hpending : c₂.pending = [] := by
      rw [hc₂, ← (pending_resolvePending hflush).1, ← c₁.pending_markLine]
      rfl
    rw [resolvePending]
    refine EStateM.bind_eq_ok.mpr ⟨c₂, c₂, rfl, ?_⟩
    rw [hpending]
    rfl
  have hline : c₂.pendingLine = none := by
    rw [hc₂, ← c₁.pendingLine_markLine]
    rfl
  have hneeds₂ : e.needs ≤ c₂.frame.depth := by
    rw [← c₁.frame_markLine] at hneeds
    rw [hc₂]
    exact hneeds
  refine EStateM.bind_eq_ok.mpr ⟨(), c₂, by rw [hc₂]; exact opcode_eq hflush halive, ?_⟩
  rw [delivers_of hf hfin c₂ c₂ hflush₂ halive₂ hneeds₂, Code.markLine_of_none hline, hc₂,
    Code.written_written]

theorem delivers_plain {op : Opcode} (htakes : op.Takes .plain) :
    Delivers (plain op) #[op] op.effect :=
  @delivers_of _ id #[] _ _ (fun c _ => c.written_empty.symm) fun _ => finishOp_eq htakes

theorem delivers_byte {op : Opcode} (htakes : op.Takes .byte) (b : UInt8) :
    Delivers (byte op b) (#[op] ++ #[b]) op.effect :=
  delivers_of (fun _ h => Code.put1_alive h b) fun _ => finishOp_eq htakes

theorem delivers_short {op : Opcode} (htakes : op.Takes .short) (w : UInt16) :
    Delivers (short op w) (#[op] ++ wordBytes w) op.effect :=
  delivers_of (fun _ h => Code.put2_alive h w) fun _ => finishOp_eq htakes

theorem delivers_int {op : Opcode} (htakes : op.Takes .int) (n : Int32) :
    Delivers (int op n) (#[op] ++ intBytes n) op.effect :=
  delivers_of (fun _ h => Code.put4_alive h n) fun _ => finishOp_eq htakes

theorem delivers_register {op : Opcode} (htakes : op.Takes .register) (reg : UInt16) :
    Delivers (register op reg) (registerBytes op reg) op.effect := by
  unfold register registerBytes
  split
  · exact delivers_wide (fun _ h => Code.put2_alive h reg) fun _ => finishOp_eq htakes
  · exact delivers_of (fun _ h => Code.put1_alive h _) fun _ => finishOp_eq htakes

/-- An effect that does not stand in the table. -/
theorem effect_alive_eq {e : Effect} (c : Code) (halive : c.alive = true)
    (hneeds : e.needs ≤ c.frame.depth) :
    (do if (← get).alive then effect e : Emit Unit) c = .ok () (c.applyEffect e) := by
  refine EStateM.bind_eq_ok.mpr ⟨c, c, rfl, ?_⟩
  rw [if_pos halive]
  exact effect_eq hneeds

theorem delivers_ldc (index : UInt16) (k : Kind) :
    Delivers (ldc index k) (#[ldcOp index k] ++ ldcBytes index k) (.trade 0 k) := by
  unfold ldc ldcOp ldcBytes
  by_cases hk : k = .long ∨ k = .double
  · simp only [hk, if_true]
    exact delivers_of (fun _ h => Code.put2_alive h _) effect_alive_eq
  · simp only [hk, if_false]
    split
    · exact delivers_of (fun _ h => Code.put1_alive h _) effect_alive_eq
    · exact delivers_of (fun _ h => Code.put2_alive h _) effect_alive_eq

/-- A variable whose values are integers. -/
theorem delivers_onRegister {family short : Opcode} {k : Kind} {reg : UInt16} {e : Effect}
    (hk : k.widen = .int) (hfamily : family.Takes .register ∧ family.effect = e)
    (hshort : ∀ r < 4, (short + UInt8.ofNat r).Takes .plain ∧ (short + UInt8.ofNat r).effect = e) :
    Delivers (Item.onRegister family short k reg) (localBytes family short reg) e := by
  have hbase : family + Kind.int.code = family ∧ short + Kind.int.code * 4 = short :=
    ⟨UInt8.add_zero family, UInt8.add_zero short⟩
  unfold Item.onRegister localBytes
  dsimp only
  rw [hk, hbase.1, hbase.2]
  split
  · rename_i hreg
    have hlt : reg.toNat < 4 := Nat.lt_succ_of_le (UInt16.le_iff_toNat_le.mp hreg)
    obtain ⟨htakes, he⟩ := hshort _ hlt
    have hbyte : UInt8.ofNat reg.toNat = reg.toUInt8 := rfl
    rw [hbyte] at htakes he
    rw [← he]
    exact delivers_plain htakes
  · rw [← hfamily.2]
    exact delivers_register hfamily.1 reg

end Emit

/-! ### Code with one more instruction -/

namespace Fits

variable {wide : Bool} {L : Plan} {bs enc : Array UInt8} {n : ℕ} {p : Program}

theorem take {n' : ℕ} (h : Fits wide L bs n p) (hn : n' ≤ n) : Fits wide L bs n' p where
  size := hn.trans h.size
  same := fun i hi => h.same i (by omega)
  leads := fun o ho hlt => h.leads o ho (by omega)

/-- The program holds the bytes that come behind all open branches. -/
theorem append (h : Fits wide L (bs ++ enc) (bs.size + enc.size) p)
    (hbefore : ∀ o ∈ L, o.1.pc + branchSize wide ≤ bs.size) :
    Fits wide L bs bs.size p ∧ Holds p.bytes bs.size enc := by
  refine ⟨(h.take (Nat.le_add_right _ _)).of_agree (Agree.append bs enc 0).symm, fun i hi => ?_⟩
  rw [h.same _ (by omega) fun o ho => .inr ((hbefore o ho).trans (Nat.le_add_right _ _)),
    Array.getElem?_append_right (Nat.le_add_right _ _), Nat.add_sub_cancel_left]

end Fits

namespace Code

/-- The bytes `enc` of an instruction have come to stand at `q`. -/
structure Gains (c c' : Code) (q : ℕ) (enc : Array UInt8) (O : List Link) (d : ℕ)
    (locks : List UInt16) : Prop where
  onward : Onward c c'
  ready : c'.Ready O d locks
  pending : c'.pending = []
  size : c'.pc = q + enc.size
  frame : c'.frame.Has d locks
  here : c.alive = true → c.pc = q
  back : ∀ {H : Plan} {p : Program} {g : ℕ}, H.Over O → c'.Becomes H p g → c.Becomes H p q ∧
    Holds p.bytes q enc

theorem locks_applyEffect (c : Code) (e : Effect) :
    (c.applyEffect e).frame.locks = c.frame.locks := by
  cases e with
  | trade n k => cases k <;> rfl
  | _ => rfl

/-- What an instruction leaves of the code, apart from its bytes. -/
theorem onward_write (c : Code) (enc : Array UInt8) (e : Effect) :
    Onward c ((c.markLine.written enc).applyEffect e) := by
  obtain ⟨line, lines, heq, -⟩ := c.markLine_eq
  rw [heq]
  cases e <;> exact ⟨rfl, rfl, rfl, fun _ => rfl⟩

theorem bytes_write (c : Code) (enc : Array UInt8) (e : Effect) :
    ((c.markLine.written enc).applyEffect e).bytes = c.bytes ++ enc := by
  obtain ⟨line, lines, heq, -⟩ := c.markLine_eq
  rw [bytes_applyEffect, heq]
  rfl

theorem pending_write (c : Code) (enc : Array UInt8) (e : Effect) :
    ((c.markLine.written enc).applyEffect e).pending = c.pending := by
  rw [pending_applyEffect]
  exact c.pending_markLine

theorem needsWide_write (c : Code) (enc : Array UInt8) (e : Effect) :
    ((c.markLine.written enc).applyEffect e).needsWide = c.needsWide := by
  obtain ⟨line, lines, heq, -⟩ := c.markLine_eq
  rw [needsWide_applyEffect, heq]
  rfl

theorem alive_write {c : Code} (h : c.alive = true) (enc : Array UInt8) (e : Effect) :
    ((c.markLine.written enc).applyEffect e).alive = e.goesOn := by
  rw [alive_applyEffect]
  show (c.markLine.alive && e.goesOn) = e.goesOn
  rw [alive_markLine, h, Bool.true_and]

theorem frame_write {c : Code} {d : ℕ} {locks : List UInt16} (enc : Array UInt8) {e : Effect}
    (h : c.frame.Has d locks) (hneeds : e.needs ≤ d) :
    ((c.markLine.written enc).applyEffect e).frame.Has (d - e.needs + e.puts) locks := by
  have hframe : (c.markLine.written enc).frame = c.frame := c.frame_markLine
  constructor
  · rw [depth_applyEffect _ _ (by rw [hframe, h.1]; exact hneeds), hframe, h.1]
  · rw [locks_applyEffect, hframe, h.2]

end Code

/-- An instruction that is not a branch. -/
theorem Emit.Delivers.gains {x : Emit Unit} {enc : Array UInt8} {e : Effect} (hx : Delivers x enc e)
    (henc : 0 < enc.size) {c : Code} {O : List Link} {d : ℕ} {locks : List UInt16}
    (h : c.Ready O d locks) (hlive : c.reachable = true) (hneeds : e.needs ≤ d) :
    ∃ q c', x c = .ok () c' ∧ c.Gains c' q enc O (d - e.needs + e.puts) locks ∧
      c'.alive = e.goesOn := by
  obtain ⟨c₁, hflush, hf⟩ := resolvePending_flushed h
  have halive : c₁.alive = true := hf.alive.trans hlive
  have hframe := hf.level halive
  obtain ⟨c', hc'⟩ : ∃ c', c' = (c₁.markLine.written enc).applyEffect e := ⟨_, rfl⟩
  have honward : c.Onward c' := hf.onward.trans (by rw [hc']; exact c₁.onward_write enc e)
  have hbytes : c'.bytes = c₁.bytes ++ enc := by rw [hc']; exact c₁.bytes_write enc e
  have hsize : c'.pc = c₁.pc + enc.size := by
    unfold Code.pc
    rw [hbytes, Array.size_append]
  have hpending : c'.pending = [] := by rw [hc', c₁.pending_write, hf.pending]
  have hframe' : c'.frame.Has (d - e.needs + e.puts) locks := by
    rw [hc']
    exact Code.frame_write enc hframe hneeds
  -- the open branches end before the instruction, so none of them is a trailing `goto`
  have hfirm : ∀ l ∈ O, ¬ c'.Dangling l.pc := by
    intro l hl hloose
    have := hf.within l hl
    have := hloose.ends
    have := three_le_branchSize c.wide
    omega
  refine ⟨c₁.pc, c', ?_, ?_, ?_⟩
  · rw [hc']
    exact hx c c₁ hflush halive (by rw [hframe.1]; exact hneeds)
  · constructor
    case onward => exact honward
    case pending => exact hpending
    case size => exact hsize
    case frame => exact hframe'
    case here => exact fun hc => (hf.stays hc).symm
    case ready =>
      constructor
      case apart => rw [hpending, honward.wide]; exact h.held
      case within =>
        rw [hpending, honward.wide]
        exact fun l hl => by have := hf.within l hl; omega
      case firm => rw [hpending]; exact fun _ => hfirm
      case loose => rw [hpending]; exact fun l hl hloose => absurd hloose (hfirm l hl)
      case level => exact fun _ => hframe'
      case joins => rw [hpending]; exact fun l hl => by cases hl
    case back =>
      rintro H p g hover ⟨⟨n, hstays, hfits⟩, hnarrow, hshort⟩
      rw [hpending, Chain.toward_nil, Set.empty_union, honward.wide, hbytes] at hfits
      rw [hpending, Chain.toward_nil, Set.empty_union] at hstays
      have hn : n = c₁.bytes.size + enc.size := by
        rcases hstays with hn | ⟨hloose, o, ho, hpc, -⟩
        · exact hn.trans hsize
        · exact absurd (hpc ▸ hloose) (hfirm o.1 (hover o ho))
      rw [hn] at hfits
      obtain ⟨hfits, hold⟩ := hfits.append fun o ho => hf.within o.1 (hover o ho)
      refine ⟨hf.back hover hfits ?_ hshort, hold⟩
      rw [← hnarrow, hc', c₁.needsWide_write]
  · rw [hc']
    exact Code.alive_write halive enc e

end StackCode
