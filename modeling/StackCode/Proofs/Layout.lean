import StackCode.Proofs.Bytes

/-!
# Instructions in the bytes

What the bytes at a position have to be for an instruction to be read there, form by
form: an opcode that tells its length, the wide prefix, and the two tables of a switch.
-/

namespace StackCode

namespace Instruction

theorem decodeAt_eq_ok {a : Array UInt8} {pc : Nat} {i : Instruction} :
    decodeAt a pc = .ok i ↔
      ∃ op n w, shapeAt a pc = .ok (op, n, w) ∧ pc + n ≤ a.size ∧ i = ⟨pc, op, n, w⟩ := by
  unfold decodeAt
  rw [Except.bind_eq_ok]
  constructor
  · rintro ⟨⟨op, n, w⟩, hshape, hrest⟩
    by_cases hsize : a.size < pc + n
    · simp [hsize, bind, Except.bind, throw, throwThe, MonadExceptOf.throw] at hrest
    · simp only [hsize, if_false] at hrest
      cases hrest
      exact ⟨op, n, w, hshape, by omega, rfl⟩
  · rintro ⟨op, n, w, hshape, hsize, rfl⟩
    refine ⟨(op, n, w), hshape, ?_⟩
    simp only [show ¬ a.size < pc + n by omega, if_false]
    rfl

theorem not_variable_of_length {op : Opcode} {n : Nat} (h : op.length? = some (n + 1)) :
    op ≠ .wide ∧ op ≠ .tableswitch ∧ op ≠ .lookupswitch := by
  have hw : Opcode.wide.length? = some 0 := by decide +kernel
  have ht : Opcode.tableswitch.length? = some 0 := by decide +kernel
  have hl : Opcode.lookupswitch.length? = some 0 := by decide +kernel
  refine ⟨?_, ?_, ?_⟩ <;> rintro rfl <;> simp_all

/-- The shape of an instruction whose length its opcode tells. -/
theorem shapeAt_of_length {a : Array UInt8} {pc n : Nat} {op : Opcode} (hop : a[pc]? = some op)
    (hn : op.length? = some (n + 1)) : shapeAt a pc = .ok (op, n + 1, false) := by
  obtain ⟨hw, ht, hl⟩ := not_variable_of_length hn
  unfold shapeAt
  rw [byteAt_eq_ok.mpr hop]
  simp only [bind, Except.bind, hw, ht, hl, if_false, hn]
  rfl

/-- The shape of an instruction behind a wide prefix. -/
theorem shapeAt_of_wide {a : Array UInt8} {pc : Nat} {op : Opcode} (hw : a[pc]? = some Opcode.wide)
    (hop : a[pc + 1]? = some op) :
    shapeAt a pc = .ok (op, if op = .iinc then 6 else 4, true) := by
  unfold shapeAt
  rw [byteAt_eq_ok.mpr hw, byteAt_eq_ok.mpr hop]
  simp only [bind, Except.bind, if_true]
  rfl

theorem shapeAt_of_table {a : Array UInt8} {pc : Nat} {lo hi : Int}
    (hop : a[pc]? = some Opcode.tableswitch) (hlo : intAt a (switchBase pc + 4) = .ok lo)
    (hhi : intAt a (switchBase pc + 8) = .ok hi) (hle : lo ≤ hi) :
    shapeAt a pc =
      .ok (.tableswitch, switchBase pc - pc + 12 + 4 * (hi - lo + 1).toNat, false) := by
  unfold shapeAt
  rw [byteAt_eq_ok.mpr hop]
  simp only [bind, Except.bind, hlo, hhi, show ¬ hi < lo by omega,
    show ¬ Opcode.tableswitch = Opcode.wide by decide, if_false, if_true]
  rfl

theorem shapeAt_of_pairs {a : Array UInt8} {pc : Nat} {pairs : Int}
    (hop : a[pc]? = some Opcode.lookupswitch) (hpairs : intAt a (switchBase pc + 4) = .ok pairs)
    (hle : 0 ≤ pairs) :
    shapeAt a pc = .ok (.lookupswitch, switchBase pc - pc + 8 + 8 * pairs.toNat, false) := by
  unfold shapeAt
  rw [byteAt_eq_ok.mpr hop]
  simp only [bind, Except.bind, hpairs, show ¬ pairs < 0 by omega,
    show ¬ Opcode.lookupswitch = Opcode.wide by decide,
    show ¬ Opcode.lookupswitch = Opcode.tableswitch by decide, if_false, if_true]
  rfl

/-- What the bytes of an instruction are, by its form. -/
theorem shapeAt_cases {a : Array UInt8} {pc n : Nat} {op : Opcode} {w : Bool}
    (h : shapeAt a pc = .ok (op, n, w)) :
    (a[pc]? = some Opcode.wide ∧ a[pc + 1]? = some op ∧
      n = (if op = .iinc then 6 else 4) ∧ w = true) ∨
    (a[pc]? = some op ∧ op = .tableswitch ∧ w = false ∧ ∃ lo hi,
      intAt a (switchBase pc + 4) = .ok lo ∧ intAt a (switchBase pc + 8) = .ok hi ∧ lo ≤ hi ∧
        n = switchBase pc - pc + 12 + 4 * (hi - lo + 1).toNat) ∨
    (a[pc]? = some op ∧ op = .lookupswitch ∧ w = false ∧ ∃ pairs,
      intAt a (switchBase pc + 4) = .ok pairs ∧ 0 ≤ pairs ∧
        n = switchBase pc - pc + 8 + 8 * pairs.toNat) ∨
    (a[pc]? = some op ∧ w = false ∧ op.length? = some n ∧ 0 < n) := by
  unfold shapeAt at h
  obtain ⟨b, hb, h⟩ := Except.bind_eq_ok.mp h
  rw [byteAt_eq_ok] at hb
  split at h
  · rename_i hwide
    obtain ⟨m, hm, h⟩ := Except.bind_eq_ok.mp h
    rw [byteAt_eq_ok] at hm
    cases h
    exact .inl ⟨hwide ▸ hb, hm, rfl, rfl⟩
  · split at h
    · rename_i htable
      obtain ⟨lo, hlo, h⟩ := Except.bind_eq_ok.mp h
      obtain ⟨hi, hhi, h⟩ := Except.bind_eq_ok.mp h
      split at h
      · exact absurd h (by simp [throw, throwThe, MonadExceptOf.throw, bind, Except.bind])
      · cases h
        exact .inr (.inl ⟨hb, htable, rfl, lo, hi, hlo, hhi, by omega, rfl⟩)
    · split at h
      · rename_i hlookup
        obtain ⟨pairs, hpairs, h⟩ := Except.bind_eq_ok.mp h
        split at h
        · exact absurd h (by simp [throw, throwThe, MonadExceptOf.throw, bind, Except.bind])
        · cases h
          exact .inr (.inr (.inl ⟨hb, hlookup, rfl, pairs, hpairs, by omega, rfl⟩))
      · split at h
        · rename_i n hn
          cases h
          exact .inr (.inr (.inr ⟨hb, rfl, hn, Nat.succ_pos _⟩))
        · cases h

theorem lt_switchBase (pc : Nat) : pc < switchBase pc := by
  unfold switchBase
  omega

theorem shapeAt_pos {a : Array UInt8} {pc n : Nat} {op : Opcode} {w : Bool}
    (h : shapeAt a pc = .ok (op, n, w)) : 0 < n := by
  rcases shapeAt_cases h with ⟨-, -, hn, -⟩ | ⟨-, -, -, lo, hi, -, -, -, hn⟩ |
    ⟨-, -, -, pairs, -, -, hn⟩ | ⟨-, -, -, hn⟩
  · split at hn <;> omega
  · omega
  · omega
  · exact hn

theorem length_pos_of_decodeAt {a : Array UInt8} {pc : Nat} {i : Instruction}
    (h : decodeAt a pc = .ok i) : 0 < i.length := by
  obtain ⟨op, n, w, hshape, -, rfl⟩ := decodeAt_eq_ok.mp h
  exact shapeAt_pos hshape

theorem le_size_of_decodeAt {a : Array UInt8} {pc : Nat} {i : Instruction}
    (h : decodeAt a pc = .ok i) : pc + i.length ≤ a.size := by
  obtain ⟨op, n, w, -, hsize, rfl⟩ := decodeAt_eq_ok.mp h
  exact hsize

end Instruction

end StackCode
