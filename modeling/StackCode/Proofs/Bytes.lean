import StackCode.Code.Basic
import StackCode.Instruction

/-!
# Bytes that are written and read back

Code is written through the buffer operations of `Code` and read back through the
readers of `Instruction`. This module says that the two fit together: a word that
is written reads back as itself, a reader looks at its own bytes only, and an
instruction is determined by the bytes it occupies.

`Agree a b lo hi` is the relation that carries this: two byte sequences that hold
the same bytes from `lo` up to `hi`. Every later argument that code already
written stays what it is goes through it.
-/

namespace StackCode

/-- The two bytes of a word, high byte first. -/
def wordBytes (w : UInt16) : Array UInt8 := #[(w >>> 8).toUInt8, w.toUInt8]

/-- The four bytes of an integer, high byte first. -/
def intBytes (n : Int32) : Array UInt8 :=
  wordBytes (n.toUInt32 >>> 16).toUInt16 ++ wordBytes n.toUInt32.toUInt16

@[simp] theorem size_wordBytes (w : UInt16) : (wordBytes w).size = 2 := rfl

@[simp] theorem size_intBytes (n : Int32) : (intBytes n).size = 4 := rfl

theorem toNat_wordBytes (w : UInt16) :
    (w >>> 8).toUInt8.toNat * 0x100 + w.toUInt8.toNat = w.toNat := by
  have h := w.toNat_lt
  simp only [UInt16.toNat_toUInt8, UInt16.toNat_shiftRight, UInt16.reduceToNat, Nat.reduceMod,
    Nat.shiftRight_eq_div_pow]
  omega

theorem toNat_intBytes (n : UInt32) :
    ((((n >>> 16).toUInt16 >>> 8).toUInt8.toNat * 0x100
        + (n >>> 16).toUInt16.toUInt8.toNat) * 0x100
        + (n.toUInt16 >>> 8).toUInt8.toNat) * 0x100 + n.toUInt16.toUInt8.toNat = n.toNat := by
  have hjoin (h c d : Nat) : (h * 0x100 + c) * 0x100 + d = h * 0x10000 + (c * 0x100 + d) := by
    omega
  have hupper : (n >>> 16).toUInt16.toNat = n.toNat / 0x10000 := by
    simp only [UInt32.toNat_toUInt16, UInt32.toNat_shiftRight, UInt32.reduceToNat, Nat.reduceMod,
      Nat.shiftRight_eq_div_pow]
    have hn : n.toNat < 4294967296 := n.toNat_lt
    omega
  have hlower : n.toUInt16.toNat = n.toNat % 0x10000 := UInt32.toNat_toUInt16 n
  rw [hjoin, toNat_wordBytes, toNat_wordBytes, hupper, hlower]
  exact Nat.div_add_mod' _ _

theorem bmod_toUInt32 (n : Int32) : Int.bmod n.toUInt32.toNat 0x100000000 = n.toInt := by
  rw [Int32.toInt, BitVec.toInt_eq_toNat_bmod]
  rfl

/-- A number of 16 bits reads back as itself. -/
theorem bmod_ofInt {i : Int} (lo : -0x8000 ≤ i) (hi : i < 0x8000) :
    Int.bmod (UInt16.ofInt i).toNat 0x10000 = i := by
  have hword : ((UInt16.ofInt i).toNat : Int) = i % (65536 : Nat) := by
    simp only [UInt16.ofInt, UInt16.toNat_ofNat']
    omega
  rw [hword]
  exact (Int.emod_bmod i 65536).trans (Int.bmod_eq_of_le (by omega) (by omega))

/-! ### Sequences that agree on a stretch -/

/-- Two byte sequences hold the same bytes from `lo` up to `hi`. -/
def Agree (a b : Array UInt8) (lo hi : Nat) : Prop :=
  ∀ k, lo ≤ k → k < hi → b[k]? = a[k]?

namespace Agree

theorem refl (a : Array UInt8) (lo hi : Nat) : Agree a a lo hi := fun _ _ _ => rfl

theorem symm {a b : Array UInt8} {lo hi : Nat} (h : Agree a b lo hi) : Agree b a lo hi :=
  fun k hlo hhi => (h k hlo hhi).symm

theorem trans {a b c : Array UInt8} {lo hi : Nat} (h : Agree a b lo hi) (h' : Agree b c lo hi) :
    Agree a c lo hi :=
  fun k hlo hhi => (h' k hlo hhi).trans (h k hlo hhi)

theorem mono {a b : Array UInt8} {lo hi lo' hi' : Nat} (h : Agree a b lo hi)
    (hlo : lo ≤ lo') (hhi : hi' ≤ hi) : Agree a b lo' hi' :=
  fun k hk hk' => h k (Nat.le_trans hlo hk) (Nat.lt_of_lt_of_le hk' hhi)

theorem append (a b : Array UInt8) (lo : Nat) : Agree a (a ++ b) lo a.size :=
  fun _ _ hk => Array.getElem?_append_left hk

theorem shrink (a : Array UInt8) (lo n : Nat) : Agree a (a.shrink n) lo n := by
  intro k _ hk
  rw [Array.shrink_eq_take, Array.getElem?_extract]
  have hmin : k < min n a.size - 0 ↔ k < a.size := by omega
  by_cases h : k < a.size
  · rw [if_pos (hmin.mpr h), Nat.zero_add]
  · rw [if_neg (fun h' => h (hmin.mp h'))]
    exact (Array.getElem?_eq_none (Nat.le_of_not_lt h)).symm

end Agree

/-! ### Readers -/

theorem Except.bind_eq_ok {α β ε : Type} {x : Except ε α} {f : α → Except ε β} {b : β} :
    (x >>= f) = .ok b ↔ ∃ a, x = .ok a ∧ f a = .ok b := by
  cases x with
  | error e => simp [bind, Except.bind]
  | ok a => simp [bind, Except.bind]

namespace Instruction

theorem byteAt_eq_ok {a : Array UInt8} {pc : Nat} {b : UInt8} :
    byteAt a pc = .ok b ↔ a[pc]? = some b := by
  unfold byteAt
  split <;> simp_all

theorem shortAt_eq {a : Array UInt8} {pc : Nat} {hi lo : UInt8}
    (hhi : a[pc]? = some hi) (hlo : a[pc + 1]? = some lo) :
    shortAt a pc = .ok (Int.bmod (hi.toNat * 0x100 + lo.toNat) 0x10000) := by
  simp only [shortAt, byteAt_eq_ok.mpr hhi, byteAt_eq_ok.mpr hlo]
  rfl

theorem byteAt_congr {a b : Array UInt8} {pc : Nat} (h : Agree a b pc (pc + 1)) :
    byteAt b pc = byteAt a pc := by
  unfold byteAt
  rw [h pc (Nat.le_refl _) (Nat.lt_succ_self _)]

theorem shortAt_congr {a b : Array UInt8} {pc : Nat} (h : Agree a b pc (pc + 2)) :
    shortAt b pc = shortAt a pc := by
  unfold shortAt
  rw [byteAt_congr (h.mono (Nat.le_refl _) (by omega)),
    byteAt_congr (h.mono (Nat.le_add_right _ _) (Nat.le_refl _))]

theorem intAt_congr {a b : Array UInt8} {pc : Nat} (h : Agree a b pc (pc + 4)) :
    intAt b pc = intAt a pc := by
  unfold intAt
  rw [h pc (by omega) (by omega), h (pc + 1) (by omega) (by omega),
    h (pc + 2) (by omega) (by omega),
    h (pc + 3) (by omega) (by omega)]

/-- The word at a place where its two bytes stand. -/
theorem shortAt_wordBytes {a : Array UInt8} {pc : Nat} {w : UInt16}
    (hhi : a[pc]? = some (w >>> 8).toUInt8) (hlo : a[pc + 1]? = some w.toUInt8) :
    shortAt a pc = .ok (Int.bmod w.toNat 0x10000) := by
  rw [shortAt_eq hhi hlo, ← toNat_wordBytes w]
  rfl

/-- The integer at a place where its four bytes stand. -/
theorem intAt_intBytes {a : Array UInt8} {pc : Nat} {n : Int32}
    (h : ∀ k < 4, a[pc + k]? = (intBytes n)[k]?) : intAt a pc = .ok n.toInt := by
  have h0 := h 0 (by omega)
  have h1 := h 1 (by omega)
  have h2 := h 2 (by omega)
  have h3 := h 3 (by omega)
  unfold intAt
  rw [Nat.add_zero] at h0
  rw [h0, h1, h2, h3, ← bmod_toUInt32 n, ← toNat_intBytes n.toUInt32]
  rfl

end Instruction

/-! ### Writers -/

namespace Code

/-- The code with more bytes behind it. -/
def written (c : Code) (bs : Array UInt8) : Code := { c with bytes := c.bytes ++ bs }

@[simp] theorem written_empty (c : Code) : c.written #[] = c := by
  simp [written]

@[simp] theorem written_written (c : Code) (a b : Array UInt8) :
    (c.written a).written b = c.written (a ++ b) := by
  simp [written]

variable {c : Code}

theorem put1_alive (h : c.alive = true) (b : UInt8) : c.put1 b = c.written #[b] := by
  simp [put1, h, written]

theorem put2_alive (h : c.alive = true) (w : UInt16) : c.put2 w = c.written (wordBytes w) := by
  rw [put2, put1_alive h, put1_alive (c := c.written _) h, written_written]
  rfl

theorem put4_alive (h : c.alive = true) (n : Int32) : c.put4 n = c.written (intBytes n) := by
  rw [put4, put2_alive h, put2_alive (c := c.written _) h, written_written]
  rfl

theorem put1_dead (h : c.alive = false) (b : UInt8) : c.put1 b = c := by
  simp [put1, h]

theorem put2_dead (h : c.alive = false) (w : UInt16) : c.put2 w = c := by
  simp [put2, put1_dead h]

theorem put4_dead (h : c.alive = false) (n : Int32) : c.put4 n = c := by
  simp [put4, put2_dead h]

/-- `n` copies of an integer, as bytes. -/
def copies (v : Int32) : Nat → Array UInt8
  | 0 => #[]
  | n + 1 => intBytes v ++ copies v n

theorem fill4_alive (h : c.alive = true) (v : Int32) (n : Nat) :
    c.fill4 v n = c.written (copies v n) := by
  induction n generalizing c with
  | zero => simp [fill4, copies]
  | succ n ih =>
      rw [fill4, put4_alive h, ih (c := c.written _) h, written_written]
      rfl

/-! ### Overwriting -/

/-- The code with other bytes. -/
def withBytes (c : Code) (bs : Array UInt8) : Code := { c with bytes := bs }

@[simp] theorem withBytes_withBytes (c : Code) (a b : Array UInt8) :
    (c.withBytes a).withBytes b = c.withBytes b := rfl

theorem set1_eq (c : Code) (pc : Nat) (b : UInt8) :
    c.set1 pc b = c.withBytes (c.bytes.setIfInBounds pc b) := rfl

/-- Overwriting changes nothing but bytes. -/
theorem set2_eq (c : Code) (pc : Nat) (w : UInt16) : ∃ bs, c.set2 pc w = c.withBytes bs :=
  ⟨_, by rw [set2, set1_eq, set1_eq, withBytes_withBytes]⟩

theorem set4_eq (c : Code) (pc : Nat) (n : Int32) : ∃ bs, c.set4 pc n = c.withBytes bs := by
  obtain ⟨bs, hbs⟩ := c.set2_eq pc (n.toUInt32 >>> 16).toUInt16
  obtain ⟨bs', hbs'⟩ := (c.withBytes bs).set2_eq (pc + 2) n.toUInt32.toUInt16
  exact ⟨bs', by rw [set4, hbs, hbs', withBytes_withBytes]⟩

/-- The bytes after one of them is overwritten. -/
theorem getElem?_set1 (c : Code) (pc : Nat) (b : UInt8) (k : Nat) :
    (c.set1 pc b).bytes[k]? = if pc = k ∧ k < c.bytes.size then some b else c.bytes[k]? := by
  rw [set1, Array.getElem?_setIfInBounds]
  split <;> split <;> simp_all

@[simp] theorem size_set1 (c : Code) (pc : Nat) (b : UInt8) :
    (c.set1 pc b).bytes.size = c.bytes.size := by
  simp [set1]

@[simp] theorem size_set2 (c : Code) (pc : Nat) (w : UInt16) :
    (c.set2 pc w).bytes.size = c.bytes.size := by
  simp [set2]

@[simp] theorem size_set4 (c : Code) (pc : Nat) (n : Int32) :
    (c.set4 pc n).bytes.size = c.bytes.size := by
  simp [set4]

theorem getElem?_set2 (c : Code) (pc : Nat) (w : UInt16) (h : pc + 2 ≤ c.bytes.size) (k : Nat) :
    (c.set2 pc w).bytes[k]? =
      if k = pc then some (w >>> 8).toUInt8
      else if k = pc + 1 then some w.toUInt8
      else c.bytes[k]? := by
  rw [set2, getElem?_set1, getElem?_set1, size_set1]
  grind

theorem getElem?_set4 (c : Code) (pc : Nat) (n : Int32) (h : pc + 4 ≤ c.bytes.size) (k : Nat) :
    (c.set4 pc n).bytes[k]? =
      if pc ≤ k ∧ k < pc + 4 then (intBytes n)[k - pc]? else c.bytes[k]? := by
  rw [set4, getElem?_set2 _ _ _ (by rw [size_set2]; omega), getElem?_set2 _ _ _ (by omega)]
  by_cases hk : pc ≤ k ∧ k < pc + 4
  · obtain ⟨j, rfl⟩ := Nat.exists_eq_add_of_le hk.1
    have hj : j = 0 ∨ j = 1 ∨ j = 2 ∨ j = 3 := by omega
    rcases hj with rfl | rfl | rfl | rfl <;> simp [intBytes, wordBytes, Nat.add_assoc]
  · rw [if_neg hk, if_neg (by omega), if_neg (by omega), if_neg (by omega), if_neg (by omega)]

theorem agree_set2 (c : Code) {pc lo hi : Nat} (w : UInt16) (h : pc + 2 ≤ c.bytes.size)
    (hout : hi ≤ pc ∨ pc + 2 ≤ lo) : Agree c.bytes (c.set2 pc w).bytes lo hi := by
  intro k hlo hhi
  rw [getElem?_set2 c pc w h, if_neg (by omega), if_neg (by omega)]

theorem agree_set4 (c : Code) {pc lo hi : Nat} (n : Int32) (h : pc + 4 ≤ c.bytes.size)
    (hout : hi ≤ pc ∨ pc + 4 ≤ lo) : Agree c.bytes (c.set4 pc n).bytes lo hi := by
  intro k hlo hhi
  rw [getElem?_set4 c pc n h, if_neg (by omega)]

/-- A word that is written over others reads back. -/
theorem shortAt_set2 (c : Code) (pc : Nat) (w : UInt16) (h : pc + 2 ≤ c.bytes.size) :
    Instruction.shortAt (c.set2 pc w).bytes pc = .ok (Int.bmod w.toNat 0x10000) := by
  apply Instruction.shortAt_wordBytes
  · rw [getElem?_set2 c pc w h, if_pos rfl]
  · rw [getElem?_set2 c pc w h, if_neg (by omega), if_pos rfl]

/-- An integer that is written over others reads back. -/
theorem intAt_set4 (c : Code) (pc : Nat) (n : Int32) (h : pc + 4 ≤ c.bytes.size) :
    Instruction.intAt (c.set4 pc n).bytes pc = .ok n.toInt := by
  apply Instruction.intAt_intBytes
  intro k hk
  rw [getElem?_set4 c pc n h, if_pos (by omega), Nat.add_sub_cancel_left]

end Code

end StackCode
