import Mathlib.Data.List.Induction
import Mathlib.Data.Nat.Init
import StackCode.Proofs.Jumps

/-!
# One program in two layouts

A program that is written once with narrow and once with wide jumps is followed as one list
of segments: plain instructions, which both codes hold byte for byte, switches, branches, and
the places where a trailing `goto` was taken back with narrow jumps and stayed with wide
ones. The list gives each segment a position in either code, `startAt far segs k`, where `far`
says which code is meant.

`Laid far segs bs` says that the bytes `bs` are such a list: each segment stands where it
starts. The offset of a branch is left open, since it is settled later. Code grows by a
segment at its end, loses a trailing `goto`, and stays laid out while offsets and targets are
filled in.
-/

namespace StackCode

open Instruction

namespace Opcode

/-- The bytes of a wide branch in front of its wide `goto`. -/
def lead (op : Opcode) : Nat := if op.isConditional then 3 else 0

theorem widened_ne_goto (op : Opcode) : op.widened ≠ goto := by
  unfold widened
  split <;> decide

theorem lead_le (op : Opcode) : op.lead ≤ 3 := by
  unfold lead
  split <;> omega

end Opcode

/-- A stretch of a program that is written in two layouts. -/
inductive Seg where
  /-- an instruction that is neither a branch nor a switch -/
  | code (op : Opcode) (wide : Bool) (operands : Array UInt8)
  /-- a switch with the words of its table, those of the narrow code first -/
  | table (op : Opcode) (words : List (Int32 × Int32))
  /-- a branch with a state that is level with those in which it arrives -/
  | jump (op : Opcode) (frame : Frame)
  /-- a `goto` that only the wide code still has -/
  | gone
deriving DecidableEq, Inhabited

/-- A word of a table in one of the two codes. -/
def wordOf (far : Bool) (w : Int32 × Int32) : Int32 := if far then w.2 else w.1

namespace Seg

/-- The bytes of a plain instruction. -/
def plainBytes (op : Opcode) (wide : Bool) (operands : Array UInt8) : Array UInt8 :=
  if wide then #[Opcode.wide] ++ (#[op] ++ operands) else #[op] ++ operands

/-- The number of bytes that a segment takes at `pc`. -/
def size (far : Bool) (pc : Nat) : Seg → Nat
  | code op wide operands => (plainBytes op wide operands).size
  | table _ words => switchBase pc - pc + 4 * words.length
  | jump op _ => if far then op.lead + 5 else 3
  | gone => if far then 5 else 0

/-- The segment can be read at `pc`, apart from the offset of a branch. -/
def StandsAt (far : Bool) (bs : Array UInt8) (pc : Nat) : Seg → Prop
  | code op wide operands =>
    ∀ i < (plainBytes op wide operands).size, bs[pc + i]? = (plainBytes op wide operands)[i]?
  | table op words => bs[pc]? = some op ∧
    ∀ i w, words[i]? = some w → intAt bs (switchBase pc + 4 * i) = .ok (wordOf far w).toInt
  | jump op _ =>
    if far then bs[pc + op.lead]? = some op.widened ∧
      (op.isConditional = true → bs[pc]? = some op.negate)
    else bs[pc]? = some op
  | gone => far = true → bs[pc]? = some Opcode.gotoW

/-- Only in the narrow code, and only what was taken back, takes no bytes. -/
theorem size_pos (far : Bool) (pc : Nat) {s : Seg} (h : far = true ∨ s ≠ gone) :
    0 < s.size far pc := by
  cases s with
  | code op wide operands =>
      rw [size, plainBytes]
      split <;> (rw [Array.size_append]; exact Nat.add_pos_left Nat.one_pos _)
  | table op words =>
      have := lt_switchBase pc
      rw [size]
      omega
  | jump op frame =>
      rw [size]
      split <;> omega
  | gone =>
      simp only [ne_eq, not_true_eq_false, or_false] at h
      simp [size, h]

/-- A segment is the bytes that it takes. -/
theorem StandsAt.of_agree {far : Bool} {bs bs' : Array UInt8} {pc : Nat} {s : Seg}
    (h : s.StandsAt far bs pc) (hab : Agree bs bs' pc (pc + s.size far pc)) :
    s.StandsAt far bs' pc := by
  cases s with
  | code op wide operands =>
      intro i hi
      rw [hab (pc + i) (Nat.le_add_right _ _) (Nat.add_lt_add_left hi pc)]
      exact h i hi
  | table op words =>
      have hlt := lt_switchBase pc
      simp only [size] at hab
      refine ⟨?_, fun i w hw => ?_⟩
      · rw [hab pc (Nat.le_refl _) (by omega)]
        exact h.1
      · obtain ⟨hi, -⟩ := List.getElem?_eq_some_iff.mp hw
        rw [intAt_congr (hab.mono (by omega) (by omega))]
        exact h.2 i w hw
  | jump op frame =>
      cases far with
      | false =>
          simp only [size, StandsAt, Bool.false_eq_true, if_false] at hab h ⊢
          rw [hab pc (Nat.le_refl _) (by omega)]
          exact h
      | true =>
          simp only [size, StandsAt, if_true] at hab h ⊢
          refine ⟨?_, fun hop => ?_⟩
          · rw [hab _ (by omega) (by omega)]
            exact h.1
          · rw [hab pc (Nat.le_refl _) (by omega)]
            exact h.2 hop
  | gone =>
      rintro rfl
      rw [hab pc (Nat.le_refl _) (by simp [size])]
      exact h rfl

end Seg

/-! ### Positions -/

/-- The number of bytes that segments take from the start of the code. -/
def extent (far : Bool) (segs : List Seg) : Nat := segs.foldl (fun pc s => pc + s.size far pc) 0

/-- Where the segment at an index starts. -/
def startAt (far : Bool) (segs : List Seg) (k : Nat) : Nat := extent far (segs.take k)

section Positions

variable {far : Bool} {segs segs' : List Seg} {s : Seg} {j k : Nat}

@[simp] theorem extent_nil : extent far [] = 0 := rfl

@[simp] theorem extent_concat :
    extent far (segs ++ [s]) = extent far segs + s.size far (extent far segs) := by
  simp [extent]

@[simp] theorem startAt_length : startAt far segs segs.length = extent far segs := by
  simp [startAt]

theorem startAt_append (h : k ≤ segs.length) :
    startAt far (segs ++ segs') k = startAt far segs k := by
  rw [startAt, List.take_append_of_le_length h, startAt]

/-- A segment ends where the next one starts. -/
theorem startAt_succ (h : segs[k]? = some s) :
    startAt far segs (k + 1) = startAt far segs k + s.size far (startAt far segs k) := by
  rw [startAt, List.take_add_one, h, Option.toList_some, extent_concat, startAt]

theorem startAt_mono (h : j ≤ k) : startAt far segs j ≤ startAt far segs k := by
  induction k, h using Nat.le_induction with
  | base => exact Nat.le_refl _
  | succ k hk ih =>
      refine Nat.le_trans ih ?_
      cases hs : segs[k]? with
      | some s =>
          rw [startAt_succ hs]
          exact Nat.le_add_right _ _
      | none =>
          have hlen := List.getElem?_eq_none_iff.mp hs
          exact Nat.le_of_eq (by
            rw [startAt, startAt, List.take_of_length_le hlen, List.take_of_length_le (by omega)])

theorem startAt_le_extent (k : Nat) : startAt far segs k ≤ extent far segs := by
  by_cases h : k ≤ segs.length
  · rw [← startAt_length]
    exact startAt_mono h
  · exact Nat.le_of_eq (by rw [startAt, List.take_of_length_le (by omega)])

/-- Of two segments, one ends before the other starts. -/
theorem end_le_startAt (far : Bool) (hj : segs[j]? = some s) (h : j < k) :
    startAt far segs j + s.size far (startAt far segs j) ≤ startAt far segs k := by
  rw [← startAt_succ hj]
  exact startAt_mono h

theorem end_le_extent (far : Bool) (hj : segs[j]? = some s) :
    startAt far segs j + s.size far (startAt far segs j) ≤ extent far segs := by
  rw [← startAt_succ hj]
  exact startAt_le_extent _

/-- Positions depend on sizes only. -/
theorem startAt_congr
    (h : segs'.map (fun s pc => s.size far pc) = segs.map fun s pc => s.size far pc) (k : Nat) :
    startAt far segs' k = startAt far segs k := by
  have hfold (l : List Seg) : l.foldl (fun pc s => pc + s.size far pc) 0 =
      (l.map fun s pc => s.size far pc).foldl (fun pc f => pc + f pc) 0 := by
    rw [List.foldl_map]
  rw [startAt, startAt, extent, extent, hfold, hfold, List.map_take, List.map_take, h]

theorem extent_congr
    (h : segs'.map (fun s pc => s.size far pc) = segs.map fun s pc => s.size far pc) :
    extent far segs' = extent far segs := by
  have hlen : segs'.length = segs.length := by simpa using congrArg List.length h
  rw [← startAt_length, ← startAt_length, hlen, startAt_congr h]

/-- A segment may be replaced by one of the same size. -/
theorem map_size_set {s' : Seg} (hs : segs[k]? = some s)
    (hsize : ∀ pc, s'.size far pc = s.size far pc) :
    (segs.set k s').map (fun s pc => s.size far pc) = segs.map fun s pc => s.size far pc := by
  rw [List.map_set]
  refine List.ext_getElem? fun j => ?_
  rw [List.getElem?_set]
  split
  · rename_i hjk
    subst hjk
    rw [List.length_map, if_pos (List.getElem?_eq_some_iff.mp hs).1, List.getElem?_map, hs]
    exact congrArg some (funext hsize)
  · rfl

theorem startAt_set_size {s' : Seg} (hs : segs[k]? = some s)
    (hsize : ∀ pc, s'.size far pc = s.size far pc) (j : Nat) :
    startAt far (segs.set k s') j = startAt far segs j :=
  startAt_congr (map_size_set hs hsize) j

/-- What stands in front of a segment does not depend on it. -/
theorem startAt_set (h : j ≤ k) : startAt far (segs.set k s) j = startAt far segs j := by
  rw [startAt, List.take_set_of_le h, startAt]

/-- The narrow code is not longer than the wide one. -/
theorem extent_le (segs : List Seg) : extent false segs ≤ extent true segs := by
  induction segs using List.reverseRecOn with
  | nil => simp
  | append_singleton segs s ih =>
      rw [extent_concat, extent_concat]
      cases s with
      | code op wide operands =>
          simp only [Seg.size]
          omega
      | table op words =>
          have hnear := lt_switchBase (extent false segs)
          have hfar := lt_switchBase (extent true segs)
          have hbase : switchBase (extent false segs) ≤ switchBase (extent true segs) := by
            unfold switchBase
            omega
          simp only [Seg.size]
          omega
      | jump op frame =>
          simp only [Seg.size, Bool.false_eq_true, if_false, if_true]
          omega
      | gone =>
          simp only [Seg.size, Bool.false_eq_true, if_false, if_true]
          omega

end Positions

/-- The last segment that the narrow code still has. -/
def Trailing (segs : List Seg) (k : Nat) (s : Seg) : Prop :=
  segs[k]? = some s ∧ s ≠ .gone ∧ ∀ j, k < j → ∀ s', segs[j]? = some s' → s' = .gone

namespace Trailing

variable {segs : List Seg} {s : Seg} {k : Nat}

theorem lt (h : Trailing segs k s) : k < segs.length :=
  (List.getElem?_eq_some_iff.mp h.1).1

theorem eq_of_concat {s' : Seg} (h : Trailing (segs ++ [s]) k s') (hs : s ≠ .gone) :
    k = segs.length ∧ s' = s := by
  have hk := h.lt
  rw [List.length_append, List.length_singleton] at hk
  by_cases heq : k = segs.length
  · subst heq
    have := h.1
    simp only [List.getElem?_concat_length, Option.some.injEq] at this
    exact ⟨rfl, this.symm⟩
  · exact absurd (h.2.2 segs.length (by omega) s (by simp)) hs

/-- The narrow code ends where its last segment does. -/
theorem extent_eq (h : Trailing segs k s) :
    extent false segs = startAt false segs k + s.size false (startAt false segs k) := by
  rw [← startAt_succ h.1]
  have hlate (j : Nat) (hj : k < j) (hlen : j ≤ segs.length) :
      startAt false segs j = startAt false segs (k + 1) := by
    induction j, hj using Nat.le_induction with
    | base => rfl
    | succ j hj ih =>
        have hs := List.getElem?_eq_getElem (l := segs) (i := j) (by omega)
        rw [startAt_succ hs, h.2.2 j (by omega) _ hs, ih (by omega)]
        rfl
  rw [← startAt_length]
  exact hlate segs.length h.lt (Nat.le_refl _)

end Trailing

/-- A segment of the narrow code that ends with it is the last one. -/
theorem trailing_of_end {segs : List Seg} {s : Seg} {k : Nat} (hs : segs[k]? = some s)
    (hne : s ≠ .gone)
    (h : startAt false segs k + s.size false (startAt false segs k) = extent false segs) :
    Trailing segs k s := by
  refine ⟨hs, hne, fun j hj s' hs' => ?_⟩
  by_contra hgone
  have hpos := Seg.size_pos false (startAt false segs j) (.inr hgone)
  have hle := end_le_startAt false hs hj
  have hend := end_le_extent false hs'
  omega

/-! ### Layouts -/

/-- The bytes are the segments, one after the other. -/
structure Laid (far : Bool) (segs : List Seg) (bs : Array UInt8) : Prop where
  size : bs.size = extent far segs
  stands : ∀ k (s : Seg), segs[k]? = some s → s.StandsAt far bs (startAt far segs k)

namespace Laid

variable {far : Bool} {segs : List Seg} {bs bs' : Array UInt8} {s : Seg} {k : Nat}

theorem nil (far : Bool) : Laid far [] #[] := ⟨rfl, by simp⟩

/-- The segment at an index stands within the code. -/
theorem end_le (h : Laid far segs bs) (hs : segs[k]? = some s) :
    startAt far segs k + s.size far (startAt far segs k) ≤ bs.size := by
  rw [h.size]
  exact end_le_extent _ hs

/-- A segment is written over by one of the same size. -/
theorem replace (h : Laid far segs bs) (hs : segs[k]? = some s) {s' : Seg}
    (hsize : bs'.size = bs.size) (hsame : ∀ pc, s'.size far pc = s.size far pc)
    (hbefore : Agree bs bs' 0 (startAt far segs k))
    (hafter : Agree bs bs' (startAt far segs k + s.size far (startAt far segs k)) bs.size)
    (hstands : s'.StandsAt far bs' (startAt far segs k)) : Laid far (segs.set k s') bs' := by
  have hmap := map_size_set hs hsame
  refine ⟨by rw [hsize, h.size, extent_congr hmap], fun j t ht => ?_⟩
  rw [startAt_congr hmap]
  rw [List.getElem?_set] at ht
  split at ht
  · rename_i hjk
    subst hjk
    split at ht
    · cases ht
      exact hstands
    · cases ht
  · rename_i hne
    have hj := h.stands j t ht
    rcases Nat.lt_or_gt_of_ne hne with hlt | hlt
    · exact hj.of_agree (hafter.mono (end_le_startAt _ hs hlt) (h.end_le ht))
    · exact hj.of_agree (hbefore.mono (Nat.zero_le _) (end_le_startAt _ ht hlt))

/-- Bytes change within one segment, which stays what it is. -/
theorem rewrite (h : Laid far segs bs) (hs : segs[k]? = some s) (hsize : bs'.size = bs.size)
    (hbefore : Agree bs bs' 0 (startAt far segs k))
    (hafter : Agree bs bs' (startAt far segs k + s.size far (startAt far segs k)) bs.size)
    (hstands : s.StandsAt far bs' (startAt far segs k)) : Laid far segs bs' := by
  have hset : segs.set k s = segs := by
    obtain ⟨hk, rfl⟩ := List.getElem?_eq_some_iff.mp hs
    exact List.set_getElem_self hk
  rw [← hset]
  exact h.replace hs hsize (fun _ => rfl) hbefore hafter hstands

/-- The code grows by a segment. -/
theorem concat (h : Laid far segs bs) {enc : Array UInt8}
    (hsize : enc.size = s.size far bs.size) (hstands : s.StandsAt far (bs ++ enc) bs.size) :
    Laid far (segs ++ [s]) (bs ++ enc) := by
  refine ⟨by rw [Array.size_append, extent_concat, ← h.size, hsize], fun k s' hs' => ?_⟩
  have hk := (List.getElem?_eq_some_iff.mp hs').1
  rw [List.length_append, List.length_singleton] at hk
  rw [startAt_append (by omega)]
  by_cases heq : k = segs.length
  · subst heq
    simp only [List.getElem?_concat_length, Option.some.injEq] at hs'
    rw [startAt_length, ← h.size, ← hs']
    exact hstands
  · rw [List.getElem?_append_left (by omega)] at hs'
    exact (h.stands k s' hs').of_agree ((Agree.append bs enc 0).mono (Nat.zero_le _) (h.end_le hs'))

/-- A segment is replaced by one of the same size. -/
theorem set (h : Laid far segs bs) (hs : segs[k]? = some s) {s' : Seg}
    (hsize : ∀ pc, s'.size far pc = s.size far pc)
    (hstands : s'.StandsAt far bs (startAt far segs k)) : Laid far (segs.set k s') bs :=
  h.replace hs rfl hsize (fun _ _ _ => rfl) (fun _ _ _ => rfl) hstands

/-- A branch of the wide code goes on standing where the narrow code has lost it. -/
theorem lose (h : Laid true segs bs) {frame : Frame} (hs : segs[k]? = some (.jump .goto frame)) :
    Laid true (segs.set k .gone) bs := by
  refine h.set hs (fun pc => rfl) fun _ => ?_
  exact (h.stands k _ hs).1

/-- The narrow code loses its trailing `goto`. -/
theorem drop (h : Laid false segs bs) {frame : Frame} (hs : Trailing segs k (.jump .goto frame)) :
    Laid false (segs.set k .gone) (bs.shrink (bs.size - 3)) := by
  have hend : bs.size = startAt false segs k + 3 := h.size.trans hs.extent_eq
  have hlt := hs.lt
  have hsize : bs.size - 3 = startAt false segs k := by omega
  have hgone (j : Nat) (hj : k ≤ j) (t : Seg) (ht : (segs.set k .gone)[j]? = some t) :
      t = .gone := by
    rw [List.getElem?_set] at ht
    split at ht
    · cases ht
      rfl
    · exact hs.2.2 j (by omega) t ht
  have hextent : extent false (segs.set k .gone) = startAt false segs k := by
    have hlate (j : Nat) (hj : k ≤ j) (hlen : j ≤ segs.length) :
        startAt false (segs.set k .gone) j = startAt false segs k := by
      induction j, hj using Nat.le_induction with
      | base => exact startAt_set (Nat.le_refl _)
      | succ j hj ih =>
          have hs' := List.getElem?_eq_getElem (l := segs.set k .gone) (i := j)
            (by rw [List.length_set]; omega)
          rw [startAt_succ hs', hgone j hj _ hs', ih (by omega)]
          rfl
    rw [← startAt_length, List.length_set]
    exact hlate _ (Nat.le_of_lt hlt) (Nat.le_refl _)
  refine ⟨by rw [Array.size_shrink, hextent]; omega, fun j t ht => ?_⟩
  by_cases hjk : k ≤ j
  · rw [hgone j hjk t ht]
    exact fun hfar => absurd hfar (by decide)
  · rw [List.getElem?_set_ne (by omega)] at ht
    rw [startAt_set (by omega)]
    refine (h.stands j t ht).of_agree ((Agree.shrink bs 0 _).mono (Nat.zero_le _) ?_)
    have := end_le_startAt false ht (show j < k by omega)
    omega

end Laid

/-! ### Settling a branch -/

/-- Where the link of a branch points. -/
def linkAt (far : Bool) (segs : List Seg) (k : Nat) (op : Opcode) : Nat :=
  startAt far segs k + if far then op.lead else 0

theorem Laid.patch {far : Bool} {segs : List Seg} {c : Code} {k : Nat} {op : Opcode} {frame : Frame}
    (h : Laid far segs c.bytes) (hwide : c.wide = far) (hs : segs[k]? = some (.jump op frame))
    (target : Nat) : Laid far segs (c.patch (linkAt far segs k op) target).bytes := by
  have hend := h.end_le hs
  have hstands := h.stands k _ hs
  have hsize := c.size_patch (linkAt far segs k op) target
  cases far with
  | false =>
      simp only [Seg.size, Bool.false_eq_true, if_false] at hend
      simp only [Seg.StandsAt, Bool.false_eq_true, if_false] at hstands
      have hlink : linkAt false segs k op = startAt false segs k := rfl
      rw [hlink] at hsize ⊢
      have hagree {lo hi : Nat}
          (hout : hi ≤ startAt false segs k + 1 ∨ startAt false segs k + 3 ≤ lo) :
          Agree c.bytes (c.patch (startAt false segs k) target).bytes lo hi :=
        c.agree_patch (by rw [hwide]; exact hend) (by rw [hwide]; exact hout)
      refine h.rewrite hs hsize (hagree (.inl (Nat.le_succ _))) (hagree (.inr (Nat.le_refl _))) ?_
      show _ = some op
      rw [hagree (.inl (Nat.le_refl _)) _ (Nat.le_refl _) (Nat.lt_succ_self _)]
      exact hstands
  | true =>
      simp only [Seg.size, if_true] at hend
      simp only [Seg.StandsAt, if_true] at hstands
      have hlink : linkAt true segs k op = startAt true segs k + op.lead := rfl
      rw [hlink] at hsize ⊢
      have hagree {lo hi : Nat}
          (hout : hi ≤ startAt true segs k + op.lead + 1 ∨ startAt true segs k + op.lead + 5 ≤ lo) :
          Agree c.bytes (c.patch (startAt true segs k + op.lead) target).bytes lo hi :=
        c.agree_patch (by rw [hwide]; exact hend) (by rw [hwide]; exact hout)
      refine h.rewrite hs hsize (hagree (.inl (by omega))) (hagree (.inr (Nat.le_refl _))) ⟨?_, ?_⟩
      · rw [hagree (.inl (Nat.le_refl _)) _ (Nat.le_refl _) (Nat.lt_succ_self _)]
        exact hstands.1
      · intro hop
        rw [hagree (.inl (Nat.le_refl _)) _ (Nat.le_refl _) (by omega)]
        exact hstands.2 hop

end StackCode
