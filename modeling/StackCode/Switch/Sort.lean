/-!
# Sorting switch keys

Pairs of a key and a target are sorted by key, in place, by exchanging pairs
around the median of the first, middle and last key. Equal keys may change
places, so the exchanges themselves are part of the result. A segment is
`[lo, hi)`; both parts that a pivot leaves are shorter than the segment.
-/

namespace StackCode

/-- A switch key with its target. -/
abbrev KeyTarget := Int32 × Int32

namespace KeySort

def keyAt (a : Array KeyTarget) (i : Nat) : Int32 := (a.getD i (0, 0)).1

/-- The median of the first, the middle and the last key of `[lo, hi)`. -/
def pivot (a : Array KeyTarget) (lo hi : Nat) : Int32 :=
  let x := keyAt a lo
  let y := keyAt a (lo + (hi - 1 - lo) / 2)
  let z := keyAt a (hi - 1)
  if decide (x ≤ y) = decide (y ≤ z) then y
  else if decide (y ≤ x) = decide (x ≤ z) then x
  else z

/-- The first position from `i` on whose key is not below the pivot. -/
def scanUp (a : Array KeyTarget) (p : Int32) (i : Nat) : Nat :=
  if i < a.size ∧ keyAt a i < p then scanUp a p (i + 1) else i
termination_by a.size - i

/-- The end of the positions below `e` once the keys above the pivot at the end
are left off. -/
def scanDown (a : Array KeyTarget) (p : Int32) : Nat → Nat
  | 0 => 0
  | e + 1 => if p < keyAt a e then scanDown a p e else e + 1

theorem le_scanUp (a : Array KeyTarget) (p : Int32) (i : Nat) : i ≤ scanUp a p i := by
  fun_induction scanUp a p i with
  | case1 i _ ih => omega
  | case2 => exact Nat.le_refl _

theorem scanDown_le (a : Array KeyTarget) (p : Int32) (e : Nat) : scanDown a p e ≤ e := by
  induction e with
  | zero => simp [scanDown]
  | succ e ih =>
    simp only [scanDown]
    split <;> omega

/-- Exchanges pairs of `[i, e)` until no key above the pivot stands before one
below it. The answer says where the upper part begins and the lower part ends. -/
def partition (a : Array KeyTarget) (p : Int32) (i e : Nat) : Array KeyTarget × Nat × Nat :=
  let i' := scanUp a p i
  let e' := scanDown a p e
  if i' < e' then
    let b := a.swapIfInBounds i' (e' - 1)
    if i' + 1 < e' - 1 then partition b p (i' + 1) (e' - 1) else (b, i' + 1, e' - 1)
  else (a, i', e')
termination_by e - i
decreasing_by
  have := le_scanUp a p i
  have := scanDown_le a p e
  omega

/-- Sorts the segment `[lo, hi)`. -/
def sortSegment (a : Array KeyTarget) (lo hi : Nat) : Array KeyTarget :=
  let (a, i, e) := partition a (pivot a lo hi) lo hi
  let a := if lo + 1 < e ∧ e < hi then sortSegment a lo e else a
  if i + 1 < hi ∧ lo < i then sortSegment a i hi else a
termination_by hi - lo

end KeySort

/-- Sorts pairs by key. -/
def sortKeys (pairs : Array KeyTarget) : Array KeyTarget :=
  if 1 < pairs.size then KeySort.sortSegment pairs 0 pairs.size else pairs

end StackCode
