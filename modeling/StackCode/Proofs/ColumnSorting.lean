import StackCode.Proofs.KeySorting

/-!
# Sorting keys and targets in two columns

`sortColumns?` is the sorting of `sortKeys` as a procedure on a column of keys and a column of
targets, in which nothing is tested but the keys: the scans run on until a key stops them, and
either part that a pivot leaves is sorted, whatever its length. A position outside of a column stops
the procedure without an answer, and so does a part that is not shorter than what it is a part of,
on which the procedure would go on without end. That it answers therefore says that it ends and that
it never leaves the columns.

Each procedure is compared with its counterpart on pairs, on the columns of an array of pairs. What
the guards of the latter rest on is known from the keys: a scan up needs a key ahead that is not
below the pivot, a scan down one behind that is not above it.
-/

namespace StackCode

/-- A column of keys and a column of targets. -/
abbrev Columns := Array Int32 × Array Int32

namespace KeySort

/-! ### The procedure -/

/-- Exchanges two entries, both of which must exist. -/
def swap? (xs : Array Int32) (i j : ℕ) : Option (Array Int32) :=
  if h : i < xs.size ∧ j < xs.size then some (xs.swap i j h.1 h.2) else none

def pivot? (keys : Array Int32) (lo hi : ℕ) : Option Int32 := do
  let x ← keys[lo]?
  let y ← keys[lo + (hi - 1 - lo) / 2]?
  let z ← keys[hi - 1]?
  if decide (x ≤ y) = decide (y ≤ z) then some y
  else if decide (y ≤ x) = decide (x ≤ z) then some x
  else some z

def scanUp? (keys : Array Int32) (p : Int32) (i : ℕ) : Option ℕ :=
  if h : i < keys.size then
    if keys[i] < p then scanUp? keys p (i + 1) else some i
  else none
termination_by keys.size - i

/-- In front of the first key there is none to compare. -/
def scanDown? (keys : Array Int32) (p : Int32) : ℕ → Option ℕ
  | 0 => none
  | e + 1 => do if p < (← keys[e]?) then scanDown? keys p e else some (e + 1)

def partition? (cols : Columns) (p : Int32) (i e : ℕ) : Option (Columns × ℕ × ℕ) := do
  let i' ← scanUp? cols.1 p i
  let e' ← scanDown? cols.1 p e
  if i' < e' then
    let keys ← swap? cols.1 i' (e' - 1)
    let targets ← swap? cols.2 i' (e' - 1)
    if i' + 1 < e' - 1 then
      if e' - i' ≤ e - i then partition? (keys, targets) p (i' + 1) (e' - 1) else none
    else some ((keys, targets), i' + 1, e' - 1)
  else some (cols, i', e')
termination_by e - i

def sortSegment? (cols : Columns) (lo hi : ℕ) : Option Columns := do
  let p ← pivot? cols.1 lo hi
  let (cols, i, e) ← partition? cols p lo hi
  let cols ← (if lo + 1 < e then if e < hi then sortSegment? cols lo e else none else some cols)
  if i + 1 < hi then if lo < i then sortSegment? cols i hi else none else some cols
termination_by hi - lo

end KeySort

/-- Sorts both columns by key. -/
def sortColumns? (cols : Columns) : Option Columns :=
  if 1 < cols.1.size then KeySort.sortSegment? cols 0 cols.1.size else some cols

namespace KeySort

variable {a : Array KeyTarget} {p : Int32} {lo hi i e k : ℕ}

/-- The columns of an array of pairs. -/
def columns (a : Array KeyTarget) : Columns := (a.map Prod.fst, a.map Prod.snd)

theorem columns_zip {keys targets : Array Int32} (h : keys.size = targets.size) :
    columns (keys.zip targets) = (keys, targets) := by
  refine Prod.ext (Array.map_fst_zip (Nat.le_of_eq h)) (Array.map_snd_zip (Nat.le_of_eq h.symm))

theorem zip_columns (a : Array KeyTarget) : (columns a).1.zip (columns a).2 = a := by
  ext k hk hk'
  · simp [columns]
  · simp [columns]
  · simp [columns]

theorem getElem?_columns (h : k < a.size) : (columns a).1[k]? = some (keyAt a k) := by
  simp [columns, keyAt, h]

/-! ### One procedure after the other -/

theorem swap?_map (f : KeyTarget → Int32) (hi : i < a.size) (he : e < a.size) :
    swap? (a.map f) i e = some ((a.swapIfInBounds i e).map f) := by
  rw [swap?, dif_pos (by simpa using ⟨hi, he⟩), Array.swapIfInBounds, dif_pos hi, dif_pos he]
  congr 1
  ext k hk hk'
  · simp
  · simp only [Array.getElem_swap, Array.getElem_map]
    split
    · rfl
    · split <;> rfl

theorem pivot?_columns (hlt : lo < hi) (hsize : hi ≤ a.size) :
    pivot? (columns a).1 lo hi = some (pivot a lo hi) := by
  have hfirst := getElem?_columns (a := a) (k := lo) (by omega)
  have hmiddle := getElem?_columns (a := a) (k := lo + (hi - 1 - lo) / 2) (by omega)
  have hlast := getElem?_columns (a := a) (k := hi - 1) (by omega)
  simp only [pivot?, pivot, hfirst, hmiddle, hlast, Option.bind_eq_bind, Option.bind_some]
  split
  · rfl
  · split <;> rfl

theorem scanUp?_step (h : i < a.size) : scanUp? (columns a).1 p i =
    if keyAt a i < p then scanUp? (columns a).1 p (i + 1) else some i := by
  have hkey : (columns a).1[i]? = some (keyAt a i) := getElem?_columns h
  obtain ⟨hlt, hget⟩ := Array.getElem?_eq_some_iff.mp hkey
  rw [scanUp?, dif_pos hlt, hget]

/-- A key ahead that is not below the pivot stops the scan. -/
theorem scanUp?_columns (h : ∃ q, i ≤ q ∧ q < a.size ∧ p ≤ keyAt a q) :
    scanUp? (columns a).1 p i = some (scanUp a p i) := by
  obtain ⟨q, hq, hsize, hkey⟩ := h
  fun_induction scanUp a p i with
  | case1 i hi ih =>
      have hne : i ≠ q := fun heq => Int32.not_lt.mpr hkey (heq ▸ hi.2)
      rw [scanUp?_step hi.1, ← ih (by omega)]
      exact if_pos hi.2
  | case2 i hi =>
      have hlt : i < a.size := by omega
      rw [scanUp?_step hlt]
      exact if_neg fun hbelow => hi ⟨hlt, hbelow⟩

/-- A key behind that is not above the pivot stops the scan. -/
theorem scanDown?_columns (hsize : e ≤ a.size) (h : ∃ q, q < e ∧ keyAt a q ≤ p) :
    scanDown? (columns a).1 p e = some (scanDown a p e) := by
  obtain ⟨q, hq, hkey⟩ := h
  induction e with
  | zero => omega
  | succ e ih =>
      rw [scanDown?, getElem?_columns hsize]
      by_cases habove : p < keyAt a e
      · have hne : q ≠ e := fun heq => Int32.not_lt.mpr hkey (heq ▸ habove)
        rw [scanDown, if_pos habove, ← ih (by omega) (by omega)]
        exact if_pos habove
      · rw [scanDown, if_neg habove]
        exact if_neg habove

/-- One round, of which both scans come to a stop. -/
theorem partition?_round (hsize : e ≤ a.size) (hup : ∃ q, i ≤ q ∧ q < a.size ∧ p ≤ keyAt a q)
    (hdown : ∃ q, q < e ∧ keyAt a q ≤ p) :
    partition? (columns a) p i e =
      let i' := scanUp a p i
      let e' := scanDown a p e
      let b := a.swapIfInBounds i' (e' - 1)
      if i' < e' then
        if i' + 1 < e' - 1 then partition? (columns b) p (i' + 1) (e' - 1)
        else some (columns b, i' + 1, e' - 1)
      else some (columns a, i', e') := by
  have hi := le_scanUp a p i
  have he := scanDown_le a p e
  have hshorter : scanDown a p e - scanUp a p i ≤ e - i := by omega
  rw [partition?, scanUp?_columns hup, scanDown?_columns hsize hdown]
  simp only [Option.bind_eq_bind, Option.bind_some]
  split
  · have hswap (f : KeyTarget → Int32) := swap?_map f (a := a) (i := scanUp a p i)
      (e := scanDown a p e - 1) (by omega) (by omega)
    simp only [columns, hswap, Option.bind_some]
  · rfl

/-- At first the pivot stops both scans, and then the pair that was exchanged last. -/
theorem partition?_columns (hlo : lo ≤ i) (hhi : e ≤ hi) (hsize : hi ≤ a.size)
    (hsplit : Split a p lo i e hi) (hup : ∃ q, i ≤ q ∧ q < hi ∧ p ≤ keyAt a q)
    (hdown : ∃ q, lo ≤ q ∧ q < e ∧ keyAt a q ≤ p) :
    partition? (columns a) p i e =
      some (columns (partition a p i e).1, (partition a p i e).2) := by
  have hround := partition?_round (i := i) (Nat.le_trans hhi hsize)
    (hup.imp fun q h => ⟨h.1, Nat.lt_of_lt_of_le h.2.1 hsize, h.2.2⟩) (hdown.imp fun q h => h.2)
  fun_induction partition a p i e with
  | case1 a i e i' e' hlt b hgo ih =>
      have hi' : i ≤ i' := le_scanUp a p i
      have he' : e' ≤ e := scanDown_le a p e
      have hb : Split b p lo (i' + 1) (e' - 1) hi := hsplit.swap (by omega) (by omega) hlt hsize
      have hbsize : b.size = a.size := Array.size_swapIfInBounds
      have hupper : p ≤ keyAt b (e' - 1) := hb.upper _ (Nat.le_refl _) (by omega)
      have hlower : keyAt b i' ≤ p := hb.lower _ (by omega) (by omega)
      rw [hround]
      simp only
      rw [if_pos hlt, if_pos hgo]
      exact ih (by omega) (by omega) (by omega) hb ⟨e' - 1, by omega, by omega, hupper⟩
        ⟨i', by omega, by omega, hlower⟩ (partition?_round (by omega)
          ⟨e' - 1, by omega, by omega, hupper⟩ ⟨i', by omega, hlower⟩)
  | case2 a i e i' e' hlt b hgo =>
      rw [hround]
      simp only
      rw [if_pos hlt, if_neg hgo]
  | case3 a i e i' e' hge =>
      rw [hround]
      simp only
      rw [if_neg hge]

/-- The pivot leaves shorter parts, so no part needs to be tested for it. -/
theorem sortSegment?_columns (hlt : lo < hi) (hsize : hi ≤ a.size) :
    sortSegment? (columns a) lo hi = some (columns (sortSegment a lo hi)) := by
  induction hn : hi - lo using Nat.strong_induction_on generalizing a lo hi with
  | h n ih =>
    subst hn
    obtain ⟨q, hq, hq', hkey⟩ := pivot_mem (a := a) hlt
    have hsplit : Split a (pivot a lo hi) lo lo hi hi :=
      ⟨fun k _ _ => by omega, fun k _ _ => by omega⟩
    have hup : ∃ q, lo ≤ q ∧ q < hi ∧ pivot a lo hi ≤ keyAt a q :=
      ⟨q, hq, hq', hkey ▸ Int32.le_refl _⟩
    have hdown : ∃ q, lo ≤ q ∧ q < hi ∧ keyAt a q ≤ pivot a lo hi :=
      ⟨q, hq, hq', hkey ▸ Int32.le_refl _⟩
    have hparted := partition_parted (Nat.le_refl _) (Nat.le_refl _) hsize hsplit hup hdown
    have hshrinks := partition_shrinks hq hq' hkey
    rw [sortSegment?, sortSegment, pivot?_columns hlt hsize]
    simp only [Option.bind_eq_bind, Option.bind_some]
    rw [partition?_columns (Nat.le_refl _) (Nat.le_refl _) hsize hsplit hup hdown]
    generalize partition a (pivot a lo hi) lo hi = r at hparted hshrinks
    obtain ⟨b, i, e⟩ := r
    have hbsize : b.size = a.size := hparted.size
    obtain ⟨hbegins, hends⟩ := And.intro hparted.begins hparted.ends
    simp only [Option.bind_some] at hbegins hends hshrinks ⊢
    have hlower : (if lo + 1 < e then if e < hi then sortSegment? (columns b) lo e else none
          else some (columns b)) =
        some (columns (if lo + 1 < e ∧ e < hi then sortSegment b lo e else b)) := by
      split
      · rw [if_pos hshrinks.2, ih (e - lo) (by omega) (by omega) (by omega) rfl, if_pos (by omega)]
      · rw [if_neg (by omega)]
    have hsizelower : (if lo + 1 < e ∧ e < hi then sortSegment b lo e else b).size = a.size := by
      split
      · rw [(sortSegment_sorted (by omega) (by omega)).1.size, hbsize]
      · exact hbsize
    rw [hlower]
    generalize (if lo + 1 < e ∧ e < hi then sortSegment b lo e else b) = c at hsizelower
    simp only [Option.bind_some]
    split
    · rw [if_pos hshrinks.1, ih (hi - i) (by omega) (by omega) (by omega) rfl, if_pos (by omega)]
    · rw [if_neg (by omega)]

end KeySort

open KeySort in
theorem sortColumns?_columns (a : Array KeyTarget) :
    sortColumns? (columns a) = some (columns (sortKeys a)) := by
  have hsize : (columns a).1.size = a.size := Array.size_map
  rw [sortColumns?, sortKeys, hsize]
  split
  · exact sortSegment?_columns (by omega) (Nat.le_refl _)
  · rfl

/-- Columns of the same length are sorted to an end, within the columns: the keys are ascending,
every target has stayed with its key, and the pairs are those that `sortKeys` gives. -/
theorem sortColumns_sorts (keys targets : Array Int32) (h : keys.size = targets.size) :
    ∃ keys' targets', sortColumns? (keys, targets) = some (keys', targets') ∧
      keys'.size = keys.size ∧ targets'.size = keys.size ∧
      keys'.zip targets' = sortKeys (keys.zip targets) ∧
      keys'.toList.Pairwise (· ≤ ·) ∧
      (keys'.zip targets').toList.Perm (keys.zip targets).toList := by
  have hperm := sortKeys_perm (keys.zip targets)
  have hrun := KeySort.columns_zip h ▸ sortColumns?_columns (keys.zip targets)
  generalize hb : sortKeys (keys.zip targets) = b at hrun hperm
  have hsize : b.size = keys.size := by simpa [h] using hperm.length_eq
  have hzip : (b.map Prod.fst).zip (b.map Prod.snd) = b := KeySort.zip_columns b
  refine ⟨b.map Prod.fst, b.map Prod.snd, hrun, ?_, ?_, hzip, ?_, hzip.symm ▸ hperm⟩
  · rw [Array.size_map, hsize]
  · rw [Array.size_map, hsize]
  · rw [Array.toList_map, List.pairwise_map, ← hb]
    exact sortKeys_sorted _

/-- Columns with a key that occurs twice. -/
theorem sortColumns_sorts_twins :
    ∃ keys targets, sortColumns? (#[3, -1, 3, 0], #[10, 20, 30, 40]) = some (keys, targets) ∧
      keys.size = 4 ∧ targets.size = 4 ∧
      keys.zip targets = sortKeys #[(3, 10), (-1, 20), (3, 30), (0, 40)] ∧
      keys.toList.Pairwise (· ≤ ·) ∧
      (keys.zip targets).toList.Perm [(3, 10), (-1, 20), (3, 30), (0, 40)] := by
  have hzip : (#[3, -1, 3, 0] : Array Int32).zip (#[10, 20, 30, 40] : Array Int32) =
      #[(3, 10), (-1, 20), (3, 30), (0, 40)] := by simp
  have h := sortColumns_sorts #[3, -1, 3, 0] #[10, 20, 30, 40] rfl
  rw [hzip] at h
  exact h

end StackCode
