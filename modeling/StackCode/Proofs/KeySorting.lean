import Mathlib.Data.List.Pairwise
import Mathlib.Data.Nat.Init
import Mathlib.Tactic.ByContra
import StackCode.Proofs.SwitchTable

/-!
# Switch keys come out sorted

Pairs are exchanged around the median of three keys, which is itself one of the keys. Therefore
both scans stop within the segment, the first exchange always takes place, and either part that
is left is shorter than the segment. `Split` is what holds between two exchanges: keys in front of
`i` are at most the pivot, keys from `e` on are at least the pivot.

Only keys matter for the order. `Arranged lo hi a b` says that `b` has the keys of `a`, except that
those of `[lo, hi)` may have changed places.
-/

namespace StackCode

namespace KeySort

variable {a b c : Array KeyTarget} {p : Int32} {lo hi i e k q : ℕ}

/-! ### Rearranging a segment -/

/-- The keys of `[lo, hi)` may have changed places, all others are where they were. -/
structure Arranged (lo hi : ℕ) (a b : Array KeyTarget) : Prop where
  size : b.size = a.size
  outside : ∀ k, k < lo ∨ hi ≤ k → keyAt b k = keyAt a k
  inside : ∀ k, lo ≤ k → k < hi → ∃ j, lo ≤ j ∧ j < hi ∧ keyAt b k = keyAt a j

namespace Arranged

theorem refl (lo hi : ℕ) (a : Array KeyTarget) : Arranged lo hi a a :=
  ⟨rfl, fun _ _ => rfl, fun k hlo hhi => ⟨k, hlo, hhi, rfl⟩⟩

theorem trans (h : Arranged lo hi a b) (h' : Arranged lo hi b c) : Arranged lo hi a c := by
  refine ⟨h'.size.trans h.size, fun k hk => (h'.outside k hk).trans (h.outside k hk), ?_⟩
  intro k hlo hhi
  obtain ⟨j, hj, hj', hb⟩ := h'.inside k hlo hhi
  obtain ⟨m, hm, hm', ha⟩ := h.inside j hj hj'
  exact ⟨m, hm, hm', hb.trans ha⟩

/-- A segment within a larger one. -/
theorem widen {lo' hi' : ℕ} (h : Arranged lo' hi' a b) (hlo : lo ≤ lo') (hhi : hi' ≤ hi) :
    Arranged lo hi a b := by
  refine ⟨h.size, fun k hk => h.outside k (by omega), fun k hk hk' => ?_⟩
  by_cases hin : lo' ≤ k ∧ k < hi'
  · obtain ⟨j, hj, hj', heq⟩ := h.inside k hin.1 hin.2
    exact ⟨j, by omega, by omega, heq⟩
  · exact ⟨k, hk, hk', h.outside k (by omega)⟩

/-- What holds of all keys of the segment still does. -/
theorem all {P : Int32 → Prop} (h : Arranged lo hi a b)
    (ha : ∀ k, lo ≤ k → k < hi → P (keyAt a k)) : ∀ k, lo ≤ k → k < hi → P (keyAt b k) := by
  intro k hlo hhi
  obtain ⟨j, hj, hj', heq⟩ := h.inside k hlo hhi
  rw [heq]
  exact ha j hj hj'

end Arranged

theorem keyAt_swap (hi : i < a.size) (he : e < a.size) (k : ℕ) :
    keyAt (a.swapIfInBounds i e) k =
      if k = i then keyAt a e else if k = e then keyAt a i else keyAt a k := by
  have hswap : a.swapIfInBounds i e = a.swap i e := by simp [Array.swapIfInBounds, hi, he]
  simp only [hswap, keyAt, Array.getD_eq_getD_getElem?, Array.getElem?_swap,
    Array.getElem?_eq_getElem hi,
    Array.getElem?_eq_getElem he, eq_comm (b := k)]
  by_cases hke : k = e
  · subst hke
    by_cases hki : k = i
    · subst hki
      simp
    · simp [hki]
  · by_cases hki : k = i
    · subst hki
      simp [hke]
    · simp [hke, hki]

theorem Arranged.swap (hlo : lo ≤ i) (hie : i ≤ e) (hhi : e < hi) (hsize : hi ≤ a.size) :
    Arranged lo hi a (a.swapIfInBounds i e) := by
  have hkey := keyAt_swap (a := a) (i := i) (e := e) (by omega) (by omega)
  refine ⟨by simp, fun k hk => ?_, fun k hk hk' => ?_⟩
  · rw [hkey, if_neg (by omega), if_neg (by omega)]
  · rw [hkey]
    split
    · exact ⟨e, by omega, hhi, rfl⟩
    · split
      · exact ⟨i, hlo, by omega, rfl⟩
      · exact ⟨k, hk, hk', rfl⟩

/-! ### Scanning -/

theorem scanUp_below (hk : i ≤ k) (hk' : k < scanUp a p i) : keyAt a k < p := by
  fun_induction scanUp a p i with
  | case1 i hi ih =>
      rcases Nat.eq_or_lt_of_le hk with rfl | hlt
      · exact hi.2
      · exact ih hlt hk'
  | case2 i hi => omega

/-- The scan stops at the latest where it meets a key that is not below the pivot. -/
theorem scanUp_le (hq : i ≤ q) (hkey : p ≤ keyAt a q) : scanUp a p i ≤ q := by
  by_contra hlt
  exact Int32.not_lt.mpr hkey (scanUp_below hq (by omega))

theorem le_keyAt_scanUp (h : scanUp a p i < a.size) : p ≤ keyAt a (scanUp a p i) := by
  fun_induction scanUp a p i with
  | case1 i hi ih => exact ih h
  | case2 i hi => exact Int32.not_lt.mp fun hlt => hi ⟨h, hlt⟩

theorem scanDown_above (hk : scanDown a p e ≤ k) (hk' : k < e) : p < keyAt a k := by
  induction e with
  | zero => omega
  | succ e ih =>
      simp only [scanDown] at hk
      split at hk
      · rename_i hlast
        rcases Nat.eq_or_lt_of_le (Nat.le_of_lt_succ hk') with rfl | hlt
        · exact hlast
        · exact ih hk hlt
      · omega

theorem lt_scanDown (hq : q < e) (hkey : keyAt a q ≤ p) : q < scanDown a p e := by
  by_contra hle
  exact Int32.not_lt.mpr hkey (scanDown_above (by omega) hq)

theorem keyAt_scanDown_le (h : 0 < scanDown a p e) : keyAt a (scanDown a p e - 1) ≤ p := by
  induction e with
  | zero => simp [scanDown] at h
  | succ e ih =>
      simp only [scanDown] at h ⊢
      split
      · rename_i hlast
        rw [if_pos hlast] at h
        exact ih h
      · rename_i hlast
        exact Int32.not_lt.mp hlast

/-! ### Exchanging around the pivot -/

/-- Of the keys of `[lo, hi)`, those in front of `i` are at most the pivot and those from `e` on
at least the pivot. -/
structure Split (a : Array KeyTarget) (p : Int32) (lo i e hi : ℕ) : Prop where
  lower : ∀ k, lo ≤ k → k < i → keyAt a k ≤ p
  upper : ∀ k, e ≤ k → k < hi → p ≤ keyAt a k

/-- After both scans and an exchange the segment is split further. -/
theorem Split.swap (h : Split a p lo i e hi) (hlo : lo ≤ scanUp a p i) (hhi : scanDown a p e ≤ hi)
    (hlt : scanUp a p i < scanDown a p e) (hsize : hi ≤ a.size) :
    Split (a.swapIfInBounds (scanUp a p i) (scanDown a p e - 1)) p lo (scanUp a p i + 1)
      (scanDown a p e - 1) hi := by
  have hkey := keyAt_swap (a := a) (i := scanUp a p i) (e := scanDown a p e - 1)
    (by omega) (by omega)
  have hup : p ≤ keyAt a (scanUp a p i) := le_keyAt_scanUp (by omega)
  have hdown : keyAt a (scanDown a p e - 1) ≤ p := keyAt_scanDown_le (by omega)
  refine ⟨fun k hk hk' => ?_, fun k hk hk' => ?_⟩
  · rw [hkey]
    split
    · exact hdown
    · rw [if_neg (by omega)]
      by_cases hki : k < i
      · exact h.lower k hk hki
      · exact Int32.le_of_lt (scanUp_below (Nat.le_of_not_lt hki) (by omega))
  · rw [hkey]
    by_cases hki : k = scanUp a p i
    · have heq : scanDown a p e - 1 = scanUp a p i := by omega
      rw [if_pos hki, heq]
      exact hup
    · rw [if_neg hki]
      split
      · exact hup
      · by_cases hke : e ≤ k
        · exact h.upper k hke hk'
        · exact Int32.le_of_lt (scanDown_above (e := e) (by omega) (by omega))

/-- Once the scans have met, the segment is split. -/
theorem Split.met (h : Split a p lo i e hi) : Split a p lo (scanUp a p i) (scanDown a p e) hi := by
  refine ⟨fun k hk hk' => ?_, fun k hk hk' => ?_⟩
  · by_cases hki : k < i
    · exact h.lower k hk hki
    · exact Int32.le_of_lt (scanUp_below (by omega) hk')
  · by_cases hke : e ≤ k
    · exact h.upper k hke hk'
    · exact Int32.le_of_lt (scanDown_above hk (by omega))

/-- What exchanging pairs of `[i, e)` within the segment `[lo, hi)` makes of the keys. -/
structure Parted (lo i e hi : ℕ) (p : Int32) (a : Array KeyTarget) (r : Array KeyTarget × ℕ × ℕ) :
    Prop extends Arranged lo hi a r.1, Split r.1 p lo r.2.1 r.2.2 hi where
  crossed : r.2.2 ≤ r.2.1
  begins : i ≤ r.2.1 ∧ r.2.1 ≤ hi
  ends : lo ≤ r.2.2 ∧ r.2.2 ≤ e

/-- Both scans meet a key that stops them, at first the pivot itself and then the pair that was
exchanged last. -/
theorem partition_parted (hlo : lo ≤ i) (hhi : e ≤ hi) (hsize : hi ≤ a.size)
    (h : Split a p lo i e hi) (hup : ∃ q, i ≤ q ∧ q < hi ∧ p ≤ keyAt a q)
    (hdown : ∃ q, lo ≤ q ∧ q < e ∧ keyAt a q ≤ p) :
    Parted lo i e hi p a (partition a p i e) := by
  fun_induction partition a p i e with
  | case1 a i e i' e' hlt b hgo ih =>
      have hi' : i ≤ i' := le_scanUp a p i
      have he' : e' ≤ e := scanDown_le a p e
      have hsplit : Split b p lo (i' + 1) (e' - 1) hi := h.swap (by omega) (by omega) hlt hsize
      have hswap : Arranged lo hi a b := .swap (by omega) (by omega) (by omega) hsize
      have hrest := ih (by omega) (by omega) (by rw [hswap.size]; exact hsize) hsplit
        ⟨e' - 1, by omega, by omega, hsplit.upper _ (Nat.le_refl _) (by omega)⟩
        ⟨i', by omega, by omega, hsplit.lower _ (by omega) (by omega)⟩
      have hbegins := hrest.begins
      have hends := hrest.ends
      exact ⟨hswap.trans hrest.toArranged, hrest.toSplit, hrest.crossed, by omega, by omega⟩
  | case2 a i e i' e' hlt b hgo =>
      have hi' : i ≤ i' := le_scanUp a p i
      have he' : e' ≤ e := scanDown_le a p e
      have hsplit : Split b p lo (i' + 1) (e' - 1) hi := h.swap (by omega) (by omega) hlt hsize
      have hswap : Arranged lo hi a b := .swap (by omega) (by omega) (by omega) hsize
      exact ⟨hswap, hsplit, by dsimp only; omega, by dsimp only; omega, by dsimp only; omega⟩
  | case3 a i e i' e' hge =>
      obtain ⟨q, hq, hq', hkey⟩ := hup
      obtain ⟨r, hr, hr', hkey'⟩ := hdown
      have hi' : i ≤ i' := le_scanUp a p i
      have he' : e' ≤ e := scanDown_le a p e
      have hstop : i' ≤ q := scanUp_le hq hkey
      have hstop' : r < e' := lt_scanDown hr' hkey'
      exact ⟨.refl .., h.met, by dsimp only; omega, by dsimp only; omega, by dsimp only; omega⟩

theorem le_partition (a : Array KeyTarget) (p : Int32) (i e : ℕ) :
    i ≤ (partition a p i e).2.1 ∧ (partition a p i e).2.2 ≤ e := by
  fun_induction partition a p i e with
  | case1 a i e i' e' hlt b hgo ih =>
      have hi' : i ≤ i' := le_scanUp a p i
      have he' : e' ≤ e := scanDown_le a p e
      omega
  | case2 a i e i' e' hlt b hgo =>
      have hi' : i ≤ i' := le_scanUp a p i
      have he' : e' ≤ e := scanDown_le a p e
      dsimp only
      omega
  | case3 a i e i' e' hge => exact ⟨le_scanUp a p i, scanDown_le a p e⟩

/-- With the pivot in the segment, the first exchange takes place, so both parts are shorter. -/
theorem partition_shrinks (hq : i ≤ q) (hq' : q < e) (hkey : keyAt a q = p) :
    i < (partition a p i e).2.1 ∧ (partition a p i e).2.2 < e := by
  have hup : scanUp a p i ≤ q := scanUp_le hq (hkey ▸ Int32.le_refl _)
  have hdown : q < scanDown a p e := lt_scanDown hq' (hkey ▸ Int32.le_refl _)
  have hi := le_scanUp a p i
  have he := scanDown_le a p e
  rw [partition]
  dsimp only
  rw [if_pos (by omega)]
  split
  · have hrest := le_partition (a.swapIfInBounds (scanUp a p i) (scanDown a p e - 1)) p
      (scanUp a p i + 1)
      (scanDown a p e - 1)
    omega
  · dsimp only
    omega

/-! ### Sorting -/

theorem pivot_mem (h : lo < hi) : ∃ q, lo ≤ q ∧ q < hi ∧ keyAt a q = pivot a lo hi := by
  unfold pivot
  dsimp only
  split
  · exact ⟨lo + (hi - 1 - lo) / 2, by omega, by omega, rfl⟩
  · split
    · exact ⟨lo, by omega, by omega, rfl⟩
    · exact ⟨hi - 1, by omega, by omega, rfl⟩

/-- The keys of `[lo, hi)` are in ascending order. -/
def Sorted (lo hi : ℕ) (a : Array KeyTarget) : Prop :=
  ∀ j k, lo ≤ j → j ≤ k → k < hi → keyAt a j ≤ keyAt a k

theorem sorted_of_le_one (h : hi ≤ lo + 1) : Sorted lo hi a := by
  intro j k hj hjk hk
  obtain rfl : j = k := by omega
  exact Int32.le_refl _

theorem Sorted.of_arranged {lo' hi' : ℕ} (h : Sorted lo hi a) (hb : Arranged lo' hi' a b)
    (hout : hi ≤ lo' ∨ hi' ≤ lo) : Sorted lo hi b := by
  intro j k hj hjk hk
  rw [hb.outside j (by omega), hb.outside k (by omega)]
  exact h j k hj hjk hk

/-- Sorting either part of a split segment sorts the segment. -/
theorem Sorted.join (h : Split a p lo i e hi) (hlower : Sorted lo e a) (hupper : Sorted i hi a) :
    Sorted lo hi a := by
  intro j k hj hjk hk
  by_cases hke : k < e
  · exact hlower j k hj hjk hke
  · by_cases hij : i ≤ j
    · exact hupper j k hij hjk hk
    · exact Int32.le_trans (h.lower j hj (by omega)) (h.upper k (by omega) hk)

/-- Sorting the lower part keeps the segment split, -/
theorem Split.lowerPart (h : Split a p lo i e hi) (hie : e ≤ i) (hb : Arranged lo e a b) :
    Split b p lo i e hi := by
  refine ⟨fun k hk hk' => ?_, fun k hk hk' => ?_⟩
  · by_cases hke : k < e
    · exact hb.all (P := (· ≤ p)) (fun k hk hk' => h.lower k hk (by omega)) k hk hke
    · rw [hb.outside k (by omega)]
      exact h.lower k hk hk'
  · rw [hb.outside k (.inr hk)]
    exact h.upper k hk hk'

/-- and so does sorting the upper part. -/
theorem Split.upperPart (h : Split a p lo i e hi) (hie : e ≤ i) (hb : Arranged i hi a b) :
    Split b p lo i e hi := by
  refine ⟨fun k hk hk' => ?_, fun k hk hk' => ?_⟩
  · rw [hb.outside k (.inl hk')]
    exact h.lower k hk hk'
  · by_cases hki : i ≤ k
    · exact hb.all (P := (p ≤ ·)) (fun k hk hk' => h.upper k (by omega) hk') k hki hk'
    · rw [hb.outside k (by omega)]
      exact h.upper k hk hk'

theorem sortSegment_sorted (hlt : lo < hi) (hsize : hi ≤ a.size) :
    Arranged lo hi a (sortSegment a lo hi) ∧ Sorted lo hi (sortSegment a lo hi) := by
  induction hn : hi - lo using Nat.strong_induction_on generalizing a lo hi with
  | h n ih =>
    subst hn
    obtain ⟨q, hq, hq', hkey⟩ := pivot_mem (a := a) hlt
    have hsplit : Split a (pivot a lo hi) lo lo hi hi :=
      ⟨fun k _ _ => by omega, fun k _ _ => by omega⟩
    have hparted := partition_parted (Nat.le_refl _) (Nat.le_refl _) hsize hsplit
      ⟨q, hq, hq', hkey ▸ Int32.le_refl _⟩ ⟨q, hq, hq', hkey ▸ Int32.le_refl _⟩
    have hshrinks := partition_shrinks hq hq' hkey
    rw [sortSegment]
    generalize partition a (pivot a lo hi) lo hi = r at hparted hshrinks
    obtain ⟨b, i, e⟩ := r
    obtain ⟨hb, hsplit, hcrossed, hbegins, hends⟩ := hparted
    dsimp only at hb hsplit hcrossed hbegins hends hshrinks ⊢
    have hlower : Arranged lo e b (if lo + 1 < e ∧ e < hi then sortSegment b lo e else b) ∧
        Sorted lo e (if lo + 1 < e ∧ e < hi then sortSegment b lo e else b) := by
      split
      · exact ih (e - lo) (by omega) (by omega) (by rw [hb.size]; omega) rfl
      · exact ⟨.refl .., sorted_of_le_one (by omega)⟩
    generalize (if lo + 1 < e ∧ e < hi then sortSegment b lo e else b) = c at hlower ⊢
    have hupper : Arranged i hi c (if i + 1 < hi ∧ lo < i then sortSegment c i hi else c) ∧
        Sorted i hi (if i + 1 < hi ∧ lo < i then sortSegment c i hi else c) := by
      split
      · exact ih (hi - i) (by omega) (by omega) (by rw [hlower.1.size, hb.size]; omega) rfl
      · exact ⟨.refl .., sorted_of_le_one (by omega)⟩
    generalize (if i + 1 < hi ∧ lo < i then sortSegment c i hi else c) = d at hupper ⊢
    refine ⟨hb.trans ((hlower.1.widen (Nat.le_refl _) (Nat.le_of_lt hshrinks.2)).trans
      (hupper.1.widen (Nat.le_of_lt hshrinks.1) (Nat.le_refl _))), ?_⟩
    exact .join ((hsplit.lowerPart hcrossed hlower.1).upperPart hcrossed hupper.1)
      (hlower.2.of_arranged hupper.1 (.inl hcrossed)) hupper.2

end KeySort

open KeySort in
/-- Sorted pairs have ascending keys. -/
theorem sortKeys_sorted (pairs : Array KeyTarget) :
    (sortKeys pairs).toList.Pairwise fun kt kt' => kt.1 ≤ kt'.1 := by
  have hsorted : Sorted 0 (sortKeys pairs).size (sortKeys pairs) := by
    unfold sortKeys
    split
    · obtain ⟨harranged, hsorted⟩ :=
        @sortSegment_sorted pairs 0 pairs.size (by omega) (Nat.le_refl _)
      rw [harranged.size]
      exact hsorted
    · exact sorted_of_le_one (by omega)
  rw [List.pairwise_iff_getElem]
  intro j k hj hk hjk
  rw [Array.length_toList] at hj hk
  have hle := hsorted j k (Nat.zero_le _) (Nat.le_of_lt hjk) hk
  simpa [keyAt, hj, hk] using hle

/-- Distinct keys come out strictly ascending. -/
theorem sortKeys_strict {pairs : Array KeyTarget} (h : (pairs.toList.map Prod.fst).Nodup) :
    ((sortKeys pairs).toList.map Prod.fst).Pairwise (· < ·) := by
  have hnodup : ((sortKeys pairs).toList.map Prod.fst).Nodup :=
    ((sortKeys_perm pairs).map Prod.fst).nodup_iff.mpr h
  have hsorted : ((sortKeys pairs).toList.map Prod.fst).Pairwise (· ≤ ·) :=
    List.pairwise_map.mpr (sortKeys_sorted pairs)
  exact (hsorted.and hnodup).imp fun h => Int32.lt_of_le_of_ne h.1 h.2

end StackCode
