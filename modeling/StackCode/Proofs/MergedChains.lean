import Mathlib.Data.List.Sort
import StackCode.Chain

/-!
# What merging makes of two chains

A chain is `Proper` if its positions do not increase and any two of its branches may share a
target. `merge` tests the states of one pair of branches after another, but on proper chains the
first test decides: either every branch of the one chain agrees with every branch of the other,
and merging is the merge of sorted lists, or the two heads disagree and it fails at once. `Merged`
collects what is then known of the result. Two proper chains with the same branches have the same
positions, so that on positions the order and the grouping of merges are irrelevant.
-/

namespace StackCode

namespace Chain

/-- The positions do not increase, and control may join from any two branches. -/
structure Proper (c : Chain) : Prop where
  descending : c.Pairwise fun x y => y.pc ≤ x.pc
  agreeing : c.Pairwise fun x y => x.frame.compatible y.frame = true

/-- Control may join from any branch of the one chain and any of the other. -/
def Joinable (a b : Chain) : Prop := ∀ x ∈ a, ∀ y ∈ b, x.frame.compatible y.frame = true

instance (a b : Chain) : Decidable (Joinable a b) := by unfold Joinable; infer_instance

/-- What is known of the chain `r` that two chains are merged to. -/
structure Merged (a b r : Chain) : Prop where
  perm : r.Perm (a ++ b)
  descending : r.Pairwise fun x y => y.pc ≤ x.pc
  strict : (a ++ b).positions.Nodup → r.Pairwise fun x y => y.pc < x.pc
  agreeing : r.Pairwise fun x y => x.frame.compatible y.frame = true
  /-- of the branches at one position, those of `a` come first, each chain's in their order -/
  stable : ∀ pc, r.filter (·.pc = pc) = a.filter (·.pc = pc) ++ b.filter (·.pc = pc)

/-- The merge of two lists of links by position, without a look at their states. -/
def weave (a b : Chain) : Chain := List.merge a b fun x y => decide (y.pc ≤ x.pc)

/-! ### Compatible states -/

theorem compatible_trans {f g h : Frame} (hfg : f.compatible g = true)
    (hgh : g.compatible h = true) : f.compatible h = true := by
  rw [Frame.compatible_iff] at *
  exact ⟨hfg.1.trans hgh.1, hfg.2.trans hgh.2⟩

theorem Joinable.symm {a b : Chain} (h : Joinable a b) : Joinable b a := by
  intro y hy x hx
  rw [Frame.compatible_comm]
  exact h x hx y hy

theorem Proper.head {x : Link} {a : Chain} (h : Proper (x :: a)) :
    ∀ z ∈ x :: a, z.frame.compatible x.frame = true := by
  intro z hz
  rcases List.mem_cons.mp hz with rfl | hz
  · exact Frame.compatible_refl _
  · rw [Frame.compatible_comm]
    exact (List.pairwise_cons.mp h.agreeing).1 z hz

/-- Proper chains are joinable as soon as their heads agree. -/
theorem joinable_of_heads {x y : Link} {a b : Chain} (ha : Proper (x :: a)) (hb : Proper (y :: b))
    (h : x.frame.compatible y.frame = true) : Joinable (x :: a) (y :: b) := by
  intro z hz w hw
  have hw' : y.frame.compatible w.frame = true := Frame.compatible_comm .. ▸ hb.head w hw
  exact compatible_trans (compatible_trans (ha.head z hz) h) hw'

/-! ### Merging joinable chains -/

theorem weave_perm (a b : Chain) : (weave a b).Perm (a ++ b) := List.merge_perm_append ..

/-- Where all states agree, merging is the merge of sorted lists. -/
theorem Joinable.merge_eq {a b : Chain} (h : Joinable a b) : a.merge b = .ok (weave a b) := by
  fun_induction Chain.merge a b with
  | case1 b => simp [weave]
  | case2 a _ => simp [weave]
  | case3 x a y b _ hlt ih =>
      rw [ih fun z hz w hw => h z hz w (List.mem_cons_of_mem y hw)]
      simp [Except.map, weave, hlt]
  | case4 x a y b _ hlt ih =>
      rw [ih fun z hz w hw => h z (List.mem_cons_of_mem x hz) w hw]
      simp [Except.map, weave, Nat.not_lt.mp hlt]
  | case5 x a y b hne =>
      exact absurd (h x List.mem_cons_self y List.mem_cons_self) hne

theorem merge_eq_error {x y : Link} {a b : Chain} (h : ¬ x.frame.compatible y.frame = true) :
    Chain.merge (x :: a) (y :: b) = .error (mismatch x y) := by
  rw [merge, if_neg h]

/-- Merging proper chains is all or nothing. -/
theorem Proper.merge_toOption {a b : Chain} (ha : a.Proper) (hb : b.Proper) :
    (a.merge b).toOption = if Joinable a b then some (weave a b) else none := by
  split
  · rw [Joinable.merge_eq ‹_›]
    rfl
  · rename_i hne
    match a, b with
    | [], b => exact absurd (by simp [Joinable]) hne
    | x :: a, [] => exact absurd (by simp [Joinable]) hne
    | x :: a, y :: b =>
        rw [merge_eq_error fun h => hne (joinable_of_heads ha hb h)]
        rfl

theorem weave_descending {a b : Chain} (ha : a.Proper) (hb : b.Proper) :
    (weave a b).Pairwise fun x y => y.pc ≤ x.pc := by
  have h := @List.pairwise_merge Link (fun x y => decide (y.pc ≤ x.pc))
    (fun x y z hxy hyz => decide_eq_true ((of_decide_eq_true hyz).trans (of_decide_eq_true hxy)))
    (fun x y => by simpa using Nat.le_total y.pc x.pc) a b
    (ha.descending.imp decide_eq_true) (hb.descending.imp decide_eq_true)
  exact h.imp of_decide_eq_true

theorem weave_agreeing {a b : Chain} (ha : a.Proper) (hb : b.Proper) (h : Joinable a b) :
    (weave a b).Pairwise fun x y => x.frame.compatible y.frame = true := by
  have hsymm : ∀ {x y : Link}, x.frame.compatible y.frame = true →
      y.frame.compatible x.frame = true :=
    fun hxy => Frame.compatible_comm .. ▸ hxy
  rw [(weave_perm a b).pairwise_iff hsymm, List.pairwise_append]
  exact ⟨ha.agreeing, hb.agreeing, h⟩

theorem Proper.weave {a b : Chain} (ha : a.Proper) (hb : b.Proper) (h : Joinable a b) :
    (weave a b).Proper :=
  ⟨weave_descending ha hb, weave_agreeing ha hb h⟩

/-- If no position occurs twice, the positions of a descending chain decrease. -/
theorem strict_of_nodup {r : Chain} (h : r.Pairwise fun x y => y.pc ≤ x.pc)
    (hnodup : r.positions.Nodup) : r.Pairwise fun x y => y.pc < x.pc := by
  have hne : r.Pairwise fun x y => x.pc ≠ y.pc := List.pairwise_map.mp hnodup
  exact (h.and hne).imp fun hxy => lt_of_le_of_ne hxy.1 hxy.2.symm

/-- Branches at one position stay in the order of the chains. A branch of `b` comes out before the
rest of `a` only where it is higher than all of that. -/
theorem weave_stable {a b : Chain} (ha : a.Pairwise fun x y => y.pc ≤ x.pc) (pc : ℕ) :
    (weave a b).filter (·.pc = pc) = a.filter (·.pc = pc) ++ b.filter (·.pc = pc) := by
  unfold weave
  fun_induction List.merge a b fun x y => decide (y.pc ≤ x.pc) with
  | case1 b => simp
  | case2 a _ => simp
  | case3 x a y b hle ih =>
      rw [List.filter_cons, ih (List.pairwise_cons.mp ha).2, List.filter_cons (x := x)]
      split <;> simp
  | case4 x a y b hle ih =>
      rw [List.filter_cons, ih ha, List.filter_cons (x := y)]
      split
      · rename_i hy
        have hx : x.pc < y.pc := by simpa using hle
        have hnone : (x :: a).filter (·.pc = pc) = [] := by
          rw [List.filter_eq_nil_iff]
          intro z hz
          have hz : z.pc ≤ x.pc := by
            rcases List.mem_cons.mp hz with rfl | hz
            · exact le_refl _
            · exact (List.pairwise_cons.mp ha).1 z hz
          have hy : y.pc = pc := by simpa using hy
          simp only [decide_eq_true_eq]
          omega
        rw [hnone, List.nil_append, List.nil_append]
      · rfl

theorem Proper.merged {a b : Chain} (ha : a.Proper) (hb : b.Proper) (h : Joinable a b) :
    Merged a b (Chain.weave a b) where
  perm := weave_perm a b
  descending := weave_descending ha hb
  strict := fun hnodup => strict_of_nodup (weave_descending ha hb)
    ((weave_perm a b).map Link.pc |>.nodup_iff.mpr hnodup)
  agreeing := weave_agreeing ha hb h
  stable := weave_stable ha.descending

/-! ### Order and grouping of merges -/

/-- Descending chains with the same branches have the same positions. -/
theorem positions_eq_of_perm {r s : Chain} (hr : r.Proper) (hs : s.Proper) (h : r.Perm s) :
    r.positions = s.positions := by
  have hr' : r.positions.Pairwise fun m n => n ≤ m := List.pairwise_map.mpr hr.descending
  have hs' : s.positions.Pairwise fun m n => n ≤ m := List.pairwise_map.mpr hs.descending
  exact (h.map Link.pc).eq_of_pairwise (fun _ _ _ _ h₁ h₂ => le_antisymm h₂ h₁) hr' hs'

theorem joinable_weave_left {a b c : Chain} :
    Joinable (weave a b) c ↔ Joinable a c ∧ Joinable b c := by
  simp only [Joinable, (weave_perm a b).mem_iff, List.mem_append, or_imp, forall_and]

theorem joinable_weave_right {a b c : Chain} :
    Joinable a (weave b c) ↔ Joinable a b ∧ Joinable a c := by
  simp only [Joinable, (weave_perm b c).mem_iff, List.mem_append, or_imp, forall_and]

theorem merge_comm_positions {a b : Chain} (ha : a.Proper) (hb : b.Proper) :
    (a.merge b).toOption.map positions = (b.merge a).toOption.map positions := by
  rw [ha.merge_toOption hb, hb.merge_toOption ha]
  by_cases h : Joinable a b
  · rw [if_pos h, if_pos h.symm, Option.map_some, Option.map_some]
    have hperm := (weave_perm a b).trans (List.perm_append_comm.trans (weave_perm b a).symm)
    rw [positions_eq_of_perm (ha.weave hb h) (hb.weave ha h.symm) hperm]
  · rw [if_neg h, if_neg fun h' => h h'.symm]

theorem toOption_bind (x : Except Error Chain) (f : Chain → Except Error Chain) :
    (x >>= f).toOption = x.toOption.bind fun r => (f r).toOption := by
  cases x <;> rfl

theorem merge_assoc_positions {a b c : Chain} (ha : a.Proper) (hb : b.Proper) (hc : c.Proper) :
    (a.merge b >>= (·.merge c)).toOption.map positions =
      (b.merge c >>= (a.merge ·)).toOption.map positions := by
  rw [toOption_bind, toOption_bind, ha.merge_toOption hb, hb.merge_toOption hc]
  by_cases hab : Joinable a b
  · by_cases hbc : Joinable b c
    · rw [if_pos hab, if_pos hbc, Option.bind_some, Option.bind_some]
      rw [(ha.weave hb hab).merge_toOption hc, ha.merge_toOption (hb.weave hc hbc)]
      by_cases hac : Joinable a c
      · have hl := joinable_weave_left.mpr ⟨hac, hbc⟩
        have hr := joinable_weave_right.mpr ⟨hab, hac⟩
        rw [if_pos hl, if_pos hr, Option.map_some, Option.map_some]
        have hperm : (weave (weave a b) c).Perm (weave a (weave b c)) := by
          refine (weave_perm _ c).trans (((weave_perm a b).append_right c).trans ?_)
          rw [List.append_assoc]
          exact ((weave_perm b c).symm.append_left a).trans (weave_perm a _).symm
        rw [positions_eq_of_perm ((ha.weave hb hab).weave hc hl)
          (ha.weave (hb.weave hc hbc) hr) hperm]
      · rw [if_neg fun h => hac (joinable_weave_left.mp h).1,
          if_neg fun h => hac (joinable_weave_right.mp h).2]
    · rw [if_pos hab, if_neg hbc, Option.bind_some, (ha.weave hb hab).merge_toOption hc,
        if_neg fun h => hbc (joinable_weave_left.mp h).2]
      rfl
  · by_cases hbc : Joinable b c
    · rw [if_neg hab, if_pos hbc, Option.bind_some, ha.merge_toOption (hb.weave hc hbc),
        if_neg fun h => hab (joinable_weave_right.mp h).1]
      rfl
    · rw [if_neg hab, if_neg hbc]
      rfl

/-! ### Merging -/

theorem Proper.joinable_iff {a b : Chain} (ha : a.Proper) (hb : b.Proper) :
    Joinable a b ↔
      a = [] ∨ b = [] ∨ ∃ x ∈ a.head?, ∃ y ∈ b.head?, x.frame.compatible y.frame = true := by
  match a, b with
  | [], b => simp [Joinable]
  | x :: a, [] => simp [Joinable]
  | x :: a, y :: b =>
      constructor
      · intro h
        exact .inr (.inr ⟨x, rfl, y, rfl, h x List.mem_cons_self y List.mem_cons_self⟩)
      · rintro (h | h | ⟨x', hx, y', hy, h⟩)
        · cases h
        · cases h
        · cases hx
          cases hy
          exact joinable_of_heads ha hb h

theorem merge_error {a b : Chain} {e : Error} (h : a.merge b = .error e) : ¬ Joinable a b := by
  intro hj
  rw [hj.merge_eq] at h
  cases h

/-- Merging proper chains succeeds exactly if one is empty or the heads agree; otherwise it
complains about the higher head. What comes out has all branches in order, and neither the order
nor the grouping of merges shows in the positions. -/
theorem merge_proper {a b c : Chain} (ha : a.Proper) (hb : b.Proper) (hc : c.Proper) :
    ((∃ r, a.merge b = .ok r) ↔
      a = [] ∨ b = [] ∨ ∃ x ∈ a.head?, ∃ y ∈ b.head?, x.frame.compatible y.frame = true) ∧
    (∀ e, a.merge b = .error e →
      ∃ x ∈ a.head?, ∃ y ∈ b.head?, ∃ detail, e = .stateMismatch (max x.pc y.pc) detail) ∧
    (∀ r, a.merge b = .ok r → Merged a b r) ∧
    (a.merge b).toOption.map positions = (b.merge a).toOption.map positions ∧
    (a.merge b >>= (·.merge c)).toOption.map positions =
      (b.merge c >>= (a.merge ·)).toOption.map positions := by
  refine ⟨?_, ?_, ?_, merge_comm_positions ha hb, merge_assoc_positions ha hb hc⟩
  · rw [← ha.joinable_iff hb]
    constructor
    · rintro ⟨r, hr⟩
      by_contra hne
      have h := ha.merge_toOption hb
      rw [hr, if_neg hne] at h
      cases h
    · exact fun h => ⟨_, h.merge_eq⟩
  · intro e he
    match a, b with
    | [], b => exact absurd (by simp [Joinable]) (merge_error he)
    | x :: a, [] => exact absurd (by simp [Joinable]) (merge_error he)
    | x :: a, y :: b =>
        rw [merge_eq_error fun h => merge_error he (joinable_of_heads ha hb h)] at he
        cases he
        exact ⟨x, rfl, y, rfl, _, rfl⟩
  · intro r hr
    have h := ha.merge_toOption hb
    rw [hr] at h
    by_cases hj : Joinable a b
    · rw [if_pos hj] at h
      cases h
      exact ha.merged hb hj
    · rw [if_neg hj] at h
      cases h

/-- Two chains with a branch at 10 each, and a third that cannot be joined with either. -/
theorem merge_proper_twins :
    let f : Frame := ⟨#[.int], []⟩
    let g : Frame := ⟨#[.object], []⟩
    let a : Chain := [⟨40, f⟩, ⟨10, f⟩]
    let b : Chain := [⟨25, g⟩, ⟨10, g⟩]
    let c : Chain := [⟨5, {}⟩]
    a.Proper ∧ b.Proper ∧ c.Proper ∧
      a.merge b = .ok [⟨40, f⟩, ⟨25, g⟩, ⟨10, f⟩, ⟨10, g⟩] ∧
      Merged a b [⟨40, f⟩, ⟨25, g⟩, ⟨10, f⟩, ⟨10, g⟩] ∧ ¬ ∃ r, b.merge c = .ok r := by
  intro f g a b c
  have ha : a.Proper := ⟨by decide, by decide⟩
  have hb : b.Proper := ⟨by decide, by decide⟩
  have hc : c.Proper := ⟨by decide, by decide⟩
  have hab : a.merge b = .ok [⟨40, f⟩, ⟨25, g⟩, ⟨10, f⟩, ⟨10, g⟩] := by
    simp [a, b, f, g, merge, Except.map, Frame.compatible, Frame.depth]
  refine ⟨ha, hb, hc, hab, (merge_proper ha hb hc).2.2.1 _ hab, ?_⟩
  rw [(merge_proper hb hc ha).1]
  simp [b, c, g, Frame.compatible, Frame.depth]

end Chain

end StackCode
