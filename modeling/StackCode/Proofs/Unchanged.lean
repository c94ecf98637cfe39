import StackCode.Proofs.SwitchTable

/-!
# What operations on the code leave alone

Whether jumps are wide, whether a narrow one was too long, and the exception table are
set down in the buffer beside the bytes. `Code.SameBesideBytes c c'` says that these are the same in
two buffers. Every operation on the buffer keeps them, apart from settling a branch and
from entering rows into the exception table.
-/

namespace StackCode

namespace Code

/-- The two buffers agree in what is set down beside the bytes. -/
structure SameBesideBytes (c c' : Code) : Prop where
  wide : c'.wide = c.wide
  catches : c'.catches = c.catches
  needsWide : c'.needsWide = c.needsWide

namespace SameBesideBytes

variable {c c' c'' : Code}

theorem refl (c : Code) : SameBesideBytes c c := ⟨rfl, rfl, rfl⟩

theorem trans (h : SameBesideBytes c c') (h' : SameBesideBytes c' c'') : SameBesideBytes c c'' where
  wide := h'.wide.trans h.wide
  catches := h'.catches.trans h.catches
  needsWide := h'.needsWide.trans h.needsWide

end SameBesideBytes

theorem sameBesideBytes_put1 (c : Code) (b : UInt8) : c.SameBesideBytes (c.put1 b) := by
  unfold put1
  split <;> exact ⟨rfl, rfl, rfl⟩

theorem sameBesideBytes_set4 (c : Code) (pc : Nat) (n : Int32) : c.SameBesideBytes (c.set4 pc n) :=
  ⟨rfl, rfl, rfl⟩

theorem sameBesideBytes_markLine (c : Code) : c.SameBesideBytes c.markLine := by
  obtain ⟨line, lines, hline, -⟩ := c.markLine_eq
  rw [hline]
  exact ⟨rfl, rfl, rfl⟩

theorem sameBesideBytes_dropTail (c : Code) (n : Nat) : c.SameBesideBytes (c.dropTail n) := by
  obtain ⟨vars, slots, hdrop⟩ := c.dropTail_eq n
  rw [hdrop]
  exact ⟨rfl, rfl, rfl⟩

theorem sameBesideBytes_land (c : Code) (link : Link) (target : Nat) (joined : Option Frame) :
    c.SameBesideBytes (c.land link target joined).1 := by
  unfold land
  dsimp only
  split
  · split <;> exact ⟨rfl, rfl, rfl⟩
  · exact ⟨rfl, rfl, rfl⟩

theorem sameBesideBytes_applyEffect (c : Code) (e : Effect) : c.SameBesideBytes (c.applyEffect e) :=
  ⟨by simp, by simp, by simp⟩

theorem sameBesideBytes_newVar (c : Code) (name : String) (ty : Ty) :
    c.SameBesideBytes (c.newVar name ty).2 := by
  unfold newVar
  dsimp only
  split <;> exact ⟨rfl, rfl, rfl⟩

theorem sameBesideBytes_takeSlot (c : Code) (reg : Nat) : c.SameBesideBytes (c.takeSlot reg).2 := by
  unfold takeSlot
  split <;> exact ⟨rfl, rfl, rfl⟩

theorem sameBesideBytes_addRange (c : Code) (row : RangeRow) :
    c.SameBesideBytes (c.addRange row) := by
  unfold addRange
  split <;> exact ⟨rfl, rfl, rfl⟩

theorem sameBesideBytes_closeSlots (default : Int32) (c : Code) (pc n : Nat) :
    c.SameBesideBytes (Gen.closeSlots default c pc n) := by
  induction n generalizing c pc with
  | zero => exact .refl c
  | succ n ih =>
      unfold Gen.closeSlots
      dsimp only
      split
      · exact (c.sameBesideBytes_set4 pc default).trans (ih _ _)
      · exact ih c (pc + 4)

theorem sameBesideBytes_writePairs (c : Code) (pc : Nat) (pairs : List KeyTarget) :
    c.SameBesideBytes (Gen.writePairs c pc pairs) := by
  induction pairs generalizing c pc with
  | nil => exact .refl c
  | cons pair rest ih =>
      obtain ⟨key, target⟩ := pair
      rw [Gen.writePairs_cons]
      exact ((c.sameBesideBytes_set4 pc key).trans (sameBesideBytes_set4 _ (pc + 4) target)).trans
        (ih _ _)

/-! ### Rows of the exception table -/

theorem addCatch_wide (c : Code) (row : CatchRow) : (c.addCatch row).wide = c.wide := by
  unfold addCatch
  split <;> rfl

theorem addCatch_needsWide (c : Code) (row : CatchRow) :
    (c.addCatch row).needsWide = c.needsWide := by
  unfold addCatch
  split <;> rfl

/-! ### Settling a branch -/

/-- Whether an offset of 16 bits leads from `pc` to `target`. -/
def Near (pc target : Nat) : Prop :=
  -0x8000 ≤ (target : Int) - pc ∧ (target : Int) - pc < 0x8000

instance (pc target : Nat) : Decidable (Near pc target) := inferInstanceAs (Decidable (_ ∧ _))

theorem patch_wide (c : Code) (pc target : Nat) : (c.patch pc target).wide = c.wide := by
  unfold patch
  dsimp only
  split
  · rfl
  · split <;> rfl

theorem patch_catches (c : Code) (pc target : Nat) :
    (c.patch pc target).catches = c.catches := by
  unfold patch
  dsimp only
  split
  · rfl
  · split <;> rfl

/-- Settling a branch that is too long for narrow jumps goes on record. -/
theorem patch_needsWide_iff (c : Code) (pc target : Nat) :
    (c.patch pc target).needsWide = true ↔
      c.needsWide = true ∨ c.wide = false ∧ ¬ Near pc target := by
  unfold patch Near
  dsimp only
  split
  · rename_i hwide
    simp only [hwide, Bool.true_eq_false, false_and, or_false]
    rfl
  · rename_i hwide
    simp only [Bool.not_eq_true] at hwide
    simp only [hwide, true_and]
    split
    · rename_i hfar
      simp only [Bool.or_eq_true, decide_eq_true_eq] at hfar
      exact iff_of_true rfl (.inr (by omega))
    · rename_i hnear
      simp only [Bool.or_eq_true, decide_eq_true_eq] at hnear
      exact ⟨.inl, fun h => h.resolve_right (not_not_intro (by omega))⟩

end Code

end StackCode
