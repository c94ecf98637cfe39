import StackCode.Code.Resolve
import StackCode.Proofs.Layout
import StackCode.Proofs.Parts

/-!
# Branches find their targets

What becomes of open branches once their target is known. A branch is patched, or,
if it is a trailing `goto` to the next instruction, taken back; `resolveLinks_cons_ok`
says which, link by link. Patching changes nothing but the offset of the branch, and
resolving touches neither the state of the code itself nor what waits.
-/

namespace StackCode

namespace Code

@[simp] theorem size_patch (c : Code) (p t : Nat) : (c.patch p t).bytes.size = c.bytes.size := by
  unfold patch
  simp only
  split
  · exact size_set4 ..
  · split
    · rfl
    · exact size_set2 ..

/-- All of the code but its bytes and the mark of a narrow offset stays. -/
theorem patch_eq (c : Code) (p t : Nat) :
    ∃ bs n, c.patch p t = { c with bytes := bs, needsWide := n } := by
  unfold patch
  simp only
  split
  · obtain ⟨bs, hbs⟩ := c.set4_eq (p + 1) (.ofInt ((t : Int) - p))
    exact ⟨bs, c.needsWide, hbs⟩
  · split
    · exact ⟨c.bytes, true, rfl⟩
    · obtain ⟨bs, hbs⟩ := c.set2_eq (p + 1) (.ofInt ((t : Int) - p))
      exact ⟨bs, c.needsWide, hbs⟩

theorem needsWide_patch (c : Code) (p t : Nat) (h : c.needsWide = true) :
    (c.patch p t).needsWide = true := by
  unfold patch
  simp only
  split
  · obtain ⟨bs, hbs⟩ := c.set4_eq (p + 1) (.ofInt ((t : Int) - p))
    rw [hbs]
    exact h
  · split
    · rfl
    · obtain ⟨bs, hbs⟩ := c.set2_eq (p + 1) (.ofInt ((t : Int) - p))
      rw [hbs]
      exact h

/-- Only the offset of the branch changes. -/
theorem agree_patch (c : Code) {p t lo hi : Nat}
    (hsize : p + (if c.wide then 5 else 3) ≤ c.bytes.size)
    (hout : hi ≤ p + 1 ∨ p + (if c.wide then 5 else 3) ≤ lo) :
    Agree c.bytes (c.patch p t).bytes lo hi := by
  unfold patch
  simp only
  split
  · rename_i hw
    rw [if_pos hw] at hsize hout
    exact agree_set4 c _ (by omega) (by omega)
  · rename_i hw
    rw [if_neg hw] at hsize hout
    split
    · exact .refl _ _ _
    · exact agree_set2 c _ (by omega) (by omega)

/-- A position as a 32-bit number is reached by its offset, however that wraps. -/
theorem offsetTarget_bmod (p t : Nat) :
    Instruction.offsetTarget p (Int.bmod ((t : Int) - p) 0x100000000) = t % 0x100000000 := by
  have hmod : Int.bmod ((t : Int) - p) 0x100000000 % 0x100000000 = ((t : Int) - p) % 0x100000000 :=
    Int.bmod_emod
  unfold Instruction.offsetTarget
  rw [Int.add_emod, hmod, ← Int.add_emod]
  omega

theorem offsetTarget_sub (p t : Nat) :
    Instruction.offsetTarget p ((t : Int) - p) = t % 0x100000000 := by
  unfold Instruction.offsetTarget
  omega

end Code

/-- What taking bytes back does to the code. -/
theorem Code.dropTail_eq (c : Code) (n : Nat) : ∃ vars slots,
    c.dropTail n = { c with
      bytes := c.bytes.shrink (c.pc - n), vars, slots
      lines := c.lines.popWhile (c.pc - n ≤ ·.pc) } := by
  unfold dropTail
  dsimp only
  split
  · exact ⟨_, _, rfl⟩
  · exact ⟨_, _, rfl⟩

/-! ### Resolving a chain -/

/-- The code with the state that the branches joined so far agree on. -/
def Code.seen (c : Code) (joined : Option Frame) : Code :=
  { c with frame := joined.getD c.frame }

namespace Emit

/-- How the first link of a chain is resolved. -/
theorem resolveLinks_cons_ok {l : Link} {rest : Chain} {target : Nat} {joined j' : Option Frame}
    {c c' : Code} (h : resolveLinks (l :: rest) target joined c = .ok j' c') :
    (c.endsWithGoto l (min target c.pc) = true ∧
      (rest = [] ∧ j' = joined ∧ c' = { c.dropTail 3 with alive := true } ∨
        resolveLinks rest (min target c.pc - 3)
          ((c.dropTail 3).land l (min target c.pc - 3) joined).2
          ((c.dropTail 3).land l (min target c.pc - 3) joined).1 = .ok j' c')) ∨
    (c.endsWithGoto l (min target c.pc) = false ∧
      (c.alive = true → l.frame.compatible (joined.getD c.frame) = true) ∧
      resolveLinks rest (min target c.pc)
        ((c.patch l.pc (min target c.pc)).land l (min target c.pc) joined).2
        ((c.patch l.pc (min target c.pc)).land l (min target c.pc) joined).1 = .ok j' c') := by
  rw [resolveLinks] at h
  obtain ⟨c0, c0', hget, h⟩ := EStateM.bind_eq_ok.mp h
  cases hget
  dsimp only at h
  split at h
  · rename_i hends
    refine .inl ⟨hends, ?_⟩
    split at h
    · rename_i hrest
      cases h
      exact .inl ⟨List.isEmpty_iff.mp hrest, rfl, rfl⟩
    · exact .inr h
  · rename_i hends
    refine .inr ⟨by simpa using hends, ?_⟩
    split at h
    · cases h
    · rename_i hcompat
      refine ⟨?_, h⟩
      intro halive
      simpa [halive] using hcompat

end Emit

namespace Code

theorem set1_seen (c : Code) (joined : Option Frame) (p : Nat) (b : UInt8) :
    (c.seen joined).set1 p b = (c.set1 p b).seen joined := rfl

theorem set2_seen (c : Code) (joined : Option Frame) (p : Nat) (v : UInt16) :
    (c.seen joined).set2 p v = (c.set2 p v).seen joined := by
  rw [set2, set2, set1_seen, set1_seen]

theorem set4_seen (c : Code) (joined : Option Frame) (p : Nat) (n : Int32) :
    (c.seen joined).set4 p n = (c.set4 p n).seen joined := by
  rw [set4, set4, set2_seen, set2_seen]

theorem patch_seen (c : Code) (joined : Option Frame) (p t : Nat) :
    (c.seen joined).patch p t = (c.patch p t).seen joined := by
  unfold patch
  simp only [set2_seen, set4_seen]
  by_cases hw : c.wide = true
  · rw [if_pos (show (c.seen joined).wide = true from hw), if_pos hw]
  · rw [if_neg (show ¬ (c.seen joined).wide = true from hw), if_neg hw]
    split <;> rfl

theorem size_dropTail (c : Code) (n : Nat) : (c.dropTail n).pc = c.pc - n := by
  obtain ⟨vars, slots, h⟩ := c.dropTail_eq n
  rw [h]
  show (c.bytes.shrink (c.pc - n)).size = _
  rw [Array.size_shrink]
  exact Nat.min_eq_left (Nat.sub_le _ _)

end Code

namespace Emit

/-- Resolving does not touch the state of the code itself, nor the branches that
wait, nor the exception table. -/
theorem frame_resolveLinks {chain : Chain} {target : Nat} {joined j' : Option Frame} {c c' : Code}
    (h : resolveLinks chain target joined c = .ok j' c') :
    c'.frame = c.frame ∧ c'.pending = c.pending ∧ c'.catches = c.catches := by
  induction chain generalizing target joined c with
  | nil =>
      cases h
      exact ⟨rfl, rfl, rfl⟩
  | cons l rest ih =>
      have hland (c : Code) (t : Nat) : (c.land l t joined).1.frame = c.frame ∧
          (c.land l t joined).1.pending = c.pending ∧
          (c.land l t joined).1.catches = c.catches := by
        unfold Code.land
        dsimp only
        split
        · split <;> exact ⟨rfl, rfl, rfl⟩
        · exact ⟨rfl, rfl, rfl⟩
      obtain ⟨vars, slots, htail⟩ := c.dropTail_eq 3
      obtain ⟨bs, n, hpatch⟩ := c.patch_eq l.pc (min target c.pc)
      rcases resolveLinks_cons_ok h with ⟨-, ⟨-, -, rfl⟩ | hrest⟩ | ⟨-, -, hrest⟩
      · rw [htail]
        exact ⟨rfl, rfl, rfl⟩
      · obtain ⟨hframe, hpending, hcatches⟩ := ih hrest
        obtain ⟨hframe', hpending', hcatches'⟩ := hland (c.dropTail 3) (min target c.pc - 3)
        rw [hframe, hpending, hcatches, hframe', hpending', hcatches', htail]
        exact ⟨rfl, rfl, rfl⟩
      · obtain ⟨hframe, hpending, hcatches⟩ := ih hrest
        obtain ⟨hframe', hpending', hcatches'⟩ :=
          hland (c.patch l.pc (min target c.pc)) (min target c.pc)
        rw [hframe, hpending, hcatches, hframe', hpending', hcatches', hpatch]
        exact ⟨rfl, rfl, rfl⟩

theorem pending_resolvePending {c c' : Code} (h : resolvePending c = .ok () c') :
    c'.pending = [] ∧ c'.catches = c.catches := by
  unfold resolvePending at h
  obtain ⟨c₀, c₀', hget, h⟩ := EStateM.bind_eq_ok.mp h
  cases hget
  split at h
  · rename_i hempty
    cases h
    exact ⟨List.isEmpty_iff.mp hempty, rfl⟩
  · obtain ⟨⟨⟩, c₁, hmod, h⟩ := EStateM.bind_eq_ok.mp h
    cases hmod
    obtain ⟨joined, c₂, hlinks, h⟩ := EStateM.bind_eq_ok.mp h
    have hsame : c₂.pending = [] ∧ c₂.catches = c.catches := (frame_resolveLinks hlinks).2
    cases joined with
    | none =>
        cases h
        exact hsame
    | some frame =>
        cases h
        exact hsame

end Emit

/-! ### Merging chains -/

/-- Merging loses no link and adds none. -/
theorem Chain.merge_perm {a b c : Chain} (h : a.merge b = .ok c) : c.Perm (a ++ b) := by
  fun_induction Chain.merge a b generalizing c with
  | case1 b =>
      cases h
      exact .refl _
  | case2 a _ =>
      cases h
      rw [List.append_nil]
  | case3 x a y b _ _ ih =>
      obtain ⟨d, hd, rfl⟩ : ∃ d, merge (x :: a) b = .ok d ∧ y :: d = c := by
        cases hd : merge (x :: a) b with
        | ok d =>
            rw [hd] at h
            cases h
            exact ⟨d, rfl, rfl⟩
        | error e =>
            rw [hd] at h
            cases h
      exact ((ih hd).cons y).trans List.perm_middle.symm
  | case4 x a y b _ _ ih =>
      obtain ⟨d, hd, rfl⟩ : ∃ d, merge a (y :: b) = .ok d ∧ x :: d = c := by
        cases hd : merge a (y :: b) with
        | ok d =>
            rw [hd] at h
            cases h
            exact ⟨d, rfl, rfl⟩
        | error e =>
            rw [hd] at h
            cases h
      exact (ih hd).cons x
  | case5 => cases h

namespace Emit

theorem merge_ok {chain : Chain} {c c' : Code} (h : (match chain.merge c.pending with
      | .ok pending => modify fun c => { c with pending }
      | .error e => throw e : Emit Unit) c = .ok () c') :
    ∃ pending, chain.merge c.pending = .ok pending ∧ c' = { c with pending } := by
  cases hm : chain.merge c.pending with
  | ok pending =>
      rw [hm] at h
      cases h
      exact ⟨pending, rfl, rfl⟩
  | error e =>
      rw [hm] at h
      cases h

theorem resolve_ok {chain : Chain} {c c' : Code} (h : resolve chain c = .ok () c') :
    ∃ pending, chain.merge c.pending = .ok pending ∧ c' = { c with pending } := by
  unfold resolve at h
  obtain ⟨c₀, c₀', hget, h⟩ := EStateM.bind_eq_ok.mp h
  cases hget
  cases hhead : chain.head? with
  | none =>
      rw [hhead] at h
      exact merge_ok h
  | some link =>
      rw [hhead] at h
      dsimp only at h
      split at h
      · cases h
      · exact merge_ok h

end Emit

end StackCode
