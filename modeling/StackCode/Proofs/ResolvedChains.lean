import StackCode.Proofs.Futures
import StackCode.Proofs.Unchanged

/-!
# Resolving a chain

`Emit.resolveTo` walks down a chain and changes the code under its feet: a `goto` that only leads
behind itself is taken back, which moves the target; the first branch that comes to the end of
dead code brings it back to life, with its own state. What the walk comes to is said in closed
form. Where nothing is taken back, the offsets are written as by `Code.patchAll`, and the state is
decided by the first branch (`Emit.resolveLinks_eq`). A `goto` can be taken back only at the head
of the chain, since the walk fixes the position after every link that it leaves behind.

The main statement, `Emit.resolveTo_retargets`, says that a chain of branches of the code can be
resolved to any place up to its end, that this gives the branches of the chain their target and
changes no other byte (`Code.Retargeted`), and that control is there if the place is the end of
the code.
-/

namespace StackCode

open Instruction

namespace Code

/-! ### The offsets of a chain -/

/-- The code with the offsets of all branches of a chain to `target`. -/
def patchAll (c : Code) (chain : Chain) (target : ℕ) : Code :=
  chain.foldl (fun c l => c.patch l.pc target) c

variable {c d : Code} {chain rest : Chain} {l : Link} {p t target : ℕ}

@[simp] theorem patchAll_nil (c : Code) (target : ℕ) : c.patchAll [] target = c := rfl

theorem patchAll_cons (c : Code) (l : Link) (rest : Chain) (target : ℕ) :
    c.patchAll (l :: rest) target = (c.patch l.pc target).patchAll rest target := rfl

/-- The code with its position seen, and with control here or not. -/
def seenAs (c : Code) (alive : Bool) : Code := { c with fixed := true, alive }

/-- Writing an offset has nothing to do with whether control is here. -/
theorem patch_seenAs (c : Code) (p t : ℕ) (alive : Bool) :
    (c.seenAs alive).patch p t = (c.patch p t).seenAs alive := by
  unfold patch seenAs
  dsimp only
  split
  · rfl
  · split <;> rfl

theorem patchAll_seenAs (c : Code) (chain : Chain) (t : ℕ) (alive : Bool) :
    (c.seenAs alive).patchAll chain t = (c.patchAll chain t).seenAs alive := by
  induction chain generalizing c with
  | nil => rfl
  | cons l rest ih => rw [patchAll_cons, patch_seenAs, ih, patchAll_cons]

/-- All of the code but its bytes and the mark of a narrow offset stays. -/
theorem patchAll_eq (c : Code) (chain : Chain) (t : ℕ) :
    ∃ bs n, c.patchAll chain t = { c with bytes := bs, needsWide := n } := by
  induction chain generalizing c with
  | nil => exact ⟨_, _, rfl⟩
  | cons l rest ih =>
      obtain ⟨bs, n, hpatch⟩ := c.patch_eq l.pc t
      obtain ⟨bs', n', hrest⟩ := ih (c.patch l.pc t)
      exact ⟨bs', n', by rw [patchAll_cons, hrest, hpatch]⟩

theorem pc_patch (c : Code) (p t : ℕ) : (c.patch p t).pc = c.pc := c.size_patch p t

theorem pc_patchAll (c : Code) (chain : Chain) (t : ℕ) : (c.patchAll chain t).pc = c.pc := by
  induction chain generalizing c with
  | nil => rfl
  | cons l rest ih => rw [patchAll_cons, ih, pc_patch]

theorem needsWide_patchAll_iff (c : Code) (chain : Chain) (t : ℕ) :
    (c.patchAll chain t).needsWide = true ↔
      c.needsWide = true ∨ c.wide = false ∧ ∃ l ∈ chain, ¬ Near l.pc t := by
  induction chain generalizing c with
  | nil => simp
  | cons l rest ih =>
      rw [patchAll_cons, ih, patch_needsWide_iff, patch_wide]
      simp only [List.exists_mem_cons_iff]
      tauto

/-! ### What the offsets are -/

/-- The bytes of the branch at `p` that hold its offset, and no others, depend on its target. -/
theorem agree_patch_patch (hwide : d.wide = c.wide) (hc : p + branchSize c.wide ≤ c.pc)
    (hd : p + branchSize c.wide ≤ d.pc)
    (h : Agree c.bytes d.bytes (p + 1) (p + branchSize c.wide)) :
    Agree (c.patch p t).bytes (d.patch p t).bytes (p + 1) (p + branchSize c.wide) := by
  intro k hlo hhi
  unfold patch
  rw [hwide]
  unfold pc at hc hd
  cases hw : c.wide with
  | true =>
      rw [hw] at hc hd hhi
      simp only [branchSize, if_true] at hc hd hhi
      simp only [if_true]
      rw [getElem?_set4 d _ _ (by omega), getElem?_set4 c _ _ (by omega), if_pos (by omega),
        if_pos (by omega)]
  | false =>
      rw [hw] at hc hd hhi h
      simp only [branchSize, Bool.false_eq_true, if_false] at hc hd hhi h
      simp only [Bool.false_eq_true, if_false]
      split
      · exact h k hlo hhi
      · rw [getElem?_set2 d _ _ (by omega), getElem?_set2 c _ _ (by omega), h k hlo hhi]

/-- Bytes outside of the offsets stay. -/
theorem getElem?_patchAll (hwithin : ∀ l ∈ chain, l.pc + branchSize c.wide ≤ c.pc) {k : ℕ}
    (hout : ∀ l ∈ chain, k ≤ l.pc ∨ l.pc + branchSize c.wide ≤ k) :
    (c.patchAll chain t).bytes[k]? = c.bytes[k]? := by
  induction chain generalizing c with
  | nil => rfl
  | cons l rest ih =>
      have hfirst : Agree c.bytes (c.patch l.pc t).bytes k (k + 1) :=
        agree_patch c (hwithin l List.mem_cons_self)
          (by have := hout l List.mem_cons_self; unfold branchSize at this; omega)
      rw [patchAll_cons, ih, hfirst k (Nat.le_refl _) (Nat.lt_succ_self _)]
      · rw [patch_wide, pc_patch]
        exact fun m hm => hwithin m (List.mem_cons_of_mem _ hm)
      · rw [patch_wide]
        exact fun m hm => hout m (List.mem_cons_of_mem _ hm)

/-- A branch of the chain reads as if it were the only one. -/
theorem agree_patchAll (hwithin : ∀ l ∈ chain, l.pc + branchSize c.wide ≤ c.pc)
    (hapart : chain.Pairwise (Link.Apart c.wide)) (hl : l ∈ chain) :
    Agree (c.patch l.pc t).bytes (c.patchAll chain t).bytes (l.pc + 1)
      (l.pc + branchSize c.wide) := by
  induction chain generalizing c with
  | nil => cases hl
  | cons m rest ih =>
      obtain ⟨hbehind, hrest⟩ := List.pairwise_cons.mp hapart
      have hwithin' : ∀ l ∈ rest, l.pc + branchSize (c.patch m.pc t).wide ≤
          (c.patch m.pc t).pc := by
        rw [patch_wide, pc_patch]
        exact fun k hk => hwithin k (List.mem_cons_of_mem _ hk)
      rw [patchAll_cons]
      rcases List.mem_cons.mp hl with rfl | hl
      · intro k hlo hhi
        refine getElem?_patchAll hwithin' fun m hm => ?_
        rw [patch_wide]
        rcases hbehind m hm with h | h <;> omega
      · have hstep := ih hwithin' (by rwa [patch_wide]) hl
        rw [patch_wide] at hstep
        have hsize := hwithin l (List.mem_cons_of_mem _ hl)
        refine Agree.trans (agree_patch_patch (c.patch_wide m.pc t) hsize
          (by rwa [pc_patch]) ?_) hstep
        refine agree_patch c (hwithin m List.mem_cons_self) ?_
        rcases hbehind l hl with h | h
        · exact .inr (h.trans (Nat.le_succ _))
        · exact .inl (h.trans (Nat.le_succ _))

theorem intAt_patch (hwide : c.wide = true) (hp : p + 5 ≤ c.pc) :
    intAt (c.patch p t).bytes (p + 1) = .ok (Int.bmod ((t : Int) - p) 0x100000000) := by
  unfold patch
  rw [if_pos hwide, intAt_set4 c _ _ (by unfold pc at hp; omega), Int32.toInt_ofInt]

theorem shortAt_patch (hwide : c.wide = false) (hp : p + 3 ≤ c.pc) (hnear : Near p t) :
    shortAt (c.patch p t).bytes (p + 1) = .ok ((t : Int) - p) := by
  unfold patch
  unfold Near at hnear
  rw [hwide, if_neg Bool.false_ne_true,
    if_neg (by simp only [Bool.or_eq_true, decide_eq_true_eq]; omega),
    shortAt_set2 c _ _ (by unfold pc at hp; omega), bmod_ofInt hnear.1 hnear.2]

theorem patch_of_far (hwide : c.wide = false) (hfar : ¬ Near p t) :
    (c.patch p t).bytes = c.bytes := by
  unfold patch
  unfold Near at hfar
  rw [hwide, if_neg Bool.false_ne_true,
    if_pos (by simp only [Bool.or_eq_true, decide_eq_true_eq]; omega)]

/-! ### Landing -/

/-- Whether control is here once a branch has got `target`. -/
def arrives (c : Code) (target : ℕ) : Bool := c.alive || c.pc == target

/-- The state that the branches agree on once `l` has got `target`: the first branch that comes here
decides it, unless control is here already. -/
def joinedBy (c : Code) (l : Link) (target : ℕ) (joined : Option Frame) : Option Frame :=
  if c.pc = target then some (if c.alive then joined.getD c.frame else l.frame) else joined

theorem land_patch (c : Code) (l : Link) (target : ℕ) (joined : Option Frame) :
    (c.patch l.pc target).land l target joined =
      ((c.patch l.pc target).seenAs (c.arrives target), c.joinedBy l target joined) := by
  obtain ⟨bs, n, hpatch⟩ := c.patch_eq l.pc target
  have hpc : ({ c.patch l.pc target with fixed := true } : Code).pc = c.pc := c.pc_patch l.pc target
  have halive : (c.patch l.pc target).alive = c.alive := by rw [hpatch]
  have hframe : (c.patch l.pc target).frame = c.frame := by rw [hpatch]
  unfold land seenAs arrives joinedBy
  dsimp only
  rw [hpc, halive, hframe]
  by_cases h : c.pc = target
  · rw [if_pos h, if_pos h]
    cases hc : c.alive with
    | false => simp [h]
    | true => simp [← halive.trans hc]
  · rw [if_neg h, if_neg h, show (c.pc == target) = false from beq_false_of_ne h,
      Bool.or_false, ← halive]

/-- Taking back a `goto` brings control here. -/
theorem land_dropTail (c : Code) (l : Link) :
    (c.dropTail 3).land l (c.pc - 3) none =
      ((c.dropTail 3).seenAs true, some (if c.alive then c.frame else l.frame)) := by
  obtain ⟨vars, slots, htail⟩ := c.dropTail_eq 3
  have halive : (c.dropTail 3).alive = c.alive := by rw [htail]
  have hframe : (c.dropTail 3).frame = c.frame := by rw [htail]
  unfold land seenAs
  dsimp only
  rw [show ({ c.dropTail 3 with fixed := true } : Code).pc = c.pc - 3 from c.size_dropTail 3,
    if_pos rfl,
    halive, hframe]
  cases hc : c.alive with
  | false => rfl
  | true => simp [← halive.trans hc]

/-- The branches after the first one find control and state decided. -/
theorem arrives_seenAs (c : Code) (p target : ℕ) :
    ((c.patch p target).seenAs (c.arrives target)).arrives target = c.arrives target := by
  have hpc : ((c.patch p target).seenAs (c.arrives target)).pc = c.pc := c.pc_patch p target
  unfold arrives at hpc ⊢
  rw [hpc]
  simp [seenAs]

theorem joinedBy_joinedBy (c : Code) (l m : Link) (p target : ℕ) (joined : Option Frame) :
    ((c.patch p target).seenAs (c.arrives target)).joinedBy m target (c.joinedBy l target joined) =
      c.joinedBy l target joined := by
  have hpc : ((c.patch p target).seenAs (c.arrives target)).pc = c.pc := c.pc_patch p target
  have halive : ((c.patch p target).seenAs (c.arrives target)).alive = c.arrives target := rfl
  unfold joinedBy
  rw [hpc, halive]
  by_cases h : c.pc = target
  · have harrives : c.arrives target = true := by simp [arrives, h]
    rw [if_pos h, if_pos h, if_pos harrives, Option.getD_some]
  · rw [if_neg h, if_neg h]

/-- A position that has been seen keeps what ends there. -/
theorem endsWithGoto_seenAs (c : Code) (alive : Bool) (l : Link) (target : ℕ) :
    (c.seenAs alive).endsWithGoto l target = false := by
  simp [endsWithGoto, seenAs]

/-- Once a branch has been resolved, the others agree with what it left. -/
theorem compatible_joinedBy {c : Code} {l m : Link} {target : ℕ} {joined : Option Frame}
    (halike : l.frame.compatible m.frame = true)
    (hjoin : c.alive = true → m.frame.compatible (joined.getD c.frame) = true)
    (harrives : c.arrives target = true) :
    m.frame.compatible ((c.joinedBy l target joined).getD c.frame) = true := by
  unfold joinedBy
  cases halive : c.alive with
  | true =>
      have := hjoin halive
      split <;> simpa using this
  | false =>
      have hpc : c.pc = target := by simpa [arrives, halive] using harrives
      rw [if_pos hpc, if_neg Bool.false_ne_true, Option.getD_some, Frame.compatible_comm]
      exact halike

end Code

namespace Emit

variable {c : Code} {l : Link} {rest : Chain} {target : ℕ} {joined : Option Frame}

/-- How a branch is resolved that is not taken back. -/
theorem resolveLinks_cons_eq (htarget : target ≤ c.pc) (hstays : c.endsWithGoto l target = false)
    (hjoin : c.alive = true → l.frame.compatible (joined.getD c.frame) = true) :
    resolveLinks (l :: rest) target joined c =
      resolveLinks rest target (c.joinedBy l target joined)
        ((c.patch l.pc target).seenAs (c.arrives target)) := by
  have hpass : (c.alive && !l.frame.compatible (joined.getD c.frame)) = false := by
    cases halive : c.alive with
    | false => rfl
    | true => rw [hjoin halive]; rfl
  have hland : (modifyGet fun c => ((c.patch l.pc target).land l target joined).swap : Emit
      (Option Frame)) c =
      .ok (c.joinedBy l target joined) ((c.patch l.pc target).seenAs (c.arrives target)) := by
    show EStateM.Result.ok _ _ = _
    rw [Code.land_patch]
  rw [resolveLinks, EStateM.bind_of_ok (show (get : Emit Code) c = .ok c c from rfl)]
  dsimp only
  rw [Nat.min_eq_left htarget, hstays, if_neg Bool.false_ne_true, hpass, if_neg Bool.false_ne_true]
  exact EStateM.bind_of_ok hland

/-- How a chain is resolved of which nothing is taken back. -/
theorem resolveLinks_eq (htarget : target ≤ c.pc) (hstays : c.endsWithGoto l target = false)
    (halike : (l :: rest).Pairwise fun l m => l.frame.compatible m.frame = true)
    (hjoin : c.alive = true → ∀ m ∈ l :: rest, m.frame.compatible (joined.getD c.frame) = true) :
    resolveLinks (l :: rest) target joined c =
      .ok (c.joinedBy l target joined)
        ((c.patchAll (l :: rest) target).seenAs (c.arrives target)) := by
  rw [resolveLinks_cons_eq htarget hstays fun h => hjoin h l List.mem_cons_self]
  induction rest generalizing l c joined with
  | nil => rfl
  | cons m rest ih =>
      obtain ⟨hlike, halike⟩ := List.pairwise_cons.mp halike
      obtain ⟨bs, n, hpatch⟩ := c.patch_eq l.pc target
      have hframe : (c.patch l.pc target).frame = c.frame := by rw [hpatch]
      have hpc : ((c.patch l.pc target).seenAs (c.arrives target)).pc = c.pc :=
        c.pc_patch l.pc target
      have hjoin' : c.arrives target = true → ∀ k ∈ m :: rest,
          k.frame.compatible ((c.joinedBy l target joined).getD (c.patch l.pc target).frame) =
            true := by
        intro harrives k hk
        rw [hframe]
        exact Code.compatible_joinedBy (hlike k hk)
          (fun h => hjoin h k (List.mem_cons_of_mem _ hk)) harrives
      -- the position has been seen by now, so no branch behind is taken back
      have hstays' := (c.patch l.pc target).endsWithGoto_seenAs (c.arrives target) m target
      rw [resolveLinks_cons_eq (hpc ▸ htarget) hstays' (fun h => hjoin' h m List.mem_cons_self),
        ih (hpc ▸ htarget) hstays' halike hjoin', Code.joinedBy_joinedBy, Code.arrives_seenAs,
        Code.patchAll_seenAs]
      rfl

/-- It cannot be resolved in another way. -/
theorem resolveLinks_eq_of_ok {c' : Code} {joined' : Option Frame} (htarget : target ≤ c.pc)
    (hstays : c.endsWithGoto l target = false)
    (h : resolveLinks (l :: rest) target joined c = .ok joined' c') :
    c' = (c.patchAll (l :: rest) target).seenAs (c.arrives target) := by
  have hstep {c : Code} {l : Link} {rest : Chain} {joined : Option Frame} (htarget : target ≤ c.pc)
      (hstays : c.endsWithGoto l target = false)
      (h : resolveLinks (l :: rest) target joined c = .ok joined' c') :
      resolveLinks rest target (c.joinedBy l target joined)
        ((c.patch l.pc target).seenAs (c.arrives target)) = .ok joined' c' := by
    have hcases := resolveLinks_cons_ok h
    rw [Nat.min_eq_left htarget, hstays] at hcases
    obtain ⟨hends, -⟩ | ⟨-, hjoin, -⟩ := hcases
    · cases hends
    · rw [← h, resolveLinks_cons_eq htarget hstays hjoin]
  replace h := hstep htarget hstays h
  induction rest generalizing l c joined with
  | nil =>
      obtain ⟨-, rfl⟩ := EStateM.Result.ok.inj h
      rfl
  | cons m rest ih =>
      have hpc : ((c.patch l.pc target).seenAs (c.arrives target)).pc = c.pc :=
        c.pc_patch l.pc target
      have hstays' := (c.patch l.pc target).endsWithGoto_seenAs (c.arrives target) m target
      rw [ih (hpc ▸ htarget) hstays' (hstep (hpc ▸ htarget) hstays' h), Code.arrives_seenAs,
        Code.patchAll_seenAs]
      rfl

end Emit

/-! ### What resolving a chain does -/

namespace Code

/-- A branch with an offset of the width that the code has stands at `p`. -/
def BranchAt (c : Code) (p : ℕ) : Prop :=
  ∃ i, decodeAt c.bytes p = .ok i ∧ i.op.isBranch = true ∧ i.length = branchSize c.wide

/-- The links of a chain are different branches of the code: no two of them share a byte. -/
structure Carries (c : Code) (chain : Chain) : Prop where
  branch : ∀ l ∈ chain, c.BranchAt l.pc
  apart : chain.Pairwise (Link.Apart c.wide)

/-- Whether resolving a chain to `target` takes back its first branch: a `goto` that ends the code
and leads to this end, which has not been seen yet. -/
def takesBack (c : Code) (chain : Chain) (target : ℕ) : Bool :=
  chain.head?.any (c.endsWithGoto · target)

/-- Where the branches of a chain lead if they are resolved to `target`. -/
def settledTarget (c : Code) (chain : Chain) (target : ℕ) : ℕ :=
  if c.takesBack chain target then target - 3 else target

/-- The branches of a chain that are left if they are resolved to `target`. -/
def settledLinks (c : Code) (chain : Chain) (target : ℕ) : Chain :=
  if c.takesBack chain target then chain.tail else chain

/-- The branches of a chain have got the target `t`, as far as their offsets fit, and nothing else
has changed in the bytes that are left. -/
structure Retargeted (c : Code) (chain : Chain) (t : ℕ) (c' : Code) : Prop where
  wide : c.wide = true → ∀ l ∈ chain, intAt c'.bytes (l.pc + 1) = .ok
    (Int.bmod ((t : Int) - l.pc) 0x100000000)
  near : c.wide = false → ∀ l ∈ chain, Near l.pc t →
    shortAt c'.bytes (l.pc + 1) = .ok ((t : Int) - l.pc)
  far : c.wide = false → ∀ l ∈ chain, ¬ Near l.pc t → Agree c.bytes c'.bytes (l.pc + 1) (l.pc + 3)
  noted : c'.needsWide = true ↔ c.needsWide = true ∨ c.wide = false ∧ ∃ l ∈ chain, ¬ Near l.pc t
  others : ∀ k < c'.pc, (∀ l ∈ chain, k ≤ l.pc ∨ l.pc + branchSize c.wide ≤ k) →
    c'.bytes[k]? = c.bytes[k]?

theorem retargeted_patchAll {c : Code} {chain : Chain} {t : ℕ}
    (hwithin : ∀ l ∈ chain, l.pc + branchSize c.wide ≤ c.pc)
    (hapart : chain.Pairwise (Link.Apart c.wide)) :
    c.Retargeted chain t (c.patchAll chain t) where
  wide hw l hl := by
    have hagree := agree_patchAll (t := t) hwithin hapart hl
    have hl := hwithin l hl
    rw [hw] at hagree hl
    rw [intAt_congr hagree, intAt_patch hw hl]
  near hw l hl hnear := by
    have hagree := agree_patchAll (t := t) hwithin hapart hl
    have hl := hwithin l hl
    rw [hw] at hagree hl
    rw [shortAt_congr hagree, shortAt_patch hw hl hnear]
  far hw l hl hfar := by
    have hagree := agree_patchAll (t := t) hwithin hapart hl
    rwa [patch_of_far hw hfar, hw] at hagree
  noted := needsWide_patchAll_iff c chain t
  others _ _ hout := getElem?_patchAll hwithin hout

/-- The same, told of code that had more bytes behind. -/
theorem Retargeted.of_drop {c d c' : Code} {chain : Chain} {t : ℕ} (h : d.Retargeted chain t c')
    (hwide : d.wide = c.wide) (hneeds : d.needsWide = c.needsWide)
    (hbytes : Agree c.bytes d.bytes 0 d.pc) (hpc : c'.pc = d.pc)
    (hwithin : ∀ l ∈ chain, l.pc + branchSize c.wide ≤ d.pc) :
    c.Retargeted chain t c' where
  wide := hwide ▸ h.wide
  near := hwide ▸ h.near
  far hw l hl hfar := by
    have hl' := hwithin l hl
    rw [hw] at hl'
    exact (hbytes.mono (Nat.zero_le _) hl').trans (h.far (hwide.trans hw) l hl hfar)
  noted := by rw [h.noted, hwide, hneeds]
  others k hk hout :=
    (h.others k hk (hwide ▸ hout)).trans (hbytes k (Nat.zero_le _) (hpc ▸ hk))

/-- The same, where the chain began with a `goto` that has been taken back. -/
theorem retargeted_dropTail {c : Code} {l : Link} {rest : Chain} {t : ℕ} (hnarrow : c.wide = false)
    (hend : l.pc + 3 = c.pc) (hwithin : ∀ m ∈ l :: rest, m.pc + branchSize c.wide ≤ c.pc)
    (hapart : (l :: rest).Pairwise (Link.Apart c.wide)) :
    c.Retargeted rest t ((c.dropTail 3).patchAll rest t) := by
  obtain ⟨hothers, hapart⟩ := List.pairwise_cons.mp hapart
  obtain ⟨vars, slots, htail⟩ := c.dropTail_eq 3
  have hwide : (c.dropTail 3).wide = c.wide := by rw [htail]
  have hneeds : (c.dropTail 3).needsWide = c.needsWide := by rw [htail]
  have hbytes : Agree c.bytes (c.dropTail 3).bytes 0 (c.dropTail 3).pc := by
    rw [c.size_dropTail 3, htail]
    exact Agree.shrink _ _ _
  have hsize : branchSize c.wide = 3 := by rw [hnarrow]; rfl
  have hbefore : ∀ m ∈ rest, m.pc + branchSize c.wide ≤ (c.dropTail 3).pc := by
    intro m hm
    have := hwithin m (List.mem_cons_of_mem _ hm)
    rw [c.size_dropTail 3]
    rcases hothers m hm with h | h <;> omega
  exact (retargeted_patchAll (hwide ▸ hbefore) (hwide ▸ hapart)).of_drop hwide hneeds hbytes
    (pc_patchAll _ _ _) hbefore

theorem BranchAt.within {c : Code} {p : ℕ} (h : c.BranchAt p) : p + branchSize c.wide ≤ c.pc := by
  obtain ⟨i, hi, -, hlength⟩ := h
  rw [← hlength]
  exact le_size_of_decodeAt hi

theorem branchAt_of_byte {c : Code} {p : ℕ} {op : Opcode} (hbyte : c.bytes[p]? = some op)
    (hbranch : op.isBranch = true) (hlength : op.length? = some (branchSize c.wide))
    (hsize : p + branchSize c.wide ≤ c.pc) : c.BranchAt p := by
  obtain ⟨n, hn⟩ : ∃ n, branchSize c.wide = n + 1 := by
    cases c.wide with
    | true => exact ⟨4, rfl⟩
    | false => exact ⟨2, rfl⟩
  rw [hn] at hlength hsize
  exact ⟨⟨p, op, n + 1, false⟩,
    decodeAt_eq_ok.mpr ⟨op, n + 1, false, shapeAt_of_length hbyte hlength, hsize, rfl⟩,
    hbranch, hn.symm⟩

theorem Carries.within {c : Code} {chain : Chain} (h : c.Carries chain) :
    ∀ l ∈ chain, l.pc + branchSize c.wide ≤ c.pc :=
  fun l hl => (h.branch l hl).within

/-- In wide code there is no narrow `goto`, so nothing is taken back. -/
theorem BranchAt.get1_ne_goto {c : Code} {p : ℕ} (h : c.BranchAt p) (hwide : c.wide = true) :
    c.get1 p ≠ Opcode.goto := by
  obtain ⟨i, hi, -, hlength⟩ := h
  obtain ⟨op, n, w, hshape, hsize, rfl⟩ := decodeAt_eq_ok.mp hi
  intro hgoto
  have hbyte : c.bytes[p]? = some Opcode.goto := by
    have hp : p < c.bytes.size := by
      have := shapeAt_pos hshape
      omega
    rw [← hgoto, get1, Array.getD_eq_getD_getElem?, Array.getElem?_eq_getElem hp, Option.getD_some]
  rw [shapeAt_of_length hbyte (show Opcode.goto.length? = some 3 by decide +kernel)] at hshape
  cases hshape
  rw [hwide] at hlength
  cases hlength

/-- What is taken back is a narrow `goto` at the end of the code. -/
theorem Carries.of_takesBack {c : Code} {l : Link} {rest : Chain} {target : ℕ}
    (hcarries : c.Carries (l :: rest)) (hback : c.takesBack (l :: rest) target = true) :
    c.wide = false ∧ c.endsWithGoto l c.pc = true ∧ l.pc + 3 = c.pc ∧ target = c.pc := by
  have hends : c.endsWithGoto l target = true := hback
  have hparts := hends
  simp only [endsWithGoto, Bool.and_eq_true, beq_iff_eq, Bool.not_eq_true'] at hparts
  obtain ⟨⟨⟨hgoto, hend⟩, htarget⟩, -⟩ := hparts
  subst htarget
  refine ⟨?_, hends, hend, rfl⟩
  cases hwide : c.wide with
  | false => rfl
  | true => exact absurd hgoto ((hcarries.branch l List.mem_cons_self).get1_ne_goto hwide)

theorem Retargeted.of_eq {c c₁ c' : Code} {chain : Chain} {t : ℕ} (h : c.Retargeted chain t c₁)
    (hbytes : c'.bytes = c₁.bytes) (hneeds : c'.needsWide = c₁.needsWide) :
    c.Retargeted chain t c' where
  wide := hbytes ▸ h.wide
  near := hbytes ▸ h.near
  far := hbytes ▸ h.far
  noted := hneeds ▸ h.noted
  others k hk := by
    unfold pc at hk
    rw [hbytes] at hk ⊢
    exact h.others k hk

end Code

namespace Emit

/-- How a `goto` at the head of a chain is taken back. -/
theorem resolveLinks_dropTail {c : Code} {l : Link} (rest : Chain)
    (hback : c.endsWithGoto l c.pc = true) :
    resolveLinks (l :: rest) c.pc none c =
      if rest.isEmpty then .ok none { c.dropTail 3 with alive := true }
      else resolveLinks rest (c.pc - 3) (some (if c.alive then c.frame else l.frame))
        ((c.dropTail 3).seenAs true) := by
  rw [resolveLinks, EStateM.bind_of_ok (show (get : Emit Code) c = .ok c c from rfl)]
  dsimp only
  rw [Nat.min_self, if_pos hback]
  split
  · rfl
  · show resolveLinks rest (c.pc - 3) ((c.dropTail 3).land l (c.pc - 3) none).2
      ((c.dropTail 3).land l (c.pc - 3) none).1 = _
    rw [Code.land_dropTail]

end Emit

/-- The code with the state that the branches agree on, if they have one. -/
def Code.rejoin (c : Code) : Option Frame → Code
  | none => c
  | some frame => noteDepth { c with frame }

theorem Code.bytes_rejoin (c : Code) (joined : Option Frame) :
    (c.rejoin joined).bytes = c.bytes := by
  cases joined <;> rfl

theorem Code.needsWide_rejoin (c : Code) (joined : Option Frame) :
    (c.rejoin joined).needsWide = c.needsWide := by
  cases joined <;> rfl

theorem Code.alive_rejoin (c : Code) (joined : Option Frame) :
    (c.rejoin joined).alive = c.alive := by
  cases joined <;> rfl

theorem Code.frame_rejoin (c : Code) (joined : Option Frame) :
    (c.rejoin joined).frame = joined.getD c.frame := by
  cases joined <;> rfl

theorem Code.depth_rejoin {c : Code} (h : c.frame.depth ≤ c.maxStack) (joined : Option Frame) :
    (c.rejoin joined).frame.depth ≤ (c.rejoin joined).maxStack := by
  cases joined with
  | none => exact h
  | some frame => exact Nat.le_max_right _ _

namespace Emit

theorem resolveTo_eq {chain : Chain} {target : ℕ} {c c' : Code} {joined : Option Frame}
    (h : resolveLinks chain target none c = .ok joined c') :
    resolveTo chain target c = .ok () (c'.rejoin joined) := by
  unfold resolveTo
  rw [EStateM.bind_of_ok h]
  cases joined <;> rfl

/-- What a walk down a chain comes to, which gives the branches `kept` of it the target `t` in the
code `base`. -/
structure Walked (base : Code) (chain kept : Chain) (t : ℕ) (joined : Option Frame)
    (c' : Code) : Prop where
  bytes : c'.bytes = (base.patchAll kept t).bytes
  needsWide : c'.needsWide = (base.patchAll kept t).needsWide
  depth : c'.frame.depth ≤ c'.maxStack
  joins : t = base.pc → c'.alive = true ∧
    ∀ l ∈ chain, l.frame.compatible (joined.getD c'.frame) = true

variable {c : Code} {l : Link} {rest : Chain} {target : ℕ}

theorem walked_kept (hdepth : c.frame.depth ≤ c.maxStack) (htarget : target ≤ c.pc)
    (hstays : c.endsWithGoto l target = false)
    (halike : (l :: rest).Pairwise fun l m => l.frame.compatible m.frame = true)
    (hjoin : c.alive = true → ∀ m ∈ l :: rest, m.frame.compatible c.frame = true) :
    ∃ joined c', resolveLinks (l :: rest) target none c = .ok joined c' ∧
      Walked c (l :: rest) (l :: rest) target joined c' := by
  obtain ⟨bs, n, hpatch⟩ := c.patchAll_eq (l :: rest) target
  refine ⟨_, _, resolveLinks_eq htarget hstays halike hjoin, rfl, rfl, ?_, ?_⟩
  · rw [hpatch]
    exact hdepth
  · rintro rfl
    refine ⟨by simp [Code.seenAs, Code.arrives], fun m hm => ?_⟩
    rw [Code.joinedBy, if_pos rfl, Option.getD_some]
    split
    · exact hjoin ‹_› m hm
    · rcases List.mem_cons.mp hm with rfl | hm
      · exact Frame.compatible_refl _
      · rw [Frame.compatible_comm]
        exact (List.pairwise_cons.mp halike).1 m hm

theorem walked_back (hdepth : c.frame.depth ≤ c.maxStack) (hback : c.endsWithGoto l c.pc = true)
    (halike : (l :: rest).Pairwise fun l m => l.frame.compatible m.frame = true)
    (hjoin : ∀ m ∈ l :: rest, m.frame.compatible c.frame = true) :
    ∃ joined c', resolveLinks (l :: rest) c.pc none c = .ok joined c' ∧
      Walked (c.dropTail 3) (l :: rest) rest (c.pc - 3) joined c' := by
  obtain ⟨vars, slots, htail⟩ := c.dropTail_eq 3
  have hframe : (c.dropTail 3).frame = c.frame := by rw [htail]
  have hmax : (c.dropTail 3).maxStack = c.maxStack := by rw [htail]
  rw [resolveLinks_dropTail rest hback]
  cases rest with
  | nil =>
      refine ⟨_, _, rfl, rfl, rfl, ?_, fun _ => ⟨rfl, fun m hm => ?_⟩⟩
      · show (c.dropTail 3).frame.depth ≤ (c.dropTail 3).maxStack
        rw [hframe, hmax]
        exact hdepth
      · show m.frame.compatible (c.dropTail 3).frame = true
        rw [hframe]
        exact hjoin m hm
  | cons m rest =>
      obtain ⟨hlike, halike⟩ := List.pairwise_cons.mp halike
      have hdecided : ∀ k ∈ l :: m :: rest,
          k.frame.compatible (if c.alive then c.frame else l.frame) = true := by
        intro k hk
        split
        · exact hjoin k hk
        · rcases List.mem_cons.mp hk with rfl | hk
          · exact Frame.compatible_refl _
          · rw [Frame.compatible_comm]
            exact hlike k hk
      have hpc : ((c.dropTail 3).seenAs true).pc = c.pc - 3 := c.size_dropTail 3
      obtain ⟨bs, n, hpatch⟩ := (c.dropTail 3).patchAll_eq (m :: rest) (c.pc - 3)
      refine ⟨_, _, resolveLinks_eq (by rw [hpc]) (Code.endsWithGoto_seenAs _ _ _ _) halike
        (fun _ k hk => hdecided k (List.mem_cons_of_mem _ hk)), ?_⟩
      rw [Code.patchAll_seenAs]
      refine ⟨rfl, rfl, ?_, fun _ => ⟨by simp [Code.seenAs, Code.arrives], fun k hk => ?_⟩⟩
      · show ((c.dropTail 3).patchAll (m :: rest) (c.pc - 3)).frame.depth ≤
          ((c.dropTail 3).patchAll (m :: rest) (c.pc - 3)).maxStack
        rw [hpatch]
        show (c.dropTail 3).frame.depth ≤ (c.dropTail 3).maxStack
        rw [hframe, hmax]
        exact hdepth
      · rw [Code.joinedBy, if_pos hpc]
        exact hdecided k hk

/-- What holds of the code once the walk is over and the state is set. -/
theorem Walked.rejoin {base c₁ : Code} {chain kept : Chain} {t : ℕ} {joined : Option Frame}
    (h : Walked base chain kept t joined c₁) (hkept : c.Retargeted kept t (base.patchAll kept t)) :
    (c₁.rejoin joined).pc = base.pc ∧ c.Retargeted kept t (c₁.rejoin joined) ∧
      (t = (c₁.rejoin joined).pc → (c₁.rejoin joined).alive = true ∧
        (∀ l ∈ chain, l.frame.compatible (c₁.rejoin joined).frame = true) ∧
        (c₁.rejoin joined).frame.depth ≤ (c₁.rejoin joined).maxStack) := by
  have hpc : (c₁.rejoin joined).pc = base.pc := by
    rw [← base.pc_patchAll kept t]
    unfold Code.pc
    rw [Code.bytes_rejoin, h.bytes]
  refine ⟨hpc, hkept.of_eq ?_ ?_, fun ht => ?_⟩
  · rw [Code.bytes_rejoin, h.bytes]
  · rw [Code.needsWide_rejoin, h.needsWide]
  · obtain ⟨halive, hjoined⟩ := h.joins (ht.trans hpc)
    rw [Code.alive_rejoin, Code.frame_rejoin]
    refine ⟨halive, hjoined, ?_⟩
    rw [← Code.frame_rejoin]
    exact Code.depth_rejoin h.depth joined

/-- A chain of branches of the code can be resolved to any place up to the end of the code. A `goto`
that only leads behind itself is taken back, which takes the target along. -/
theorem resolveTo_retargets {c : Code} {chain : Chain} {target : ℕ}
    (hdepth : c.frame.depth ≤ c.maxStack) (hne : chain ≠ []) (hcarries : c.Carries chain)
    (halike : chain.Pairwise fun l m => l.frame.compatible m.frame = true)
    (hjoin : c.alive = true ∨ c.takesBack chain target = true →
      ∀ l ∈ chain, l.frame.compatible c.frame = true)
    (htarget : target ≤ c.pc) :
    ∃ c', resolveTo chain target c = .ok () c' ∧
      c'.pc = (if c.takesBack chain target then c.pc - 3 else c.pc) ∧
      c.Retargeted (c.settledLinks chain target) (c.settledTarget chain target) c' ∧
      (c.settledTarget chain target = c'.pc →
        c'.alive = true ∧ (∀ l ∈ chain, l.frame.compatible c'.frame = true) ∧
          c'.frame.depth ≤ c'.maxStack) := by
  obtain ⟨l, rest, rfl⟩ := List.exists_cons_of_ne_nil hne
  unfold Code.settledLinks Code.settledTarget
  cases hback : c.takesBack (l :: rest) target with
  | false =>
      obtain ⟨joined, c₁, hrun, hwalked⟩ := walked_kept hdepth htarget hback halike fun h =>
        hjoin (.inl h)
      exact ⟨_, resolveTo_eq hrun,
        hwalked.rejoin (Code.retargeted_patchAll hcarries.within hcarries.apart)⟩
  | true =>
      obtain ⟨hnarrow, hends, hend, rfl⟩ := hcarries.of_takesBack hback
      obtain ⟨joined, c₁, hrun, hwalked⟩ := walked_back hdepth hends halike (hjoin (.inr hback))
      have hresolved := hwalked.rejoin
        (Code.retargeted_dropTail hnarrow hend hcarries.within hcarries.apart)
      rw [c.size_dropTail 3] at hresolved
      exact ⟨_, resolveTo_eq hrun, hresolved⟩

/-- A branch on a condition and a `goto` behind it, both to the end of the code. -/
def forkedCode : Code := { bytes := #[Opcode.ifeq, 0, 0, Opcode.goto, 0, 0], alive := false }

/-- The `goto` is taken back, and the branch leads to where it stood. -/
theorem resolveTo_forkedCode : ∃ c', resolveTo [⟨3, {}⟩, ⟨0, {}⟩] 6 forkedCode = .ok () c' ∧
    c'.pc = 3 ∧ shortAt c'.bytes 1 = .ok 3 ∧ c'.alive = true := by
  have hcarries : forkedCode.Carries [⟨3, {}⟩, ⟨0, {}⟩] := by
    refine ⟨?_, ?_⟩
    · simp only [List.mem_cons, List.not_mem_nil, or_false, forall_eq_or_imp, forall_eq]
      exact ⟨@Code.branchAt_of_byte _ _ .goto rfl (by decide) (by decide +kernel) (by decide),
        @Code.branchAt_of_byte _ _ .ifeq rfl (by decide) (by decide +kernel) (by decide)⟩
    · simp [Link.Apart, branchSize, forkedCode]
  obtain ⟨c', hrun, hpc, hkept, hjoined⟩ := @resolveTo_retargets forkedCode _ 6 (by decide)
    (by decide) hcarries (by decide) (by decide) (by decide)
  exact ⟨c', hrun, hpc, hkept.near rfl ⟨0, {}⟩ (by decide) (by decide), (hjoined hpc.symm).1⟩

end Emit

end StackCode
