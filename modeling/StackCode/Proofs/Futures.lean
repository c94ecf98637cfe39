import Mathlib.Data.Set.Insert
import StackCode.Proofs.Machine

/-!
# What becomes of code

Code is written before the targets of its branches are known, and a trailing `goto` may be taken
back. So what a piece of code does is told by what it may become: `c.Becomes H p g` says that the
program `p` may come out of the code `c`, if the branches that wait for the next instruction will
lead to `g` and every other open branch to the place that the plan `H` gives it. A step of the
generator is then described backwards: whatever the code behind the step becomes, the code before
it becomes as well, and running it takes the machine from one place to the other.

Control comes to the end of the code by falling through or by a waiting branch; `c.Arrival g e` says
that it may come to be at `e` then. The two need not be the same place, because a `goto` takes the
waiting branches over instead of letting them land on it.

`Code.Ready` is what makes the branches land: they do not overlap, a `goto` is taken back only
where control is not, and all of them bring the same depth of the stack. Then
`Emit.resolvePending` succeeds and is described by `Code.Flushed`.
-/

namespace StackCode

open Instruction

/-! ### Open branches -/

/-- The bytes of an open branch, its offset included. -/
def branchSize (wide : Bool) : ℕ := if wide then 5 else 3

/-- Where open branches will lead. -/
abbrev Plan := Set (Link × ℕ)

/-- The plan concerns none but these branches. -/
def Plan.Over (H : Plan) (O : List Link) : Prop := ∀ o ∈ H, o.1 ∈ O

/-- The frame has `d` words on the stack and these monitors. -/
def Frame.Has (f : Frame) (d : ℕ) (locks : List UInt16) : Prop := f.depth = d ∧ f.locks = locks

theorem Frame.Has.compatible {f f' : Frame} {d : ℕ} {locks : List UInt16} (h : f.Has d locks)
    (h' : f'.Has d locks) : f.compatible f' = true :=
  Frame.compatible_iff.mpr ⟨h.1.trans h'.1.symm, h.2.trans h'.2.symm⟩

namespace Chain

/-- The plan that all branches of a chain lead to `t`. -/
def toward (c : Chain) (t : ℕ) : Plan := {o | o.1 ∈ c ∧ o.2 = t}

@[simp] theorem mem_toward {c : Chain} {t : ℕ} {o : Link × ℕ} :
    o ∈ c.toward t ↔ o.1 ∈ c ∧ o.2 = t :=
  Iff.rfl

@[simp] theorem toward_nil (t : ℕ) : toward [] t = ∅ := by
  ext o
  simp

theorem toward_of_perm {a b c : Chain} (h : c.Perm (a ++ b)) (t : ℕ) :
    c.toward t = a.toward t ∪ b.toward t := by
  ext o
  simp only [mem_toward, h.mem_iff, List.mem_append, Set.mem_union, or_and_right]

/-- The branches arrive with `d` words on the stack and these monitors. -/
def Arrives (c : Chain) (d : ℕ) (locks : List UInt16) : Prop := ∀ l ∈ c, l.frame.Has d locks

/-- Chains that arrive alike can be merged. -/
theorem Arrives.merge {a b : Chain} {d : ℕ} {locks : List UInt16} (ha : a.Arrives d locks)
    (hb : b.Arrives d locks) : ∃ c, a.merge b = .ok c := by
  fun_induction Chain.merge a b with
  | case1 b => exact ⟨b, rfl⟩
  | case2 a _ => exact ⟨a, rfl⟩
  | case3 x a y b _ _ ih =>
      obtain ⟨c, hc⟩ := ih ha fun l hl => hb l (List.mem_cons_of_mem _ hl)
      exact ⟨y :: c, by rw [hc]; rfl⟩
  | case4 x a y b _ _ ih =>
      obtain ⟨c, hc⟩ := ih (fun l hl => ha l (List.mem_cons_of_mem _ hl)) hb
      exact ⟨x :: c, by rw [hc]; rfl⟩
  | case5 x a y b hno =>
      exact absurd ((ha x List.mem_cons_self).compatible (hb y List.mem_cons_self)) hno

end Chain

/-- The offset of the branch at `q` is the one to `t`. -/
def Leads (wide : Bool) (bs : Array UInt8) (q t : ℕ) : Prop :=
  if wide then intAt bs (q + 1) = .ok ((t : Int) - q) else shortAt bs (q + 1) = .ok ((t : Int) - q)

theorem Leads.of_agree {wide : Bool} {bs bs' : Array UInt8} {q t : ℕ} (h : Leads wide bs q t)
    (hab : Agree bs bs' (q + 1) (q + branchSize wide)) : Leads wide bs' q t := by
  cases wide with
  | true => exact (intAt_congr hab).trans h
  | false => exact (shortAt_congr hab).trans h

/-- Two branches do not overlap. -/
def Link.Apart (wide : Bool) (l m : Link) : Prop :=
  l.pc + branchSize wide ≤ m.pc ∨ m.pc + branchSize wide ≤ l.pc

theorem Link.Apart.symm {wide : Bool} {l m : Link} (h : l.Apart wide m) : m.Apart wide l :=
  Or.symm h

theorem three_le_branchSize (wide : Bool) : 3 ≤ branchSize wide := by
  cases wide <;> decide

namespace Code

/-! ### Writing an offset -/

/-- An offset that fits leads to the target. -/
theorem leads_patch {c : Code} {q t : ℕ} (hnarrow : (c.patch q t).needsWide = false)
    (hq : q + branchSize c.wide ≤ c.pc) (ht : t ≤ c.pc) (hpc : c.pc ≤ 0x10002) :
    Leads c.wide (c.patch q t).bytes q t := by
  unfold patch at hnarrow ⊢
  unfold pc at hq ht hpc
  cases hwide : c.wide with
  | true =>
      rw [hwide] at hq
      have hfit : q + 1 + 4 ≤ c.bytes.size := hq
      have hoffset : (Int32.ofInt ((t : Int) - q)).toInt = (t : Int) - q := by
        rw [Int32.toInt_ofInt]
        exact Int.bmod_eq_of_le (by simp only [Int32.size]; omega)
          (by simp only [Int32.size]; omega)
      show intAt (c.set4 (q + 1) _).bytes (q + 1) = _
      rw [intAt_set4 c _ _ hfit, hoffset]
  | false =>
      rw [hwide] at hq hnarrow
      have hfit : q + 1 + 2 ≤ c.bytes.size := hq
      simp only [Bool.false_eq_true, if_false] at hnarrow ⊢
      split at hnarrow
      · cases hnarrow
      · rename_i hrange
        rw [if_neg hrange]
        simp only [Bool.or_eq_true, decide_eq_true_eq, not_or, not_lt] at hrange
        show shortAt (c.set2 (q + 1) _).bytes (q + 1) = _
        rw [shortAt_set2 c _ _ hfit, bmod_ofInt hrange.1 (by omega)]

theorem needsWide_patch_of_wide {c : Code} (h : c.wide = true) (q t : ℕ) :
    (c.patch q t).needsWide = c.needsWide := by
  unfold patch
  rw [if_pos h]
  obtain ⟨bs, hbs⟩ := c.set4_eq (q + 1) (.ofInt ((t : Int) - q))
  rw [hbs]
  rfl

/-- The branches of a chain have got the end of the code for their target. -/
structure Patched (c c' : Code) (chain : Chain) : Prop where
  else_ : ∃ bytes needsWide fixed alive, c' = { c with bytes, needsWide, fixed, alive }
  size : c'.pc = c.pc
  same : ∀ i, (∀ l ∈ chain, i ≤ l.pc ∨ l.pc + branchSize c.wide ≤ i) → c'.bytes[i]? = c.bytes[i]?
  leads : c'.needsWide = false → c.pc ≤ 0x10002 → ∀ l ∈ chain, Leads c.wide c'.bytes l.pc c.pc
  narrow : c'.needsWide = false → c.needsWide = false
  far : c.wide = true → c'.needsWide = c.needsWide

theorem Patched.nil (c : Code) : Patched c c [] where
  else_ := ⟨_, _, _, _, rfl⟩
  size := rfl
  same := fun _ _ => rfl
  leads := fun _ _ _ hl => by cases hl
  narrow := id
  far := fun _ => rfl

/-- One more branch in front; those behind it do not touch it. -/
theorem Patched.cons {c c₁ c' : Code} {l : Link} {rest : Chain} {fixed alive : Bool}
    (hc₁ : c₁ = { c.patch l.pc c.pc with fixed, alive }) (h : Patched c₁ c' rest)
    (hwithin : l.pc + branchSize c.wide ≤ c.pc) (hapart : ∀ m ∈ rest, l.Apart c.wide m) :
    Patched c c' (l :: rest) := by
  obtain ⟨bs, n, hpatch⟩ := c.patch_eq l.pc c.pc
  have hbytes : c₁.bytes = (c.patch l.pc c.pc).bytes := by rw [hc₁]
  have hneeds : c₁.needsWide = (c.patch l.pc c.pc).needsWide := by rw [hc₁]
  have hwide : c₁.wide = c.wide := by rw [hc₁, hpatch]
  have hpc : c₁.pc = c.pc := by
    unfold pc
    rw [hbytes, size_patch]
  constructor
  case else_ =>
    obtain ⟨bytes, needsWide, fixed', alive', hc'⟩ := h.else_
    exact ⟨bytes, needsWide, fixed', alive', by rw [hc', hc₁, hpatch]⟩
  case size => rw [h.size, hpc]
  case same =>
    intro i hi
    rw [h.same i (by rw [hwide]; exact fun m hm => hi m (List.mem_cons_of_mem _ hm)), hbytes]
    have hagree : Agree c.bytes (c.patch l.pc c.pc).bytes i (i + 1) := agree_patch c hwithin
      (by have := hi l List.mem_cons_self; unfold branchSize at this; omega)
    exact hagree i (Nat.le_refl _) (Nat.lt_succ_self _)
  case leads =>
    intro hnarrow hsize m hm
    rcases List.mem_cons.mp hm with rfl | hm
    · have hfirst : Leads c.wide c₁.bytes m.pc c.pc := by
        rw [hbytes]
        exact leads_patch (hneeds ▸ h.narrow hnarrow) hwithin (Nat.le_refl _) hsize
      refine hfirst.of_agree fun i hlo hhi => h.same i fun k hk => ?_
      rw [hwide]
      rcases hapart k hk with hbefore | hbehind <;> omega
    · have := h.leads hnarrow (by rw [hpc]; exact hsize) m hm
      rwa [hwide, hpc] at this
  case narrow =>
    intro hnarrow
    have hno := hneeds ▸ h.narrow hnarrow
    cases hc : c.needsWide with
    | false => rfl
    | true => rw [needsWide_patch c _ _ hc] at hno; cases hno
  case far =>
    intro hw
    rw [h.far (hwide ▸ hw), hneeds, needsWide_patch_of_wide hw]

end Code

/-- A chain is resolved to the end of the code, no `goto` of which may be taken back. -/
theorem Emit.resolveLinks_patched (chain : Chain) (joined : Option Frame) {c : Code} {d : ℕ}
    {locks : List UInt16} (hfirst : ∀ l ∈ chain.head?, c.endsWithGoto l c.pc = false)
    (hwithin : ∀ l ∈ chain, l.pc + branchSize c.wide ≤ c.pc)
    (hapart : chain.Pairwise (Link.Apart c.wide))
    (hlevel : c.alive = true → (joined.getD c.frame).Has d locks)
    (harrives : chain.Arrives d locks) :
    ∃ j c', resolveLinks chain c.pc joined c = .ok j c' ∧ c.Patched c' chain ∧
      (chain ≠ [] → c'.fixed = true ∧ c'.alive = true ∧ ∃ f, j = some f ∧ f.Has d locks) := by
  induction chain generalizing c joined with
  | nil => exact ⟨joined, c, rfl, .nil c, fun h => absurd rfl h⟩
  | cons l rest ih =>
      have hno : c.endsWithGoto l (min c.pc c.pc) = false := by
        rw [Nat.min_self]
        exact hfirst l rfl
      have hjoin : (c.alive && !l.frame.compatible (joined.getD c.frame)) = false := by
        cases halive : c.alive with
        | false => rfl
        | true => rw [(harrives l List.mem_cons_self).compatible (hlevel halive)]; rfl
      obtain ⟨bs, n, hpatch⟩ := c.patch_eq l.pc c.pc
      have hsize : (c.patch l.pc c.pc).pc = c.pc := by
        unfold Code.pc
        rw [Code.size_patch]
      -- the branch lands at the end of the code, so control is there
      obtain ⟨c₁, f, hland, hc₁, hf⟩ :
          ∃ c₁ f, (c.patch l.pc c.pc).land l c.pc joined = (c₁, some f) ∧
          c₁ = { c.patch l.pc c.pc with fixed := true, alive := true } ∧ f.Has d locks := by
        unfold Code.land
        rw [if_pos (show ({ c.patch l.pc c.pc with fixed := true } : Code).pc = c.pc from hsize)]
        cases halive : c.alive with
        | false =>
            rw [if_pos (by rw [hpatch, halive]; rfl)]
            exact ⟨_, _, rfl, rfl, harrives l List.mem_cons_self⟩
        | true =>
            have halive' : (c.patch l.pc c.pc).alive = true := by rw [hpatch]; exact halive
            rw [if_neg (by simp only [halive']; decide)]
            refine ⟨_, _, rfl, by rw [← halive'], ?_⟩
            have hframe : (c.patch l.pc c.pc).frame = c.frame := by rw [hpatch]
            show (joined.getD (c.patch l.pc c.pc).frame).Has d locks
            rw [hframe]
            exact hlevel halive
      have hpc₁ : c₁.pc = c.pc := by rw [hc₁]; exact hsize
      have hwide₁ : c₁.wide = c.wide := by rw [hc₁, hpatch]
      have hfixed₁ : c₁.fixed = true := by rw [hc₁]
      have halive₁ : c₁.alive = true := by rw [hc₁]
      obtain ⟨hhead, htail⟩ := List.pairwise_cons.mp hapart
      obtain ⟨j, c', hrun, hpatched, hend⟩ := ih (c := c₁) (some f)
        (fun m _ => by simp [Code.endsWithGoto, hfixed₁])
        (by rw [hwide₁, hpc₁]; exact fun m hm => hwithin m (List.mem_cons_of_mem _ hm))
        (by rw [hwide₁]; exact htail) (fun _ => hf) fun m hm =>
          harrives m (List.mem_cons_of_mem _ hm)
      refine ⟨j, c', ?_, .cons hc₁ hpatched (hwithin l List.mem_cons_self) hhead, fun _ => ?_⟩
      · rw [hpc₁] at hrun
        rw [resolveLinks]
        refine EStateM.bind_eq_ok.mpr ⟨c, c, rfl, ?_⟩
        rw [hno, if_neg Bool.false_ne_true, hjoin, if_neg Bool.false_ne_true]
        refine EStateM.bind_eq_ok.mpr ⟨some f, c₁, ?_, by rw [Nat.min_self]; exact hrun⟩
        show EStateM.Result.ok _ _ = _
        rw [Nat.min_self, hland]
      · cases rest with
        | nil =>
            cases hrun
            exact ⟨hfixed₁, halive₁, f, rfl, hf⟩
        | cons m rest => exact hend (List.cons_ne_nil m rest)

/-! ### Programs that come out of code -/

/-- The first `n` bytes go into the program, and the open branches among them lead where the plan
says. -/
structure Fits (wide : Bool) (L : Plan) (bs : Array UInt8) (n : ℕ) (p : Program) : Prop where
  size : n ≤ p.bytes.size
  same : ∀ i < n, (∀ o ∈ L, i ≤ o.1.pc ∨ o.1.pc + branchSize wide ≤ i) → p.bytes[i]? = bs[i]?
  leads : ∀ o ∈ L, o.1.pc < n → Leads wide p.bytes o.1.pc o.2

namespace Fits

variable {wide : Bool} {L H : Plan} {bs bs' : Array UInt8} {n : ℕ} {p : Program}

theorem of_agree (h : Fits wide L bs n p) (hab : Agree bs bs' 0 n) : Fits wide L bs' n p where
  size := h.size
  same := fun i hi hout => (h.same i hi hout).trans (hab i (Nat.zero_le _) hi).symm
  leads := h.leads

/-- A branch behind the bytes may lead anywhere. -/
theorem behind (h : Fits wide L bs n p) {o : Link × ℕ} (ho : n ≤ o.1.pc) :
    Fits wide (insert o L) bs n p where
  size := h.size
  same := fun i hi hout => h.same i hi fun o' ho' => hout o' (.inr ho')
  leads := by
    rintro o' (rfl | ho') hlt
    · omega
    · exact h.leads o' ho' hlt

/-- Before the branches of a chain got the end of the code for their target, they were open. -/
theorem unpatch {c c' : Code} {chain : Chain} {O : List Link} (hpatched : c.Patched c' chain)
    (h : Fits c.wide H c'.bytes c.pc p) (hnarrow : c'.needsWide = false)
    (hshort : p.bytes.size ≤ 0xFFFF) (hover : H.Over O)
    (hwithin : ∀ l ∈ chain, l.pc + branchSize c.wide ≤ c.pc)
    (hapart : ∀ l ∈ chain, ∀ m ∈ O, l.Apart c.wide m) :
    Fits c.wide (chain.toward c.pc ∪ H) c.bytes c.pc p where
  size := h.size
  same := by
    intro i hi hout
    rw [h.same i hi fun o ho => hout o (.inr ho)]
    exact hpatched.same i fun l hl => hout (l, c.pc) (.inl ⟨hl, rfl⟩)
  leads := by
    rintro ⟨l, t⟩ (⟨hl, rfl⟩ | ho) hlt
    · have hsize := h.size
      refine (hpatched.leads hnarrow (by omega) l hl).of_agree fun i hlo hhi => ?_
      have := hwithin l hl
      refine h.same i (by omega) fun o ho => ?_
      rcases hapart l hl o.1 (hover o ho) with hbefore | hbehind <;> omega
    · exact h.leads _ ho hlt

end Fits

namespace Code

/-- The code ends with a `goto` at `q` that may still be taken back. -/
structure Dangling (c : Code) (q : ℕ) : Prop where
  ends : q + 3 = c.pc
  opcode : c.get1 q = Opcode.goto
  unseen : c.fixed = false

/-- How much of the code is kept: all of it, or all but a trailing `goto` that would have led to
where it stands. -/
def Stays (c : Code) (L : Plan) (n : ℕ) : Prop :=
  n = c.pc ∨ c.Dangling n ∧ ∃ o ∈ L, o.1.pc = n ∧ o.2 = n

/-- The program `p` may come out of the code, if the branches that wait lead to `g` and the others
to the places of the plan. -/
structure Becomes (c : Code) (H : Plan) (p : Program) (g : ℕ) : Prop where
  fits : ∃ n, c.Stays (c.pending.toward g ∪ H) n ∧ Fits c.wide (c.pending.toward g ∪ H) c.bytes n p
  narrow : c.needsWide = false
  short : p.bytes.size ≤ 0xFFFF

/-- Control may come to the end of the code at `e`. -/
def Arrival (c : Code) (g e : ℕ) : Prop := c.alive = true ∧ e = c.pc ∨ c.pending ≠ [] ∧ e = g

/-- The code is in order, with `O` for the open branches that are held elsewhere. Control comes to
its end with `d` words on the stack and these monitors. -/
structure Ready (c : Code) (O : List Link) (d : ℕ) (locks : List UInt16) : Prop where
  apart : (c.pending ++ O).Pairwise (Link.Apart c.wide)
  within : ∀ l ∈ c.pending ++ O, l.pc + branchSize c.wide ≤ c.pc
  firm : c.alive = true → ∀ l ∈ c.pending ++ O, ¬ c.Dangling l.pc
  loose : ∀ l ∈ c.pending ++ O, c.Dangling l.pc → c.frame.Has l.frame.depth l.frame.locks
  level : c.alive = true → c.frame.Has d locks
  joins : c.pending.Arrives d locks

/-- What writing code leaves alone. -/
structure Onward (c c' : Code) : Prop where
  wide : c'.wide = c.wide
  nextReg : c'.nextReg = c.nextReg
  ranges : c'.ranges.isNone = c.ranges.isNone
  far : c.wide = true → c'.needsWide = c.needsWide

namespace Onward

variable {c c' c'' : Code}

theorem refl (c : Code) : Onward c c := ⟨rfl, rfl, rfl, fun _ => rfl⟩

theorem trans (h : Onward c c') (h' : Onward c' c'') : Onward c c'' where
  wide := h'.wide.trans h.wide
  nextReg := h'.nextReg.trans h.nextReg
  ranges := h'.ranges.trans h.ranges
  far := fun hw => (h'.far (h.wide.trans hw)).trans (h.far hw)

end Onward

/-- The waiting branches have landed: `c'` is `c` with control at its end and nothing that waits. -/
structure Flushed (c c' : Code) (O : List Link) (d : ℕ) (locks : List UInt16) : Prop where
  onward : Onward c c'
  pending : c'.pending = []
  alive : c'.alive = c.reachable
  stays : c.alive = true → c'.pc = c.pc
  dead : c.reachable = false → c' = c
  within : ∀ l ∈ O, l.pc + branchSize c.wide ≤ c'.pc
  level : c'.alive = true → c'.frame.Has d locks
  back : ∀ {H : Plan} {p : Program}, H.Over O → Fits c.wide H c'.bytes c'.pc p →
    c'.needsWide = false →
    p.bytes.size ≤ 0xFFFF → c.Becomes H p c'.pc

variable {c c' : Code} {O : List Link} {d : ℕ} {locks : List UInt16}

theorem Ready.held (h : c.Ready O d locks) : O.Pairwise (Link.Apart c.wide) :=
  (List.pairwise_append.mp h.apart).2.1

theorem Ready.apart_pending (h : c.Ready O d locks) : ∀ l ∈ c.pending, ∀ m ∈ O, l.Apart c.wide m :=
  (List.pairwise_append.mp h.apart).2.2

/-- Nothing waits. -/
theorem Ready.flushed_self (h : c.Ready O d locks) (hpending : c.pending = []) :
    c.Flushed c O d locks where
  onward := .refl c
  pending := hpending
  alive := by simp [reachable, hpending]
  stays := fun _ => rfl
  dead := fun _ => rfl
  within := fun l hl => h.within l (List.mem_append_right _ hl)
  level := h.level
  back := by
    intro H p _ hfits hnarrow hshort
    refine ⟨⟨c.pc, .inl rfl, ?_⟩, hnarrow, hshort⟩
    rwa [hpending, Chain.toward_nil, Set.empty_union]

theorem endsWithGoto_iff {l : Link} : c.endsWithGoto l c.pc = true ↔ c.Dangling l.pc := by
  simp only [endsWithGoto, Bool.and_eq_true, beq_iff_eq, Bool.not_eq_true', and_true]
  exact ⟨fun ⟨⟨hop, hend⟩, hfixed⟩ => ⟨hend, hop, hfixed⟩, fun ⟨hend, hop, hfixed⟩ =>
    ⟨⟨hop, hend⟩, hfixed⟩⟩

/-- The waiting branches were open before they landed, if none of them is a `goto` to be taken
back. -/
theorem Ready.flushed_patched {c₂ : Code} {f : Frame} (h : c.Ready O d locks)
    (hsome : c.pending ≠ []) (hpatched : Patched { c with pending := [] } c₂ c.pending)
    (halive : c₂.alive = true) (hf : f.Has d locks) :
    c.Flushed (noteDepth { c₂ with frame := f }) O d locks := by
  have hpc : (noteDepth { c₂ with frame := f }).pc = c.pc := hpatched.size
  obtain ⟨bytes, needsWide, fixed, alive, hc₂⟩ := hpatched.else_
  have hreach : c.reachable = true := by simp [reachable, hsome]
  constructor
  case onward => exact ⟨by rw [hc₂]; rfl, by rw [hc₂]; rfl, by rw [hc₂]; rfl, hpatched.far⟩
  case pending => rw [hc₂]; rfl
  case alive => rw [hreach]; exact halive
  case stays => exact fun _ => hpc
  case dead =>
    intro hdead
    rw [hreach] at hdead
    cases hdead
  case within =>
    rw [hpc]
    exact fun l hl => h.within l (List.mem_append_right _ hl)
  case level => exact fun _ => hf
  case back =>
    intro H p hover hfits hnarrow hshort
    rw [hpc] at hfits ⊢
    refine ⟨⟨c.pc, .inl rfl, ?_⟩, hpatched.narrow hnarrow, hshort⟩
    exact Fits.unpatch (c := { c with pending := [] }) hpatched hfits hnarrow hshort hover
      (fun l hl => h.within l (List.mem_append_left _ hl)) h.apart_pending

/-- Other open branches end before a `goto` that may be taken back. -/
theorem Dangling.before {l m : Link} (h : c.Dangling l.pc) (hapart : l.Apart c.wide m)
    (hwithin : m.pc + branchSize c.wide ≤ c.pc) : m.pc + branchSize c.wide ≤ l.pc := by
  have := h.ends
  have := three_le_branchSize c.wide
  rcases hapart with hbefore | hbehind <;> omega

/-- A `goto` is taken back where the other waiting branches, if any, have landed. -/
theorem Ready.flushed_dropped {c₁ c₂ : Code} {l : Link} {rest : Chain} {f : Frame}
    (h : c.Ready O d locks) (fixed : Bool) (maxStack : ℕ) (hpending : c.pending = l :: rest)
    (hloose : c.Dangling l.pc)
    (hc₁ : c₁ = { dropTail { c with pending := [] } 3 with alive := true, fixed })
    (hpatched : Patched c₁ c₂ rest) (halive : c₂.alive = true) (hf : f.Has d locks) :
    c.Flushed { c₂ with frame := f, maxStack } O d locks := by
  obtain ⟨vars, slots, hdrop⟩ := dropTail_eq { c with pending := [] } 3
  obtain ⟨bytes, needsWide, fixed', alive, hc₂⟩ := hpatched.else_
  have hends := hloose.ends
  have hpc₁ : c₁.pc = l.pc := by
    rw [hc₁]
    refine (size_dropTail { c with pending := [] } 3).trans ?_
    show c.pc - 3 = l.pc
    omega
  have hwide₁ : c₁.wide = c.wide := by rw [hc₁, hdrop]
  have hneeds₁ : c₁.needsWide = c.needsWide := by rw [hc₁, hdrop]
  have hagree : Agree c₁.bytes c.bytes 0 l.pc := by
    rw [hc₁, hdrop]
    show Agree (c.bytes.shrink (c.pc - 3)) c.bytes 0 l.pc
    rw [show c.pc - 3 = l.pc by omega]
    exact (Agree.shrink c.bytes 0 l.pc).symm
  have hpc : ({ c₂ with frame := f, maxStack } : Code).pc = l.pc := hpatched.size.trans hpc₁
  have hreach : c.reachable = true := by simp [reachable, hpending]
  have hdead : c.alive = false := by
    cases hc : c.alive with
    | false => rfl
    | true => exact absurd hloose (h.firm hc l (by simp [hpending]))
  have hin (m : Link) (hm : m ∈ rest ++ O) : m.pc + branchSize c.wide ≤ l.pc ∧
      l.Apart c.wide m := by
    have happ := h.apart
    rw [hpending, List.cons_append] at happ
    have hap := (List.pairwise_cons.mp happ).1 m hm
    exact ⟨hloose.before hap (h.within m (by rw [hpending]; exact List.mem_cons_of_mem _ hm)), hap⟩
  constructor
  case onward => exact ⟨by rw [hc₂]; exact hwide₁, by rw [hc₂, hc₁, hdrop], by rw [hc₂, hc₁, hdrop],
    fun hw => (hpatched.far (hwide₁.trans hw)).trans hneeds₁⟩
  case pending => rw [hc₂, hc₁, hdrop]
  case alive => rw [hreach]; exact halive
  case stays => intro hc; rw [hdead] at hc; cases hc
  case dead => intro hc; rw [hreach] at hc; cases hc
  case within =>
    rw [hpc]
    exact fun m hm => (hin m (List.mem_append_right _ hm)).1
  case level => exact fun _ => hf
  case back =>
    intro H p hover hfits hnarrow hshort
    rw [hpc] at hfits ⊢
    have hapart : ∀ k ∈ rest, ∀ m ∈ O, k.Apart c.wide m := fun k hk =>
      h.apart_pending k (by rw [hpending]; exact List.mem_cons_of_mem _ hk)
    have hrest : Fits c₁.wide (rest.toward c₁.pc ∪ H) c₁.bytes c₁.pc p := by
      refine Fits.unpatch hpatched ?_ hnarrow hshort hover ?_ ?_
      · rw [hwide₁, hpc₁]; exact hfits
      · rw [hwide₁, hpc₁]; exact fun k hk => (hin k (List.mem_append_left _ hk)).1
      · rw [hwide₁]; exact hapart
    rw [hwide₁, hpc₁] at hrest
    have hplan : c.pending.toward l.pc ∪ H = insert (l, l.pc) (rest.toward l.pc ∪ H) := by
      ext ⟨m, t⟩
      simp only [hpending, Set.mem_union, Chain.mem_toward, List.mem_cons, Set.mem_insert_iff,
        Prod.mk.injEq]
      tauto
    refine ⟨⟨l.pc, .inr ⟨hloose, (l, l.pc), ?_, rfl, rfl⟩, ?_⟩, ?_, hshort⟩
    · rw [hplan]; exact .inl rfl
    · rw [hplan]
      exact (hrest.of_agree hagree).behind (Nat.le_refl _)
    · rw [← hneeds₁]; exact hpatched.narrow hnarrow

end Code

namespace Emit

/-- A trailing `goto` to the next instruction is taken back before the other branches land. -/
theorem resolveLinks_drop {l : Link} (rest : Chain) {c : Code} (joined : Option Frame)
    (hends : c.endsWithGoto l c.pc = true) :
    resolveLinks (l :: rest) c.pc joined c =
      if rest.isEmpty then .ok joined { c.dropTail 3 with alive := true }
      else resolveLinks rest (c.pc - 3) ((c.dropTail 3).land l (c.pc - 3) joined).2
        ((c.dropTail 3).land l (c.pc - 3) joined).1 := by
  rw [resolveLinks]
  show (if c.endsWithGoto l (min c.pc c.pc) then _ else _ : Emit (Option Frame)) c = _
  rw [Nat.min_self, if_pos hends]
  cases rest <;> rfl

theorem resolvePending_of_links {c b c₂ : Code} {j : Option Frame}
    (hb : b = { c with pending := [] }) (hsome : c.pending ≠ [])
    (hlinks : resolveLinks c.pending c.pc none b = .ok j c₂) :
    resolvePending c = .ok () (j.elim c₂ fun frame => Code.noteDepth { c₂ with frame }) := by
  rw [resolvePending]
  refine EStateM.bind_eq_ok.mpr ⟨c, c, rfl, ?_⟩
  rw [if_neg (by simpa using hsome)]
  refine EStateM.bind_eq_ok.mpr ⟨(), b, by rw [hb]; rfl, ?_⟩
  refine EStateM.bind_eq_ok.mpr ⟨j, c₂, hlinks, ?_⟩
  cases j <;> rfl

variable {c : Code} {O : List Link} {d : ℕ} {locks : List UInt16}

/-- The waiting branches land where the first of them is a `goto` to be taken back. -/
theorem resolvePending_dropped {l : Link} {rest : Chain} (h : c.Ready O d locks)
    (hpending : c.pending = l :: rest) (hloose : c.Dangling l.pc) :
    ∃ c', resolvePending c = .ok () c' ∧ c.Flushed c' O d locks := by
  obtain ⟨b, hb⟩ : ∃ b : Code, b = { c with pending := [] } := ⟨_, rfl⟩
  have hpc : b.pc = c.pc := by rw [hb]; rfl
  have hsome : c.pending ≠ [] := by rw [hpending]; exact List.cons_ne_nil l rest
  have hends : b.endsWithGoto l b.pc = true := by
    rw [hb]
    exact Code.endsWithGoto_iff.mpr ⟨hloose.ends, hloose.opcode, hloose.unseen⟩
  have hdead : c.alive = false := Bool.eq_false_iff.mpr fun hc =>
    h.firm hc l (by simp [hpending]) hloose
  have harrives := hpending ▸ h.joins
  have hl := harrives l List.mem_cons_self
  have hrun := resolveLinks_drop rest none hends
  rw [hpc, ← hpending] at hrun
  obtain ⟨vars, slots, hdrop⟩ := b.dropTail_eq 3
  cases rest with
  | nil =>
      have hlevel := h.loose l (by simp [hpending]) hloose
      rw [hl.1, hl.2] at hlevel
      refine ⟨_, resolvePending_of_links hb hsome hrun, ?_⟩
      have hflushed := h.flushed_dropped c.fixed c.maxStack hpending hloose rfl
        (.nil _) rfl hlevel
      rw [← hb] at hflushed
      show c.Flushed { b.dropTail 3 with alive := true } O d locks
      rw [hdrop] at hflushed ⊢
      rw [hb] at hflushed ⊢
      exact hflushed
  | cons m rest =>
      obtain ⟨c₁, hc₁⟩ : ∃ c₁ : Code, c₁ = { b.dropTail 3 with alive := true, fixed := true } :=
        ⟨_, rfl⟩
      have hpc₁ : c₁.pc = c.pc - 3 := by
        rw [hc₁, ← hpc]
        exact b.size_dropTail 3
      have hpcl : c.pc - 3 = l.pc := by
        have := hloose.ends
        omega
      have hwide₁ : c₁.wide = c.wide := by rw [hc₁, hdrop, hb]
      have hfixed₁ : c₁.fixed = true := by rw [hc₁]
      have hland : (b.dropTail 3).land l (c.pc - 3) none = (c₁, some l.frame) := by
        have hdead' : (b.dropTail 3).alive = false := by rw [hdrop, hb]; exact hdead
        have hsize : ({ b.dropTail 3 with fixed := true } : Code).pc = c.pc - 3 := by
          rw [← hpc]; exact b.size_dropTail 3
        unfold Code.land
        rw [if_pos hsize, hc₁]
        simp only [hdead', Bool.not_false, if_true]
      have happart := (List.pairwise_append.mp h.apart).1
      rw [hpending] at happart
      obtain ⟨hhead, htail⟩ := List.pairwise_cons.mp happart
      obtain ⟨j, c₂, hlinks, hpatched, hend⟩ := resolveLinks_patched (c := c₁) (m :: rest)
        (some l.frame) (fun k _ => by simp [Code.endsWithGoto, hfixed₁])
        (by
          rw [hwide₁, hpc₁, hpcl]
          intro k hk
          have hmem : k ∈ c.pending ++ O := by
            rw [hpending]
            exact List.mem_append_left _ (List.mem_cons_of_mem _ hk)
          exact hloose.before (hhead k hk) (h.within k hmem))
        (by rw [hwide₁]; exact htail) (fun _ => hl) fun k hk =>
          harrives k (List.mem_cons_of_mem _ hk)
      obtain ⟨-, halive, f, rfl, hf⟩ := hend (List.cons_ne_nil m rest)
      rw [hland, ← hpc₁] at hrun
      refine ⟨_, resolvePending_of_links hb hsome (hrun.trans hlinks), ?_⟩
      have hflushed := fun maxStack => h.flushed_dropped true maxStack hpending hloose
        (hb ▸ hc₁) hpatched halive hf
      exact hflushed _

/-- The waiting branches land. -/
theorem resolvePending_flushed (h : c.Ready O d locks) :
    ∃ c', resolvePending c = .ok () c' ∧ c.Flushed c' O d locks := by
  cases hpending : c.pending with
  | nil =>
      refine ⟨c, ?_, h.flushed_self hpending⟩
      rw [resolvePending]
      refine EStateM.bind_eq_ok.mpr ⟨c, c, rfl, ?_⟩
      rw [hpending]
      rfl
  | cons l rest =>
      by_cases hloose : c.Dangling l.pc
      · exact resolvePending_dropped h hpending hloose
      · obtain ⟨b, hb⟩ : ∃ b : Code, b = { c with pending := [] } := ⟨_, rfl⟩
        have hpc : b.pc = c.pc := by rw [hb]; rfl
        have hwide : b.wide = c.wide := by rw [hb]
        have hsome : c.pending ≠ [] := by rw [hpending]; exact List.cons_ne_nil l rest
        have hfirst : ∀ m ∈ c.pending.head?, b.endsWithGoto m b.pc = false := by
          rw [hpending]
          rintro m ⟨⟩
          refine Bool.eq_false_iff.mpr fun hends => hloose ?_
          obtain ⟨hend, hop, hfixed⟩ := Code.endsWithGoto_iff.mp hends
          rw [hb] at hend hop hfixed
          exact ⟨hend, hop, hfixed⟩
        obtain ⟨j, c₂, hlinks, hpatched, hend⟩ :=
          resolveLinks_patched (c := b) c.pending none hfirst
          (by rw [hwide, hpc]; exact fun m hm => h.within m (List.mem_append_left _ hm))
          (by rw [hwide]; exact (List.pairwise_append.mp h.apart).1)
          (by rw [hb]; exact h.level) h.joins
        obtain ⟨-, halive, f, rfl, hf⟩ := hend hsome
        rw [hpc] at hlinks
        refine ⟨_, resolvePending_of_links hb hsome hlinks, ?_⟩
        exact h.flushed_patched hsome (hb ▸ hpatched) halive hf

end Emit

end StackCode
