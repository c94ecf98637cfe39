import Mathlib.Algebra.Order.BigOperators.Group.Finset
import Mathlib.Algebra.Order.Group.Multiset
import StackCode.Proofs.Parts
import StackCode.Proofs.Enclosing
import StackCode.Proofs.Segments

/-!
# Two runs in lockstep

The generator is run twice over one method, once with narrow and once with wide jumps. The
two states are tied together by the list of segments that both runs have written: `Tied` says
that each code is laid out as these segments, that whatever steers the generator is the same
in both states, and that the open branches correspond, link for link.

A branch is known by the index of its segment, and every open branch has one holder: the
waiting branches, a scope, or a value that is being worked on. A narrow run may take a
trailing `goto` back when it is resolved, which is harmless because nobody else holds it.
`Runs` says that a step keeps two states tied. What the step is not given, the branches `F` of
the frame, it leaves alone; `Grown F` says so.
-/

namespace StackCode

open Instruction

/-! ### States that go together -/

namespace Frame

/-- Two states differ at most in the kinds of the values on the stack. -/
structure Level (f f' : Frame) : Prop where
  depth : f.depth = f'.depth
  locks : f.locks = f'.locks

namespace Level

variable {f f' f'' h h' : Frame}

theorem refl (f : Frame) : Level f f := ⟨rfl, rfl⟩

theorem symm (hf : Level f f') : Level f' f := ⟨hf.depth.symm, hf.locks.symm⟩

theorem trans (hf : Level f f') (hf' : Level f' f'') : Level f f'' :=
  ⟨hf.depth.trans hf'.depth, hf.locks.trans hf'.locks⟩

theorem compatible_eq (hf : Level f f') (hh : Level h h') : f.compatible h = f'.compatible h' := by
  rw [compatible, compatible, hf.depth, hf.locks, hh.depth, hh.locks]

theorem drop (hf : Level f f') (n : ℕ) : Level (f.drop n) (f'.drop n) :=
  ⟨by rw [depth_drop, depth_drop, hf.depth], hf.locks⟩

theorem push (hf : Level f f') (k : Kind) : Level (f.push k) (f'.push k) := by
  refine ⟨by rw [depth_push, depth_push, hf.depth], ?_⟩
  unfold Frame.push
  split <;> exact hf.locks

theorem dup (hf : Level f f') (words under : ℕ) :
    Level (f.dup words under) (f'.dup words under) := by
  refine ⟨?_, hf.locks⟩
  have hsize : f.stack.size = f'.stack.size := hf.depth
  simp [Frame.dup, Frame.depth, hsize]

theorem swap (hf : Level f f') : Level f.swap f'.swap := by
  refine ⟨?_, hf.locks⟩
  have hsize : f.stack.size = f'.stack.size := hf.depth
  simpa [Frame.swap, Frame.depth] using hsize

theorem lock (hf : Level f f') (reg : UInt16) : Level (f.lock reg) (f'.lock reg) :=
  ⟨hf.depth, congrArg (reg :: ·) hf.locks⟩

/-- A value of another kind leaves a state level. -/
theorem retype (f : Frame) (k : Kind) : Level (f.retype k) f := by
  unfold Frame.retype
  split
  · exact .refl f
  · split
    · exact ⟨by simp [Frame.depth], rfl⟩
    · exact .refl f

end Level

end Frame

/-! ### Segments that can be read back -/

/-- The words of a switch that say what it is: bounds or a count, and the same keys on either
side. -/
def Keyed : Layout → (lo hi : Int32) → (n : ℕ) → List (Int32 × Int32) → Prop
  | .dense, lo, hi, _, words => words[1]? = some (lo, lo) ∧ words[2]? = some (hi, hi) ∧
    lo.toInt ≤ hi.toInt ∧ words.length = 3 + (hi.toInt - lo.toInt + 1).toNat
  | .sparse, _, _, n, words => words[1]? = some (.ofNat n, .ofNat n) ∧ words.length = 2 + 2 * n ∧
    ∀ i w, words[2 + 2 * i]? = some w → w.1 = w.2

/-- The segment is an instruction of its kind. -/
def Seg.Sound : Seg → Prop
  | code op wide operands => op.isBranch = false ∧ op ≠ .tableswitch ∧ op ≠ .lookupswitch ∧
    if wide then operands.size + 2 = (if op = .iinc then 6 else 4)
    else op.length? = some (operands.size + 1)
  | table op words => ∃ layout lo hi n, op = Layout.opcode layout ∧ Keyed layout lo hi n words
  | jump op _ => op.isConditional = true ∨ op = .goto ∨ op = .jsr
  | gone => True

/-! ### What is known of the two runs -/

/-- What two runs have in common. -/
structure Ghost where
  segs : List Seg
  /-- the segments before this index are there to stay -/
  base : Nat
  /-- whether the next instruction can be reached -/
  live : Bool
  /-- whether the end of the wide code has been seen -/
  firm : Bool

/-- What is known after both codes have got a segment behind `segs`. -/
def Ghost.wrote (g : Ghost) (segs : List Seg) (s : Seg) (live : Bool) : Ghost :=
  { g with segs := segs ++ [s], base := segs.length, live }

/-- The second of two points in time comes after the first, and the segments in `F` have been
left alone in between. -/
structure Grown (F : Multiset ℕ) (g g' : Ghost) : Prop where
  kept : ∀ k ∈ F, ∀ s : Seg, g.segs[k]? = some s → s ≠ .gone →
    g'.segs[k]? = some s ∧ startAt false g'.segs k = startAt false g.segs k
  far : ∀ k ≤ g.segs.length, startAt true g'.segs k = startAt true g.segs k
  low : ∀ far, ∀ k ≤ g.base, startAt far g'.segs k = startAt far g.segs k
  base : g.base ≤ g'.base
  length : g.segs.length ≤ g'.segs.length
  firm : g.firm = true → g'.firm = true

namespace Grown

variable {F F' : Multiset ℕ} {g g' g'' : Ghost}

/-- Nothing is written. -/
theorem of_segs (hsegs : g'.segs = g.segs) (hbase : g.base ≤ g'.base)
    (hfirm : g.firm = true → g'.firm = true) : Grown F g g' where
  kept := fun k _ s hs _ => ⟨by rw [hsegs]; exact hs, by rw [hsegs]⟩
  far := fun k _ => by rw [hsegs]
  low := fun _ k _ => by rw [hsegs]
  base := hbase
  length := by rw [hsegs]
  firm := hfirm

theorem refl (F : Multiset ℕ) (g : Ghost) : Grown F g g := of_segs rfl (Nat.le_refl _) id

theorem trans (h : Grown F g g') (h' : Grown F g' g'') : Grown F g g'' where
  kept := by
    intro k hk s hs hne
    obtain ⟨hs', hstart⟩ := h.kept k hk s hs hne
    obtain ⟨hs'', hstart'⟩ := h'.kept k hk s hs' hne
    exact ⟨hs'', hstart'.trans hstart⟩
  far := fun k hk => (h'.far k (Nat.le_trans hk h.length)).trans (h.far k hk)
  low := fun far k hk => (h'.low far k (Nat.le_trans hk h.base)).trans (h.low far k hk)
  base := Nat.le_trans h.base h'.base
  length := Nat.le_trans h.length h'.length
  firm := fun hf => h'.firm (h.firm hf)

theorem mono (h : Grown F g g') (hF : F' ≤ F) : Grown F' g g' :=
  { h with kept := fun k hk => h.kept k (Multiset.mem_of_le hF hk) }

/-- A segment is written. -/
theorem concat {s : Seg} (hsegs : g'.segs = g.segs ++ [s]) (hbase : g.base ≤ g'.base)
    (hle : g.base ≤ g.segs.length) (hfirm : g.firm = true → g'.firm = true) : Grown F g g' where
  kept := by
    intro k _ s' hs' _
    have hk := (List.getElem?_eq_some_iff.mp hs').1
    rw [hsegs, List.getElem?_append_left hk, startAt_append (Nat.le_of_lt hk)]
    exact ⟨hs', rfl⟩
  far := fun k hk => by rw [hsegs, startAt_append hk]
  low := fun far k hk => by rw [hsegs, startAt_append (Nat.le_trans hk hle)]
  base := hbase
  length := by simp [hsegs]
  firm := hfirm

/-- A segment that nobody else holds is replaced by one that takes as many bytes in the wide
code, and in the narrow code as well unless nothing follows it there. -/
theorem set {k : ℕ} {s s' : Seg} (hsegs : g'.segs = g.segs.set k s') (hs : g.segs[k]? = some s)
    (hfar : ∀ pc, s'.size true pc = s.size true pc)
    (hnear : (∀ pc, s'.size false pc = s.size false pc) ∨ (g.base ≤ k ∧ Trailing g.segs k s))
    (hk : k ∉ F) (hbase : g'.base = g.base) (hfirm : g'.firm = g.firm) : Grown F g g' where
  kept := by
    intro j hj t ht hne
    have hjk : j ≠ k := fun h => hk (h ▸ hj)
    rw [hsegs, List.getElem?_set_ne (Ne.symm hjk)]
    refine ⟨ht, ?_⟩
    rcases hnear with hsize | ⟨-, htrail⟩
    · exact startAt_set_size hs hsize j
    · rcases Nat.lt_or_ge k j with hlt | hge
      · exact absurd (htrail.2.2 j hlt t ht) hne
      · exact startAt_set hge
  far := fun j _ => by rw [hsegs]; exact startAt_set_size hs hfar j
  low := by
    intro far j hj
    rw [hsegs]
    cases far with
    | true => exact startAt_set_size hs hfar j
    | false =>
        rcases hnear with hsize | ⟨hle, -⟩
        · exact startAt_set_size hs hsize j
        · exact startAt_set (Nat.le_trans hj hle)
  base := Nat.le_of_eq hbase.symm
  length := by rw [hsegs, List.length_set]
  firm := fun h => by rw [hfirm]; exact h

/-- A trailing `goto` that nobody else holds is taken back. -/
theorem lose {k : ℕ} {frame : Frame} (hsegs : g'.segs = g.segs.set k .gone)
    (ht : Trailing g.segs k (.jump .goto frame)) (hle : g.base ≤ k) (hk : k ∉ F)
    (hbase : g'.base = g.base) (hfirm : g'.firm = g.firm) : Grown F g g' :=
  .set hsegs ht.1 (fun _ => rfl) (.inr ⟨hle, ht⟩) hk hbase hfirm

theorem extent_le (h : Grown F g g') : extent true g.segs ≤ extent true g'.segs := by
  have hlen : extent true g.segs = startAt true g.segs g.segs.length := startAt_length.symm
  rw [hlen, ← h.far _ (Nat.le_refl _)]
  exact startAt_le_extent _

/-- A held segment stays what it is and where it is. -/
theorem same (h : Grown F g g') {k : ℕ} {s : Seg} (hs : g.segs[k]? = some s) (hne : s ≠ .gone)
    (hk : k ∈ F) : g'.segs[k]? = some s ∧ ∀ far, startAt far g'.segs k = startAt far g.segs k := by
  obtain ⟨hs', hnear⟩ := h.kept k hk s hs hne
  refine ⟨hs', fun far => ?_⟩
  cases far with
  | false => exact hnear
  | true => exact h.far k (Nat.le_of_lt (List.getElem?_eq_some_iff.mp hs).1)

end Grown

/-- The two positions are where a segment starts that is there to stay. -/
def Ghost.At (g : Ghost) (p p' : ℕ) : Prop :=
  ∃ k ≤ g.base, p = startAt false g.segs k ∧ p' = startAt true g.segs k

theorem Ghost.At.grown {F : Multiset ℕ} {g g' : Ghost} {p p' : ℕ} (h : g.At p p')
    (hg : Grown F g g') : g'.At p p' := by
  obtain ⟨k, hk, rfl, rfl⟩ := h
  exact ⟨k, Nat.le_trans hk hg.base, (hg.low false k hk).symm, (hg.low true k hk).symm⟩

/-- The two positions are the ends of the codes, and control goes on from there. -/
structure Ghost.Entered (g : Ghost) (p p' : ℕ) : Prop where
  live : g.live = true
  firm : g.firm = true
  place : g.At p p'
  near : p = extent false g.segs
  far : p' = extent true g.segs

/-- The code ends with an instruction that stays. -/
def Ghost.Solid (g : Ghost) : Prop :=
  (∀ k frame, ¬ Trailing g.segs k (.jump .goto frame)) ∧
    startAt false g.segs g.base < extent false g.segs

/-! ### Corresponding branches -/

/-- Two links belong to the branch at an index. -/
def LinkPair (segs : List Seg) (k : ℕ) (l l' : Link) : Prop :=
  ∃ op frame, segs[k]? = some (.jump op frame) ∧
    (l.pc = linkAt false segs k op ∧ l.frame.Level frame) ∧
    l'.pc = linkAt true segs k op ∧ l'.frame.Level frame

/-- Two chains hold the same branches in the same order. -/
inductive Chains (segs : List Seg) : Chain → Chain → Multiset ℕ → Prop
  | nil : Chains segs [] [] 0
  | cons {k : ℕ} {l l' : Link} {c d : Chain} {m : Multiset ℕ} (head : LinkPair segs k l l')
      (tail : Chains segs c d m) : Chains segs (l :: c) (l' :: d) (k ::ₘ m)

theorem LinkPair.level {segs : List Seg} {k : ℕ} {l l' : Link} (h : LinkPair segs k l l') :
    l.frame.Level l'.frame := by
  obtain ⟨op, frame, -, ⟨-, hl⟩, -, hl'⟩ := h
  exact hl.trans hl'.symm

theorem LinkPair.grown {F : Multiset ℕ} {g g' : Ghost} {k : ℕ} {l l' : Link}
    (h : LinkPair g.segs k l l') (hg : Grown F g g') (hk : k ∈ F) : LinkPair g'.segs k l l' := by
  obtain ⟨op, frame, hs, ⟨hl, hframe⟩, hl', hframe'⟩ := h
  obtain ⟨hs', hstart⟩ := hg.same hs (by simp) hk
  refine ⟨op, frame, hs', ⟨?_, hframe⟩, ?_, hframe'⟩
  · rw [hl, linkAt, linkAt, hstart]
  · rw [hl', linkAt, linkAt, hstart]

/-- Links are ordered as their branches are, in either code. -/
theorem LinkPair.pc_lt {segs : List Seg} {j k : ℕ} {l l' m m' : Link} (hl : LinkPair segs j l l')
    (hm : LinkPair segs k m m') : (l.pc < m.pc ↔ j < k) ∧ (l'.pc < m'.pc ↔ j < k) := by
  obtain ⟨op, frame, hs, ⟨hl, -⟩, hl', -⟩ := hl
  obtain ⟨op', frame', hs', ⟨hm, -⟩, hm', -⟩ := hm
  have hlead := op.lead_le
  have hlead' := op'.lead_le
  rw [hl, hl', hm, hm']
  simp only [linkAt, Bool.false_eq_true, if_false, if_true, Nat.add_zero]
  rcases Nat.lt_trichotomy j k with hlt | rfl | hlt
  · have hnear := end_le_startAt false hs hlt
    have hfar := end_le_startAt true hs hlt
    simp only [Seg.size, Bool.false_eq_true, if_false, if_true] at hnear hfar
    omega
  · cases hs.symm.trans hs'
    omega
  · have hnear := end_le_startAt false hs' hlt
    have hfar := end_le_startAt true hs' hlt
    simp only [Seg.size, Bool.false_eq_true, if_false, if_true] at hnear hfar
    omega

namespace Chains

variable {segs : List Seg} {c d c' d' : Chain} {m m' : Multiset ℕ}

theorem isEmpty_eq (h : Chains segs c d m) : c.isEmpty = d.isEmpty := by
  cases h <;> rfl

theorem eq_nil (h : Chains segs [] d m) : d = [] ∧ m = 0 := by
  cases h
  exact ⟨rfl, rfl⟩

theorem eq_cons {l : Link} (h : Chains segs (l :: c) d m) : ∃ k l' d' m',
    d = l' :: d' ∧ m = k ::ₘ m' ∧ LinkPair segs k l l' ∧ Chains segs c d' m' := by
  cases h with
  | cons head tail => exact ⟨_, _, _, _, rfl, rfl, head, tail⟩

theorem grown {F : Multiset ℕ} {g g' : Ghost} (h : Chains g.segs c d m) (hg : Grown F g g')
    (hF : m ≤ F) : Chains g'.segs c d m := by
  induction h with
  | nil => exact .nil
  | cons head tail ih =>
      refine .cons (head.grown hg (Multiset.mem_of_le hF (Multiset.mem_cons_self _ _))) (ih ?_)
      exact Multiset.le_cons_self _ _ |>.trans hF

/-- Merging goes by the order of the branches. -/
theorem merge (h : Chains segs c d m) (h' : Chains segs c' d' m') {e e' : Chain}
    (he : c.merge c' = .ok e) (he' : d.merge d' = .ok e') : Chains segs e e' (m + m') := by
  induction c, c' using Chain.merge.induct generalizing d d' m m' e e' with
  | case1 c' =>
      obtain ⟨rfl, rfl⟩ := h.eq_nil
      simp only [Chain.merge_nil_left, Except.ok.injEq] at he he'
      subst he he'
      rwa [zero_add]
  | case2 c hne =>
      obtain ⟨rfl, rfl⟩ := h'.eq_nil
      simp only [Chain.merge_nil_right, Except.ok.injEq] at he he'
      subst he he'
      rwa [add_zero]
  | case3 x a y b hcompat hlt ih =>
      obtain ⟨kx, x', a', ma, rfl, rfl, hx, ha⟩ := h.eq_cons
      obtain ⟨ky, y', b', mb, rfl, rfl, hy, hb⟩ := h'.eq_cons
      have hpos := hx.pc_lt hy
      rw [Chain.merge, if_pos hcompat, if_pos hlt] at he
      rw [Chain.merge, if_pos (hx.level.compatible_eq hy.level ▸ hcompat),
        if_pos (hpos.2.mpr (hpos.1.mp hlt))] at he'
      cases hrest : Chain.merge (x :: a) b with
      | error e => simp [hrest, Except.map] at he
      | ok r =>
      cases hrest' : Chain.merge (x' :: a') b' with
      | error e => simp [hrest', Except.map] at he'
      | ok r' =>
          simp only [hrest, hrest', Except.map, Except.ok.injEq] at he he'
          subst he he'
          rw [Multiset.add_cons]
          exact .cons hy (ih (.cons hx ha) hb hrest hrest')
  | case4 x a y b hcompat hlt ih =>
      obtain ⟨kx, x', a', ma, rfl, rfl, hx, ha⟩ := h.eq_cons
      obtain ⟨ky, y', b', mb, rfl, rfl, hy, hb⟩ := h'.eq_cons
      have hpos := hx.pc_lt hy
      rw [Chain.merge, if_pos hcompat, if_neg hlt] at he
      rw [Chain.merge, if_pos (hx.level.compatible_eq hy.level ▸ hcompat),
        if_neg (fun hlt' => hlt (hpos.1.mpr (hpos.2.mp hlt')))] at he'
      cases hrest : Chain.merge a (y :: b) with
      | error e => simp [hrest, Except.map] at he
      | ok r =>
      cases hrest' : Chain.merge a' (y' :: b') with
      | error e => simp [hrest', Except.map] at he'
      | ok r' =>
          simp only [hrest, hrest', Except.map, Except.ok.injEq] at he he'
          subst he he'
          rw [Multiset.cons_add]
          exact .cons hx (ih ha (.cons hy hb) hrest hrest')
  | case5 x a y b hcompat =>
      rw [Chain.merge, if_neg hcompat] at he
      cases he

end Chains

/-! ### Corresponding codes -/

/-- What is known of the variable in a register, apart from positions. -/
def slotShape (slot : Option VarSlot) : Option (String × String × Bool) :=
  slot.map fun s => (s.name, s.descriptor, s.start.isSome)

namespace Code

/-- Two codes agree in all that steers the generator. -/
structure Even (c d : Code) : Prop where
  alive : c.alive = d.alive
  frame : c.frame.Level d.frame
  maxStack : c.maxStack = d.maxStack
  maxLocals : c.maxLocals = d.maxLocals
  nextReg : c.nextReg = d.nextReg
  keepVars : c.keepVars = d.keepVars
  slots : c.slots.map slotShape = d.slots.map slotShape
  ranges : c.ranges.isNone = d.ranges.isNone

/-- A narrow and a wide code that are laid out as the same segments. Dead code has an
instruction that made it so, behind the base. -/
structure Abreast (g : Ghost) (c d : Code) : Prop extends Even c d where
  near : Laid false g.segs c.bytes
  far : Laid true g.segs d.bytes
  sound : ∀ s ∈ g.segs, s.Sound
  narrow : c.wide = false
  wide : d.wide = true
  firm : g.firm = true → d.fixed = true
  base : g.base ≤ g.segs.length
  dry : c.alive = false → startAt false g.segs g.base < extent false g.segs

/-- A trailing `goto` of the narrow code that may still be taken back is what made the code
dead, and its state goes with the current one. -/
def Loose (g : Ghost) (c : Code) : Prop :=
  c.fixed = false → ∀ k frame, Trailing g.segs k (.jump .goto frame) →
    c.alive = false ∧ c.frame.Level frame ∧ g.base ≤ k

/-- Two codes between two steps of the generator. -/
structure Tied (g : Ghost) (c d : Code) : Prop extends Abreast g c d where
  loose : Loose g c
  depth : c.frame.depth ≤ c.maxStack

end Code

/-! ### Corresponding scopes -/

/-- Two scopes of one construct, which hold the branches `m`. -/
structure Scope.Tied (segs : List Seg) (a b : Scope) (m : Multiset ℕ) : Prop where
  kind : a.kind = b.kind
  tree : a.tree = b.tree
  parent : a.parent = b.parent
  cleanup : a.cleanup = b.cleanup
  gaps : a.gaps.map Array.size = b.gaps.map Array.size
  chains : ∃ exits conts, Chains segs a.exit b.exit exits ∧ Chains segs a.cont b.cont conts ∧
    m = exits + conts

/-- The same constructs are open in both runs, and hold the branches `m`. -/
structure Scopes.Tied (segs : List Seg) (S T : Scopes) (m : Multiset ℕ) : Prop where
  depth : S.depth = T.depth
  held : ∃ own : ScopeId → Multiset ℕ, (∀ id, (S.get id).Tied segs (T.get id) (own id)) ∧
    m = ∑ id ∈ Finset.range S.depth, own id

/-! ### Corresponding states -/

/-- Every branch has one holder. -/
def Owned (n : ℕ) (m : Multiset ℕ) : Prop := m.Nodup ∧ ∀ k ∈ m, k < n

namespace Owned

variable {n n' : ℕ} {m m' : Multiset ℕ}

theorem mono (h : Owned n m) (hm : m' ≤ m) (hn : n ≤ n') : Owned n' m' :=
  ⟨Multiset.nodup_of_le hm h.1, fun k hk =>
    Nat.lt_of_lt_of_le (h.2 k (Multiset.mem_of_le hm hk)) hn⟩

theorem cast (h : Owned n m) (hm : m' = m) : Owned n m' := hm ▸ h

/-- A new branch gets a holder. -/
theorem cons (h : Owned n m) : Owned (n + 1) (n ::ₘ m) := by
  refine ⟨Multiset.nodup_cons.mpr ⟨fun hmem => Nat.lt_irrefl _ (h.2 n hmem), h.1⟩, ?_⟩
  refine Multiset.forall_mem_cons.mpr ⟨Nat.lt_succ_self n, fun k hk => ?_⟩
  exact Nat.lt_succ_of_lt (h.2 k hk)

end Owned

/-- The states of two runs over one method. Of the open branches, those of `F` are held
neither by the code nor by a scope. -/
structure Tied (g : Ghost) (F : Multiset ℕ) (s t : MethodState) : Prop where
  code : s.asm.code.Tied g t.asm.code
  live : s.asm.code.reachable = g.live
  links : ∃ waiting held, Chains g.segs s.asm.code.pending t.asm.code.pending waiting ∧
    s.scopes.Tied g.segs t.scopes held ∧ Owned g.segs.length (waiting + held + F)
  pool : s.asm.pool = t.asm.pool
  locals : s.locals = t.locals
  subroutines : s.subroutines = t.subroutines
  letDepth : s.letDepth = t.letDepth
  appends : s.appends = t.appends

/-- A step of either run, from what is known before. If `limited`, the wide code is taken to
stay so short that no offset in it can be taken for the mark of an open target. -/
def Runs {σ α : Type} [Part σ] (limited : Bool) (g : Ghost) (m : Multiset ℕ)
    (x y : EStateM Error σ α) (Q : Ghost → Multiset ℕ → α → α → Prop) : Prop :=
  ∀ F s t, Tied g (m + F) s t → ∀ a p b q, x (Part.get s) = .ok a p → y (Part.get t) = .ok b q →
    (limited = true → g.firm = true ∧ (Part.put q t).asm.code.pc < 0xFFFFFFFF) →
      ∃ g' m', Tied g' (m' + F) (Part.put p s) (Part.put q t) ∧ Grown F g g' ∧ Q g' m' a b

theorem Tied.mono {g : Ghost} {F F' : Multiset ℕ} {s t : MethodState} (h : Tied g F s t)
    (hF : F' ≤ F) : Tied g F' s t := by
  obtain ⟨waiting, held, hwaiting, hheld, howned⟩ := h.links
  exact { h with links := ⟨waiting, held, hwaiting, hheld,
    howned.mono (Multiset.add_le_add_left hF) (Nat.le_refl _)⟩ }

/-! ### Steps that do not shorten wide code -/

/-- A row concerns the exception table and the reports only. -/
theorem Gen.addCatch_ok {span : Span} {row : CatchRow} {s s' : MethodState} {u : Unit}
    (h : addCatch span row s = .ok u s') : ∃ catches reports,
      s' = { s with asm := { s.asm with code := { s.asm.code with catches } }, reports } := by
  unfold addCatch at h
  split at h
  · cases h
    exact ⟨_, _, rfl⟩
  · split at h
    · cases h
      have hrow : ∃ catches, s.asm.code.addCatch row = { s.asm.code with catches } := by
        unfold Code.addCatch
        split <;> exact ⟨_, rfl⟩
      obtain ⟨catches, hrow⟩ := hrow
      exact ⟨catches, s.reports,
        congrArg (fun c => { s with asm := { s.asm with code := c } }) hrow⟩
    · obtain ⟨wide, s₁, hpeek, h⟩ := EStateM.bind_eq_ok.mp h
      cases hpeek
      split at h
      · cases h
        exact ⟨_, _, rfl⟩
      · cases h

/-- The end of the wide code has been seen. -/
def MethodState.Firm (s : MethodState) : Prop :=
  s.asm.code.wide = true ∧ s.asm.code.fixed = true

/-- What is composed of elementary steps does not shorten wide code whose end has been seen. -/
theorem Composed.firm {asks : Resolver → Prop} {scopes : Bool} {σ α : Type} [Part σ]
    {x : EStateM Error σ α} (h : Composed asks scopes x) {s : MethodState} {a : α} {p : σ}
    (hx : x (Part.get s) = .ok a p) (hs : s.Firm) :
    (Part.put p s).Firm ∧ s.asm.code.pc ≤ (Part.put p s).asm.code.pc := by
  have hsame : s.Firm ∧ s.asm.code.pc ≤ s.asm.code.pc := ⟨hs, Nat.le_refl _⟩
  induction h generalizing s with
  | pure =>
      cases hx
      rw [Part.put_get]
      exact hsame
  | throw => cases hx
  | bind _ _ ihx ihf =>
      obtain ⟨b, q, hxb, hfb⟩ := EStateM.bind_eq_ok.mp hx
      obtain ⟨hq, hle⟩ := ihx hxb hs hsame
      have hrest := ihf b (s := Part.put q s) (by rw [Part.get_put]; exact hfb) hq
        ⟨hq, Nat.le_refl _⟩
      rw [Part.put_put] at hrest
      exact ⟨hrest.1, Nat.le_trans hle hrest.2⟩
  | inspect _ _ ih => exact ih _ hx hs hsame
  | update h =>
      cases hx
      obtain ⟨hfixed, hle⟩ := h.swells s.asm.code hs.1 hs.2
      exact ⟨⟨(h.keeps s.asm.code).wide.trans hs.1, hfixed⟩, hle⟩
  | settle pc target h =>
      cases hx
      have hwide : (s.asm.code.patch pc target).wide = true := (Code.patch_wide ..).trans hs.1
      obtain ⟨bs, n, hpatch⟩ := s.asm.code.patch_eq pc target
      have hfixed : (s.asm.code.patch pc target).fixed = true := by rw [hpatch]; exact hs.2
      obtain ⟨hfixed, hle⟩ := h.swells _ hwide hfixed
      rw [Code.size_patch] at hle
      exact ⟨⟨(h.keeps _).wide.trans hwide, hfixed⟩, hle⟩
  | onCode _ ih =>
      simp only [Asm.onCode] at hx
      split at hx
      · rename_i hrun
        cases hx
        exact ih hrun hs hsame
      · cases hx
  | pooled put =>
      cases hx
      exact hsame
  | onAsm _ ih =>
      simp only [Gen.onAsm] at hx
      split at hx
      · rename_i hrun
        cases hx
        exact ih hrun hs hsame
      · cases hx
  | look _ _ ih => exact ih _ hx hs hsame
  | note | report | checkDimensions | checkString =>
      cases hx
      exact hsame
  | @ask r _ site name args =>
      cases hm : r.method site name args with
      | ok m =>
          rw [hm] at hx
          cases hx
          exact hsame
      | error e =>
          rw [hm] at hx
          cases hx
  | @appendMethod ctx _ t =>
      rcases ctx.appendMethod_cases t s with ⟨m, -, hrun⟩ | ⟨m, -, hrun⟩ | ⟨e, -, -, hrun⟩ <;>
        cases hrun.symm.trans hx <;> exact hsame
  | onScopes =>
      simp only [Gen.onScopes] at hx
      split at hx
      · cases hx
        exact hsame
      · cases hx
  | addCatch _ span row =>
      obtain ⟨catches, reports, rfl⟩ := Gen.addCatch_ok hx
      exact hsame

/-! ### What growth leaves -/

theorem Scope.Tied.grown {F : Multiset ℕ} {g g' : Ghost} {a b : Scope} {m : Multiset ℕ}
    (h : a.Tied g.segs b m) (hg : Grown F g g') (hF : m ≤ F) : a.Tied g'.segs b m := by
  obtain ⟨exits, conts, hexit, hcont, rfl⟩ := h.chains
  refine { h with chains := ⟨exits, conts, hexit.grown hg ?_, hcont.grown hg ?_, rfl⟩ }
  · exact (Multiset.le_add_right _ _).trans hF
  · exact (Multiset.le_add_left _ _).trans hF

/-- A scope that is not open holds nothing. -/
theorem Scopes.own_eq_zero {segs : List Seg} {S T : Scopes} {own : ScopeId → Multiset ℕ}
    (h : ∀ id, (S.get id).Tied segs (T.get id) (own id)) {id : ScopeId} (hid : S.depth ≤ id) :
    own id = 0 := by
  have hbare : S.get id = { kind := .method } := get_of_depth_le hid
  obtain ⟨exits, conts, hexit, hcont, hown⟩ := (h id).chains
  rw [hbare] at hexit hcont
  rw [hown, hexit.eq_nil.2, hcont.eq_nil.2, add_zero]

theorem Scopes.own_le {segs : List Seg} {S T : Scopes} {own : ScopeId → Multiset ℕ}
    (h : ∀ id, (S.get id).Tied segs (T.get id) (own id)) (id : ScopeId) :
    own id ≤ ∑ id ∈ Finset.range S.depth, own id := by
  by_cases hid : id < S.depth
  · exact Finset.single_le_sum (fun _ _ => Multiset.zero_le _) (Finset.mem_range.mpr hid)
  · rw [own_eq_zero h (Nat.le_of_not_lt hid)]
    exact Multiset.zero_le _

theorem Scopes.Tied.grown {F : Multiset ℕ} {g g' : Ghost} {S T : Scopes} {m : Multiset ℕ}
    (h : S.Tied g.segs T m) (hg : Grown F g g') (hF : m ≤ F) : S.Tied g'.segs T m := by
  obtain ⟨own, hown, rfl⟩ := h.held
  exact ⟨h.depth, own, fun id => (hown id).grown hg ((Scopes.own_le hown id).trans hF), rfl⟩

/-! ### Steps one after the other -/

/-- A step that answers with no branches. -/
def Plain {α : Type} (P : Ghost → α → α → Prop) : Ghost → Multiset ℕ → α → α → Prop :=
  fun g m a b => m = 0 ∧ P g a b

/-- Both runs come to the same, and a place that can be reached is followed by one that can. -/
def Alike {α : Type} (g : Ghost) : Ghost → α → α → Prop :=
  fun g' a b => a = b ∧ (g.live = true → g'.live = true)

namespace Runs

variable {σ α β : Type} [Part σ] {limited : Bool} {g : Ghost} {m m' k : Multiset ℕ}
  {x y x' y' : EStateM Error σ α} {f f' : α → EStateM Error σ β}
  {Q Q' : Ghost → Multiset ℕ → α → α → Prop} {R : Ghost → Multiset ℕ → β → β → Prop}

theorem mono (h : Runs limited g m x y Q) (hQ : ∀ g' m' a b, Q g' m' a b → Q' g' m' a b) :
    Runs limited g m x y Q' := by
  intro F s t hst a p b q hx hy hlim
  obtain ⟨g', m', htied, hgrown, hq⟩ := h F s t hst a p b q hx hy hlim
  exact ⟨g', m', htied, hgrown, hQ _ _ _ _ hq⟩

theorem relax (h : Runs false g m x y Q) : Runs limited g m x y Q :=
  fun F s t hst a p b q hx hy _ => h F s t hst a p b q hx hy (fun h => absurd h (by decide))

theorem cast (h : Runs limited g m x y Q) (hm : m' = m) : Runs limited g m' x y Q := hm ▸ h

theorem pure {a b : α} (h : Q g m a b) :
    Runs limited g m (Pure.pure a : EStateM Error σ α) (Pure.pure b) Q := by
  rintro F s t hst a' p b' q ⟨⟩ ⟨⟩ -
  rw [Part.put_get, Part.put_get]
  exact ⟨g, m, hst, .refl _ _, h⟩

theorem throw {e : Error} : Runs limited g m (MonadExcept.throw e) y Q := by
  rintro F s t - a p b q ⟨⟩

theorem throw_right {e : Error} : Runs limited g m x (MonadExcept.throw e) Q := by
  rintro F s t - a p b q - ⟨⟩

/-- One step after another. The first one leaves the branches `k` alone, which the second one
goes on with. -/
theorem bind (hx : Runs false g m x y Q)
    (hf : ∀ g' m' a b, Grown k g g' → Q g' m' a b → Runs limited g' (m' + k) (f a) (f' b) R) :
    Runs limited g (m + k) (x >>= f) (y >>= f') R := by
  intro F s t hst b p b' q hxf hyf hlim
  obtain ⟨a, p₁, hxa, hfa⟩ := EStateM.bind_eq_ok.mp hxf
  obtain ⟨a', q₁, hya, hfa'⟩ := EStateM.bind_eq_ok.mp hyf
  rw [add_assoc] at hst
  obtain ⟨g₁, m₁, hst₁, hg₁, hq⟩ :=
    hx (k + F) s t hst a p₁ a' q₁ hxa hya (fun h => absurd h (by decide))
  rw [← add_assoc] at hst₁
  have hnext := hf g₁ m₁ a a' (hg₁.mono (Multiset.le_add_right _ _)) hq F _ _ hst₁ b p b' q
    (by rw [Part.get_put]; exact hfa) (by rw [Part.get_put]; exact hfa')
  obtain ⟨g₂, m₂, hst₂, hg₂, hr⟩ := hnext fun h => ⟨hg₁.firm (hlim h).1, by
    rw [Part.put_put]; exact (hlim h).2⟩
  rw [Part.put_put, Part.put_put] at hst₂
  exact ⟨g₂, m₂, hst₂, (hg₁.mono (Multiset.le_add_left _ _)).trans hg₂, hr⟩

/-- A step that takes no branches, and then another one. -/
theorem value (hx : Runs false g 0 x y Q)
    (hf : ∀ g' m' a b, Grown m g g' → Q g' m' a b → Runs limited g' (m' + m) (f a) (f' b) R) :
    Runs limited g m (x >>= f) (y >>= f') R :=
  cast (bind hx hf) (zero_add m).symm

/-- A step that takes no branches, and then one that goes on with what it gives. -/
theorem next (hx : Runs false g 0 x y Q)
    (hf : ∀ g' m' a b, Q g' m' a b → Runs limited g' m' (f a) (f' b) R) :
    Runs limited g 0 (x >>= f) (y >>= f') R :=
  value hx fun g' m' a b _ hq => cast (hf g' m' a b hq) (add_zero m')

/-- A step that neither takes nor gives branches, and then another one. -/
theorem step {P : Ghost → α → α → Prop} (hx : Runs false g 0 x y (Plain P))
    (hf : ∀ g' a b, Grown m g g' → P g' a b → Runs limited g' m (f a) (f' b) R) :
    Runs limited g m (x >>= f) (y >>= f') R := by
  refine value hx fun g' m' a b hg hp => ?_
  obtain ⟨rfl, hp⟩ := hp
  rw [zero_add]
  exact hf g' a b hg hp

/-- A step that uses up its branches, and then another one. -/
theorem spend {P : Ghost → α → α → Prop} (hx : Runs false g m x y (Plain P))
    (hf : ∀ g' a b, Grown k g g' → P g' a b → Runs limited g' k (f a) (f' b) R) :
    Runs limited g (m + k) (x >>= f) (y >>= f') R := by
  refine bind hx fun g' m' a b hg hp => ?_
  obtain ⟨rfl, hp⟩ := hp
  rw [zero_add]
  exact hf g' a b hg hp

/-- A step that uses up all branches, and then another one. -/
theorem spendAll {P : Ghost → α → α → Prop} (hx : Runs false g m x y (Plain P))
    (hf : ∀ g' a b, P g' a b → Runs limited g' 0 (f a) (f' b) R) :
    Runs limited g m (x >>= f) (y >>= f') R :=
  cast (spend hx fun g' a b _ => hf g' a b) (add_zero m).symm

/-- Branches that nobody asks for any more may be forgotten. -/
theorem forget (h : Runs limited g m x y Q) (hm : m ≤ m') : Runs limited g m' x y Q :=
  fun F s t hst => h F s t (hst.mono (Multiset.add_le_add_right hm))

/-- One step after another, where the first one may already count on the wide code to stay
short. What is composed does not shorten it. -/
theorem seq {asks : Resolver → Prop} (hx : Runs limited g m x y Q)
    (hy : limited = true → Composed asks true y ∧ ∀ b, Composed asks true (f' b))
    (hf : ∀ g' m' a b, Grown k g g' → Q g' m' a b → Runs limited g' (m' + k) (f a) (f' b) R) :
    Runs limited g (m + k) (x >>= f) (y >>= f') R := by
  intro F s t hst b p b' q hxf hyf hlim
  obtain ⟨a, p₁, hxa, hfa⟩ := EStateM.bind_eq_ok.mp hxf
  obtain ⟨a', q₁, hya, hfa'⟩ := EStateM.bind_eq_ok.mp hyf
  rw [add_assoc] at hst
  have hlim₁ (h : limited = true) : g.firm = true ∧ (Part.put q₁ t).asm.code.pc < 0xFFFFFFFF := by
    obtain ⟨hfirm, hshort⟩ := hlim h
    have hfirm₁ := (hy h).1.firm hya ⟨hst.code.wide, hst.code.firm hfirm⟩
    have hgrow := ((hy h).2 a').firm (s := Part.put q₁ t)
      (by rw [Part.get_put]; exact hfa') hfirm₁.1
    rw [Part.put_put] at hgrow
    exact ⟨hfirm, Nat.lt_of_le_of_lt hgrow.2 hshort⟩
  obtain ⟨g₁, m₁, hst₁, hg₁, hq⟩ := hx (k + F) s t hst a p₁ a' q₁ hxa hya hlim₁
  rw [← add_assoc] at hst₁
  obtain ⟨g₂, m₂, hst₂, hg₂, hr⟩ :=
    hf g₁ m₁ a a' (hg₁.mono (Multiset.le_add_right _ _)) hq F _ _ hst₁
    b p b' q (by rw [Part.get_put]; exact hfa) (by rw [Part.get_put]; exact hfa')
    fun h => ⟨hg₁.firm (hlim h).1, by rw [Part.put_put]; exact (hlim h).2⟩
  rw [Part.put_put, Part.put_put] at hst₂
  exact ⟨g₂, m₂, hst₂, (hg₁.mono (Multiset.le_add_left _ _)).trans hg₂, hr⟩

theorem ite {c c' : Prop} [Decidable c] [Decidable c'] (hc : c ↔ c')
    (hx : c → Runs limited g m x y Q) (hy : ¬ c → Runs limited g m x' y' Q) :
    Runs limited g m (if c then x else x') (if c' then y else y') Q := by
  by_cases h : c
  · rw [if_pos h, if_pos (hc.mp h)]
    exact hx h
  · rw [if_neg h, if_neg (fun h' => h (hc.mpr h'))]
    exact hy h

/-- A step that may be left out, and then another one. -/
theorem optional {c c' : Prop} [Decidable c] [Decidable c'] {x y : EStateM Error σ PUnit}
    {f f' : PUnit → EStateM Error σ β} {P : Ghost → PUnit → PUnit → Prop} (hc : c ↔ c')
    (hx : c → Runs false g 0 x y (Plain P)) (hskip : ¬ c → P g ⟨⟩ ⟨⟩)
    (hf : ∀ g' u v, Grown m g g' → P g' u v → Runs limited g' m (f u) (f' v) R) :
    Runs limited g m (if c then x >>= f else f ⟨⟩) (if c' then y >>= f' else f' ⟨⟩) R := by
  by_cases h : c
  · rw [if_pos h, if_pos (hc.mp h)]
    exact (hx h).step hf
  · rw [if_neg h, if_neg (fun h' => h (hc.mpr h'))]
    exact hf g ⟨⟩ ⟨⟩ (.refl _ _) (hskip h)

/-- A look at the states. -/
theorem get_bind {h h' : σ → EStateM Error σ α}
    (hf : ∀ F s t, Tied g (m + F) s t → Runs limited g m (h (Part.get s)) (h' (Part.get t)) Q) :
    Runs limited g m (MonadState.get >>= h) (MonadState.get >>= h') Q := by
  intro F s t hst b p b' q hx hy hlim
  obtain ⟨a, p₁, hget, hxa⟩ := EStateM.bind_eq_ok.mp hx
  obtain ⟨a', q₁, hget', hya⟩ := EStateM.bind_eq_ok.mp hy
  cases hget
  cases hget'
  exact hf F s t hst F s t hst b p b' q hxa hya hlim

/-! ### Steps on a part as steps on the whole -/

theorem onCode {x y : Emit α} (h : Runs limited g m x y Q) :
    Runs limited g m (Asm.onCode x) (Asm.onCode y) Q := by
  intro F s t hst a p b q hx hy hlim
  simp only [Asm.onCode] at hx hy
  split at hx
  · rename_i a' c hc
    cases hx
    split at hy
    · rename_i b' d hd
      cases hy
      exact h F s t hst _ _ _ _ hc hd hlim
    · cases hy
  · cases hx

theorem onAsm {x y : Asm α} (h : Runs limited g m x y Q) :
    Runs limited g m (Gen.onAsm x) (Gen.onAsm y) Q := by
  intro F s t hst a p b q hx hy hlim
  simp only [Gen.onAsm] at hx hy
  split at hx
  · rename_i a' c hc
    cases hx
    split at hy
    · rename_i b' d hd
      cases hy
      exact h F s t hst _ _ _ _ hc hd hlim
    · cases hy
  · cases hx

theorem onScopes {x y : Scoping α} (h : Runs limited g m x y Q) :
    Runs limited g m (Gen.onScopes x) (Gen.onScopes y) Q := by
  intro F s t hst a p b q hx hy hlim
  simp only [Gen.onScopes] at hx hy
  split at hx
  · rename_i a' c hc
    cases hx
    split at hy
    · rename_i b' d hd
      cases hy
      exact h F s t hst _ _ _ _ hc hd hlim
    · cases hy
  · cases hx

theorem inAsm {x y : Emit α} (h : Runs limited g m x y Q) :
    Runs limited g m (liftM x : Asm α) (liftM y) Q := onCode h

theorem inGen {x y : Emit α} (h : Runs limited g m x y Q) :
    Runs limited g m (liftM x : Gen α) (liftM y) Q := onAsm (onCode h)

theorem asmInGen {x y : Asm α} (h : Runs limited g m x y Q) :
    Runs limited g m (liftM x : Gen α) (liftM y) Q := onAsm h

theorem scopesInGen {x y : Scoping α} (h : Runs limited g m x y Q) :
    Runs limited g m (liftM x : Gen α) (liftM y) Q := onScopes h

theorem liftExcept_bind {x : Except Error α} {f f' : α → Gen β}
    (h : ∀ a, x = .ok a → Runs limited g m (f a) (f' a) R) :
    Runs limited g m (liftM x >>= f) (liftM x >>= f') R := by
  cases x with
  | ok a => exact h a rfl
  | error e => exact throw

/-! ### Steps on the code alone -/

/-- A step on the code leaves the scopes as they are. -/
theorem of_code {x y : Emit α}
    (h : ∀ O c d waiting, c.Tied g d → c.reachable = g.live →
      Chains g.segs c.pending d.pending waiting → Owned g.segs.length (waiting + (m + O)) →
      ∀ a c' b d', x c = .ok a c' → y d = .ok b d' → ∃ g' waiting' m', c'.Tied g' d' ∧
        c'.reachable = g'.live ∧ Chains g'.segs c'.pending d'.pending waiting' ∧
        Owned g'.segs.length (waiting' + (m' + O)) ∧ Grown O g g' ∧ Q g' m' a b) :
    Runs limited g m x y Q := by
  intro F s t hst a c' b d' hx hy _
  obtain ⟨waiting, held, hwaiting, hheld, howned⟩ := hst.links
  obtain ⟨g', waiting', m', htied, hlive, hwaiting', howned', hgrown, hq⟩ :=
    h (held + F) s.asm.code t.asm.code waiting hst.code hst.live hwaiting
      (howned.cast (by ac_rfl)) a c' b d' hx hy
  refine ⟨g', m', ?_, hgrown.mono (Multiset.le_add_left _ _), hq⟩
  exact {
    code := htied
    live := hlive
    links := ⟨waiting', held, hwaiting', hheld.grown hgrown (Multiset.le_add_right _ _),
      howned'.cast (by ac_rfl)⟩
    pool := hst.pool
    locals := hst.locals
    subroutines := hst.subroutines
    letDepth := hst.letDepth
    appends := hst.appends }

end Runs

/-! ### Steps that come to the same -/

/-- Both runs of the step come to the same, and where control comes to it, it goes on behind
it. -/
def Straight {σ α : Type} [Part σ] (x : EStateM Error σ α) : Prop :=
  ∀ g, Runs false g 0 x x (Plain (Alike g))

namespace Straight

variable {σ α β : Type} [Part σ] {x y : EStateM Error σ α} {f f' : α → EStateM Error σ β}

theorem pure {a : α} : Straight (Pure.pure a : EStateM Error σ α) :=
  fun _ => .pure ⟨rfl, rfl, id⟩

theorem throw {e : Error} : Straight (MonadExcept.throw e : EStateM Error σ α) := fun _ => .throw

/-- A step that comes to the same, and then another one. -/
theorem step {limited : Bool} {g : Ghost} {m : Multiset ℕ} {R : Ghost → Multiset ℕ → β → β → Prop}
    (hx : Straight x) (hf : ∀ g' a, Grown m g g' → (g.live = true → g'.live = true) →
      Runs limited g' m (f a) (f' a) R) : Runs limited g m (x >>= f) (x >>= f') R :=
  (hx g).step fun g' a _ hg ⟨hab, hlive⟩ => hab ▸ hf g' a hg hlive

theorem bind (hx : Straight x) (hf : ∀ a, Straight (f a)) : Straight (x >>= f) := by
  intro g
  refine hx.step fun g' a _ hlive => (hf a g').mono ?_
  rintro g'' _ _ _ ⟨rfl, rfl, hlive'⟩
  exact ⟨rfl, rfl, fun h => hlive' (hlive h)⟩

theorem ite {c : Prop} [Decidable c] (hx : Straight x) (hy : Straight y) :
    Straight (if c then x else y) := by
  split
  · exact hx
  · exact hy

/-- A step that may be left out, and then another one. -/
theorem optional {c : Prop} [Decidable c] {x : EStateM Error σ PUnit}
    {f : PUnit → EStateM Error σ β} (hx : Straight x) (hf : ∀ u, Straight (f u)) :
    Straight (if c then x >>= f else f ⟨⟩) :=
  .ite (hx.bind hf) (hf ⟨⟩)

theorem forM {γ : Type} {xs : List γ} {f : γ → EStateM Error σ PUnit}
    (h : ∀ a ∈ xs, Straight (f a)) : Straight (xs.forM f) := by
  induction xs with
  | nil => exact .pure
  | cons a xs ih =>
      exact .bind (h a (List.mem_cons_self ..)) fun _ => ih fun b hb =>
        h b (List.mem_cons_of_mem a hb)

theorem inAsm {x : Emit α} (h : Straight x) : Straight (liftM x : Asm α) := fun g => (h g).inAsm

theorem inGen {x : Emit α} (h : Straight x) : Straight (liftM x : Gen α) := fun g => (h g).inGen

theorem asmInGen {x : Asm α} (h : Straight x) : Straight (liftM x : Gen α) :=
  fun g => (h g).asmInGen

theorem liftExcept {x : Except Error α} : Straight (liftM x : Gen α) := by
  cases x with
  | ok a => exact .pure
  | error e => exact .throw

/-- A step on the pool. -/
theorem pooled (put : Pool → UInt16 × Pool) : Straight (Asm.pooled put) := by
  rintro g F s t hst a p b q ⟨⟩ ⟨⟩ -
  refine ⟨g, 0, ?_, .refl _ _, rfl, ?_, id⟩
  · exact { hst with pool := congrArg (fun p => (put p).2) hst.pool }
  · exact congrArg (fun p => (put p).1) hst.pool

/-- A step on the reports. -/
theorem reporting (h : Reports → Reports) : Straight (Gen.reporting h) := by
  rintro g F s t hst a p b q ⟨⟩ ⟨⟩ -
  exact ⟨g, 0, { hst with }, .refl _ _, rfl, rfl, id⟩

end Straight

end StackCode
