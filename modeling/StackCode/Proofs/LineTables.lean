import Mathlib.Data.List.Chain
import Mathlib.Data.List.TakeWhile
import StackCode.Generate.Method
import StackCode.Proofs.Sessions
import StackCode.Tree.Build

/-!
# The line table of a buffer

Rows are entered at the end of the code only. A row at the same place is replaced, a row that
would repeat the line before it is left out, and when a `goto` is taken back the rows at or behind
the new end are forgotten. `Code.Lined` is what these rules keep up together: the positions
increase, neighbouring rows are on different lines, and no row lies behind the end of the code.

This needs nothing of what is asked of a buffer. A `Code.Action` is any call, with any chain and
any target that it may be given, and a call that fails leaves a table in order as well. Only a
branch that is resolved takes code back, and the rows that are left then lie before the new end
(`Code.Cuts`), which is where the next row goes. `Code.actions_lined` puts this together for all
sequences of calls.

A table in order need not have a row for every statement. If a `goto` is the first instruction of
a line and is taken back, the row goes with it, and none is entered for what comes in its place: a
choice with a known condition begins with such a `goto` (`MethodDecl.constantChoice_line`).
-/

namespace StackCode

/-! ### Tables -/

/-- Rows are forgotten at the end of the table. -/
theorem toList_popWhile (rows : Array LineRow) (n : ℕ) : ∃ tail,
    rows.toList = (rows.popWhile (n ≤ ·.pc)).toList ++ tail ∧ (∀ r ∈ tail, n ≤ r.pc) ∧
      ∀ r ∈ (rows.popWhile (n ≤ ·.pc)).toList.getLast?, r.pc < n := by
  obtain ⟨l, rfl⟩ : ∃ l : List LineRow, rows = l.toArray := ⟨rows.toList, rfl⟩
  rw [List.popWhile_toArray]
  refine ⟨(l.reverse.takeWhile (n ≤ ·.pc)).reverse, ?_, fun r hr => ?_, fun r hr => ?_⟩
  · rw [← List.reverse_append, List.takeWhile_append_dropWhile, List.reverse_reverse]
  · simpa using List.mem_takeWhile_imp (List.mem_reverse.mp hr)
  · rw [List.getLast?_reverse] at hr
    have hstop := List.head?_dropWhile_not (n ≤ ·.pc) l.reverse
    rw [Option.mem_def.mp hr] at hstop
    simpa using hstop

/-- A row is added at the end of the table, in the place of one with the same position. -/
theorem toList_addLine (rows : Array LineRow) (row : LineRow) : ∃ kept tail,
    rows.toList = kept ++ tail ∧ (∀ r ∈ tail, r.pc = row.pc) ∧
      (tail = [] → ∀ r ∈ kept.getLast?, r.pc ≠ row.pc) ∧
      ((Code.addLine rows row).toList = kept ++ [row] ∨
        (Code.addLine rows row).toList = kept ∧ ∃ r ∈ kept.getLast?, r.line = row.line) := by
  have hadd (base : Array LineRow) :
      (if base.back?.any (·.line == row.line) then base else base.push row).toList =
        base.toList ++ [row] ∨
        (if base.back?.any (·.line == row.line) then base else base.push row).toList = base.toList ∧
          ∃ r ∈ base.toList.getLast?, r.line = row.line := by
    split
    · rename_i hrepeats
      obtain ⟨r, hr, hline⟩ := (Option.any_eq_true _ _).mp hrepeats
      exact .inr ⟨rfl, r, (base.getLast?_toList).trans hr, by simpa using hline⟩
    · exact .inl (Array.toList_push ..)
  unfold Code.addLine
  dsimp only
  split
  · rename_i hsame
    obtain ⟨last, hlast, hpc⟩ := (Option.any_eq_true _ _).mp hsame
    have hsplit : rows.pop.toList ++ [last] = rows.toList := by
      rw [Array.toList_pop]
      exact List.dropLast_append_getLast? last ((rows.getLast?_toList).trans hlast)
    exact ⟨rows.pop.toList, [last], hsplit.symm, by simpa using hpc, nofun, hadd rows.pop⟩
  · rename_i hother
    refine ⟨rows.toList, [], (List.append_nil _).symm, fun _ hr => absurd hr List.not_mem_nil,
      ?_, hadd rows⟩
    intro _ r hr hpc
    rw [rows.getLast?_toList, Option.mem_def] at hr
    exact hother ((Option.any_eq_true _ _).mpr ⟨r, hr, by simpa using hpc⟩)

/-- In a table in order, the last row decides where all rows are. -/
theorem lt_of_getLast? {l : List LineRow} (hsorted : l.Pairwise (·.pc < ·.pc))
    (hlast : ∀ r ∈ l.getLast?, r.pc < n) :
    ∀ r ∈ l, r.pc < n := by
  rcases List.eq_nil_or_concat l with rfl | ⟨init, last, rfl⟩
  · exact fun _ hr => absurd hr List.not_mem_nil
  · have hn : last.pc < n := hlast last (by simp)
    intro r hr
    rcases List.mem_append.mp (List.concat_eq_append ▸ hr) with hr | hr
    · have hrest := (List.pairwise_append.mp (List.concat_eq_append ▸ hsorted)).2.2 r hr last
        List.mem_cons_self
      omega
    · exact List.mem_singleton.mp hr ▸ hn

namespace Code

/-- The rows of the line table are in order and within the code. -/
structure Ruled (c : Code) : Prop where
  sorted : c.lines.toList.Pairwise (·.pc < ·.pc)
  within : ∀ r ∈ c.lines.toList, r.pc ≤ c.pc

/-- The rows of the line table are in order and within the code, and neighbours are on different
lines. -/
structure Lined (c : Code) : Prop extends c.Ruled where
  varied : c.lines.toList.IsChain (·.line ≠ ·.line)

/-- Code is left as long as it was, with its line table, or it is cut off before some rows, and
all rows that are left are before the new end. -/
structure Cuts (c c' : Code) : Prop where
  rows : c'.lines.toList <+: c.lines.toList
  ends : c'.pc = c.pc ∧ c'.lines = c.lines ∨ c'.pc < c.pc ∧ ∀ r ∈ c'.lines.toList, r.pc < c'.pc

variable {c c' c'' : Code}

theorem Ruled.of_eq (h : c.Ruled) (hlines : c'.lines = c.lines)
    (hpc : c.pc ≤ c'.pc) : c'.Ruled where
  sorted := hlines ▸ h.sorted
  within r hr := (h.within r (hlines ▸ hr)).trans hpc

/-- What entering a line comes to. -/
theorem markLine_cases (c : Code) : c.markLine.lines = c.lines ∨
    ∃ line, c.markLine.lines = addLine c.lines ⟨c.pc, line⟩ := by
  unfold markLine
  split
  · exact .inl rfl
  · dsimp only
    split
    · exact .inr ⟨_, rfl⟩
    · exact .inl rfl

theorem Lined.of_eq (h : c.Lined) (hlines : c'.lines = c.lines)
    (hpc : c.pc ≤ c'.pc) : c'.Lined where
  toRuled := h.toRuled.of_eq hlines hpc
  varied := hlines ▸ h.varied

/-! ### Entering rows -/

theorem isChain_addLine {rows : Array LineRow} (h : rows.toList.IsChain (·.line ≠ ·.line))
    (row : LineRow) :
    (addLine rows row).toList.IsChain (·.line ≠ ·.line) := by
  have hadd (base : Array LineRow) (hbase : base.toList.IsChain (·.line ≠ ·.line)) :
      (if base.back?.any (·.line == row.line) then base else base.push row).toList.IsChain
        (·.line ≠ ·.line) := by
    split
    · exact hbase
    · rename_i hother
      rw [Array.toList_push, List.isChain_append]
      refine ⟨hbase, .singleton row, fun r hr r' hr' hline => hother ?_⟩
      rw [base.getLast?_toList, Option.mem_def] at hr
      obtain rfl : row = r' := by simpa using hr'
      exact (Option.any_eq_true _ _).mpr ⟨r, hr, by simpa using hline⟩
  unfold addLine
  dsimp only
  split
  · exact hadd rows.pop (Array.toList_pop ▸ h.dropLast)
  · exact hadd rows h

theorem Ruled.mark (h : c.Ruled) : c.markLine.Ruled := by
  have hpc := c.pc_markLine
  rcases c.markLine_cases with hsame | ⟨line, hadd⟩
  · exact h.of_eq hsame hpc.ge
  · obtain ⟨kept, tail, hrows, htail, hempty, hcase⟩ := toList_addLine c.lines ⟨c.pc, line⟩
    have hsorted := hrows ▸ h.sorted
    have hwithin := hrows ▸ h.within
    obtain ⟨hkept, -, hcross⟩ := List.pairwise_append.mp hsorted
    -- the rows that are left are before the end of the code
    have hlt : ∀ r ∈ kept, r.pc < c.pc := by
      cases tail with
      | nil =>
          refine lt_of_getLast? hkept fun r hr => ?_
          have hle := hwithin r (List.mem_append_left _ (List.mem_of_getLast? hr))
          exact Nat.lt_of_le_of_ne hle (hempty rfl r hr)
      | cons last rest =>
          intro r hr
          have hlast : last.pc = c.pc := htail last List.mem_cons_self
          exact hlast ▸ hcross r hr last List.mem_cons_self
    rw [← hadd] at hcase
    rcases hcase with hlines | ⟨hlines, -⟩
    · refine ⟨?_, ?_⟩
      · rw [hlines]
        exact List.pairwise_append.mpr ⟨hkept, List.pairwise_singleton _ _,
          fun r hr r' hr' => List.mem_singleton.mp hr' ▸ hlt r hr⟩
      · rw [hlines, hpc]
        intro r hr
        rcases List.mem_append.mp hr with hr | hr
        · exact (hlt r hr).le
        · exact (List.mem_singleton.mp hr ▸ Nat.le_refl _ : r.pc ≤ c.pc)
    · exact ⟨hlines ▸ hkept, fun r hr => hpc ▸ (hlt r (hlines ▸ hr)).le⟩

theorem Lined.mark (h : c.Lined) : c.markLine.Lined where
  toRuled := h.toRuled.mark
  varied := by
    rcases c.markLine_cases with hsame | ⟨line, hadd⟩
    · exact hsame ▸ h.varied
    · exact hadd ▸ isChain_addLine h.varied _

/-! ### Taking code back -/

theorem Cuts.of_eq (hpc : c'.pc = c.pc) (hlines : c'.lines = c.lines) : c.Cuts c' :=
  ⟨hlines ▸ List.prefix_rfl, .inl ⟨hpc, hlines⟩⟩

theorem Cuts.trans (h : c.Cuts c') (h' : c'.Cuts c'') : c.Cuts c'' := by
  refine ⟨h'.rows.trans h.rows, ?_⟩
  rcases h'.ends with ⟨hpc', hlines'⟩ | ⟨hpc', hlt'⟩
  · rw [hpc', hlines']
    exact h.ends
  · refine .inr ⟨?_, hlt'⟩
    rcases h.ends with ⟨hpc, -⟩ | ⟨hpc, -⟩
    · exact hpc ▸ hpc'
    · exact hpc'.trans hpc

theorem Lined.cut (h : c.Lined) (hcut : c.Cuts c') : c'.Lined := by
  refine ⟨⟨h.sorted.sublist hcut.rows.sublist, fun r hr => ?_⟩, h.varied.prefix hcut.rows⟩
  rcases hcut.ends with ⟨hpc, hlines⟩ | ⟨-, hlt⟩
  · exact hpc ▸ h.within r (hlines ▸ hr)
  · exact (hlt r hr).le

theorem Lined.cuts_dropTail (h : c.Lined) (hpc : 3 ≤ c.pc) : c.Cuts (c.dropTail 3) := by
  have hend := c.size_dropTail 3
  obtain ⟨vars, slots, hdrop⟩ := c.dropTail_eq 3
  rw [hdrop] at hend ⊢
  obtain ⟨tail, hrows, -, hlast⟩ := toList_popWhile c.lines (c.pc - 3)
  refine ⟨⟨tail, hrows.symm⟩, .inr ⟨by omega, ?_⟩⟩
  rw [hend]
  exact lt_of_getLast? (List.pairwise_append.mp (hrows ▸ h.sorted)).1 hlast

theorem cuts_patch (c : Code) (p t : ℕ) : c.Cuts (c.patch p t) := by
  refine .of_eq (c.pc_patch p t) ?_
  obtain ⟨bs, n, hpatch⟩ := c.patch_eq p t
  rw [hpatch]

theorem cuts_land (c : Code) (link : Link) (target : ℕ) (joined : Option Frame) :
    c.Cuts (c.land link target joined).1 := by
  unfold land
  dsimp only
  split
  · split <;> exact .of_eq rfl rfl
  · exact .of_eq rfl rfl

theorem Lined.put1 (h : c.Lined) (b : UInt8) : (c.put1 b).Lined := by
  unfold Code.put1
  split
  · exact h.of_eq rfl (by simp [pc])
  · exact h

theorem Lined.put2 (h : c.Lined) (w : UInt16) : (c.put2 w).Lined := (h.put1 _).put1 _

theorem Lined.put4 (h : c.Lined) (n : Int32) : (c.put4 n).Lined := (h.put2 _).put2 _

end Code

namespace Emit

variable {α β : Type}

/-- The code that a step leaves, whether it succeeds or fails. -/
def left (x : Emit α) (c : Code) : Code :=
  match x c with
  | .ok _ c' => c'
  | .error _ c' => c'

/-- A relation that can be followed through two steps holds of both together. -/
theorem left_bind {x : Emit α} {f : α → Emit β} {c : Code} {Q R : Code → Prop} (hx : Q (x.left c))
    (hfail : ∀ c', Q c' → R c') (hf : ∀ a c', Q c' → R ((f a).left c')) : R ((x >>= f).left c) := by
  have hbind : (x >>= f) c = match x c with
      | .ok a c' => f a c'
      | .error e c' => .error e c' := by
    show EStateM.bind x f c = _
    unfold EStateM.bind
    split <;> rename_i hrun <;> rw [hrun]
  unfold left at hx ⊢
  rw [hbind]
  cases hrun : x c with
  | ok a c' =>
      rw [hrun] at hx
      exact hf a c' hx
  | error e c' =>
      rw [hrun] at hx
      exact hfail c' hx

theorem cuts_resolveLinks (chain : Chain) (target : ℕ) (joined : Option Frame) {c : Code}
    (h : c.Lined) :
    c.Cuts ((resolveLinks chain target joined).left c) := by
  induction chain generalizing target joined c with
  | nil => exact .of_eq rfl rfl
  | cons link rest ih =>
      have hgo {c₁ : Code} (target : ℕ) (hcut : c.Cuts c₁) :
          c.Cuts ((resolveLinks rest target (c₁.land link target joined).2).left
            (c₁.land link target joined).1) :=
        have hland := hcut.trans (c₁.cuts_land link target joined)
        hland.trans (ih _ _ (h.cut hland))
      have hget {γ : Type} (f : Code → Emit γ) : (get >>= f).left c = (f c).left c := rfl
      have hupdate {γ δ : Type} (g : Code → γ × Code) (f : γ → Emit δ) :
          (modifyGet g >>= f).left c = (f (g c).1).left (g c).2 := rfl
      rw [resolveLinks, hget]
      dsimp only
      split
      · rename_i hends
        have hpc : 3 ≤ c.pc := by
          simp only [Code.endsWithGoto, Bool.and_eq_true, beq_iff_eq] at hends
          omega
        split
        · exact (h.cuts_dropTail hpc).trans (.of_eq rfl rfl)
        · rw [hupdate]
          exact hgo _ (h.cuts_dropTail hpc)
      · split
        · exact .of_eq rfl rfl
        · exact hgo _ (c.cuts_patch link.pc _)

theorem cuts_resolveTo (chain : Chain) (target : ℕ) {c : Code} (h : c.Lined) :
    c.Cuts ((resolveTo chain target).left c) := by
  refine left_bind (cuts_resolveLinks chain target none h) (fun _ => id) fun joined c' hcut => ?_
  cases joined with
  | none => exact hcut
  | some frame => exact hcut.trans (.of_eq rfl rfl)

theorem cuts_resolvePending {c : Code} (h : c.Lined) : c.Cuts (resolvePending.left c) := by
  show c.Cuts (left (if c.pending.isEmpty = true then pure () else _) c)
  split
  · exact .of_eq rfl rfl
  · have hnone : c.Cuts { c with pending := [] } := .of_eq rfl rfl
    exact hnone.trans (cuts_resolveTo c.pending c.pc (h.cut hnone))

/-! ### Calls -/

/-- The step leaves the line table in order if it finds it in order. -/
def KeepsLined (x : Emit α) : Prop := ∀ c : Code, c.Lined → (x.left c).Lined

namespace KeepsLined

variable {x y : Emit α} {f : α → Emit β}

theorem pure (a : α) : KeepsLined (Pure.pure a) := fun _ => id

theorem throw (e : Error) : KeepsLined (MonadExcept.throw e : Emit α) := fun _ => id

theorem bind (hx : KeepsLined x) (hf : ∀ a, KeepsLined (f a)) : KeepsLined (x >>= f) :=
  fun c hc => left_bind (hx c hc) (fun _ => id) fun a c' => hf a c'

theorem get_bind {f : Code → Emit α} (hf : ∀ c, KeepsLined (f c)) : KeepsLined (get >>= f) :=
  fun c => hf c c

theorem modify {g : Code → Code} (hg : ∀ c : Code, c.Lined → (g c).Lined) :
    KeepsLined (modify g : Emit Unit) :=
  hg

/-- A change that has nothing to do with bytes or lines. -/
theorem set {g : Code → Code} (hg : ∀ c : Code, (g c).lines = c.lines ∧ (g c).bytes = c.bytes) :
    KeepsLined (MonadState.modifyGet fun c => ((), g c) : Emit Unit) :=
  fun c hc => hc.of_eq (hg c).1 (congrArg Array.size (hg c).2).ge

theorem ite {p : Prop} [Decidable p] (hx : KeepsLined x) (hy : KeepsLined y) :
    KeepsLined (if p then x else y) := by
  split
  · exact hx
  · exact hy

/-- A step that may be left out, and then another one. -/
theorem optional {p : Prop} [Decidable p] {x : Emit PUnit} {f : PUnit → Emit β} (hx : KeepsLined x)
    (hf : ∀ u, KeepsLined (f u)) : KeepsLined (if p then x >>= f else f ⟨⟩) :=
  .ite (hx.bind hf) (hf ⟨⟩)

end KeepsLined

theorem lined_resolveTo (chain : Chain) (target : ℕ) : KeepsLined (resolveTo chain target) :=
  fun _ h => h.cut (cuts_resolveTo chain target h)

theorem lined_resolvePending : KeepsLined resolvePending := fun _ h => h.cut (cuts_resolvePending h)

theorem lined_resolve (chain : Chain) : KeepsLined (resolve chain) := by
  refine .get_bind fun c => ?_
  generalize chain.merge c.pending = merged
  cases merged with
  | ok pending =>
      have hwait : KeepsLined (MonadState.modifyGet fun c : Code => ((), { c with pending })) :=
        .set fun _ => ⟨rfl, rfl⟩
      cases chain with
      | nil => exact hwait
      | cons link rest => exact .optional (.throw _) fun _ => hwait
  | error e =>
      cases chain with
      | nil => exact .throw e
      | cons link rest => exact .optional (.throw _) fun _ => .throw e

theorem lined_opcode (op : Opcode) : KeepsLined (opcode op) :=
  lined_resolvePending.bind fun _ => .get_bind fun _ =>
    .ite (.modify fun _ h => h.mark.put1 op) (.pure _)

theorem lined_effect (e : Effect) : KeepsLined (effect e) :=
  .get_bind fun _ => .optional (.throw _) fun _ => .set fun _ => by cases e <;> exact ⟨rfl, rfl⟩

theorem lined_finishOp (op : Opcode) (operands : Operands) : KeepsLined (finishOp op operands) := by
  refine .get_bind fun _ => .ite ?_ (.pure _)
  split
  · exact .ite (lined_effect _) (.throw _)
  · exact .throw _

theorem lined_plain (op : Opcode) : KeepsLined (plain op) :=
  (lined_opcode op).bind fun _ => lined_finishOp op .plain

theorem lined_short (op : Opcode) (w : UInt16) : KeepsLined (short op w) :=
  (lined_opcode op).bind fun _ => .bind (.modify fun _ h => h.put2 w) fun _ =>
    lined_finishOp op .short

theorem lined_int (op : Opcode) (n : Int32) : KeepsLined (int op n) :=
  (lined_opcode op).bind fun _ => .bind (.modify fun _ h => h.put4 n) fun _ =>
    lined_finishOp op .int

theorem lined_pad (n : ℕ) : KeepsLined (pad n) := by
  induction n with
  | zero => exact .pure _
  | succ n ih => exact (lined_plain .nop).bind fun _ => ih

theorem lined_jump (op : Opcode) : KeepsLined (jump op) := by
  have hpc (k : ℕ) : ∀ _ : PUnit, KeepsLined (do return (← get).pc - k : Emit ℕ) :=
    fun _ => .get_bind fun _ => .pure _
  refine .get_bind fun _ => .ite (.ite ?_ (.ite ?_ ?_)) ?_
  · exact (lined_int .gotoW 0).bind (hpc 5)
  · exact (lined_int .jsrW 0).bind (hpc 5)
  · exact (lined_short op.negate 8).bind fun _ => (lined_int .gotoW 0).bind fun _ =>
      .bind (.set fun _ => ⟨rfl, rfl⟩) (hpc 5)
  · exact (lined_short op 0).bind (hpc 3)

theorem lined_branch (op : Opcode) : KeepsLined (branch op) :=
  .get_bind fun _ => .optional (.set fun _ => ⟨rfl, rfl⟩) fun _ => .get_bind fun _ =>
    .ite (.pure _) <|
    (lined_jump op).bind fun _ => .get_bind fun _ => .bind (.set fun _ => ⟨rfl, rfl⟩)
      fun _ => .pure _

theorem lined_curPc : KeepsLined curPc :=
  lined_resolvePending.bind fun _ =>
    .bind (.modify fun _ h => h.mark.of_eq rfl (Nat.le_refl _)) fun _ =>
    .get_bind fun _ => .pure _

theorem lined_entryWith (frame : Frame) : KeepsLined (entryWith frame) :=
  lined_curPc.bind fun _ => .bind (.set fun _ => ⟨rfl, rfl⟩) fun _ => .pure _

end Emit

namespace Code

/-- A call on the buffer. -/
inductive Action where
  | plain (op : Opcode)
  | byte (op : Opcode) (b : UInt8)
  | register (op : Opcode) (reg : UInt16)
  | short (op : Opcode) (w : UInt16)
  | int (op : Opcode) (n : Int32)
  | iinc (reg : UInt16) (delta : Int16)
  | ldc (index : UInt16) (k : Kind)
  | field (op : Opcode) (index : UInt16) (k : Kind)
  | invoke (op : Opcode) (index : UInt16) (words : ℕ) (k : Kind)
  | multiarray (dims : UInt8) (index : UInt16)
  | align (unit : ℕ)
  /-- a word of a switch table -/
  | word (n : Int32)
  | jump (op : Opcode)
  | branch (op : Opcode)
  | resolve (chain : Chain)
  | resolveTo (chain : Chain) (target : ℕ)
  | curPc
  | entry
  | entryWith (frame : Frame)
  | entryPushed (frame : Frame) (k : Kind)
  | beginLine (line : ℕ)
  | markLine
  | setLine (line : Option ℕ)
  | kill

namespace Action

/-- What the call does. -/
def run : Action → Emit Unit
  | plain op => Emit.plain op
  | byte op b => Emit.byte op b
  | register op reg => Emit.register op reg
  | short op w => Emit.short op w
  | int op n => Emit.int op n
  | iinc reg delta => Emit.iinc reg delta
  | ldc index k => Emit.ldc index k
  | field op index k => Emit.field op index k
  | invoke op index words k => Emit.invoke op index words k
  | multiarray dims index => Emit.multiarray dims index
  | align unit => Emit.align unit
  | word n => modify (·.put4 n)
  | jump op => do let _ ← Emit.jump op
  | branch op => do let _ ← Emit.branch op
  | resolve chain => Emit.resolve chain
  | resolveTo chain target => Emit.resolveTo chain target
  | curPc => do let _ ← Emit.curPc
  | entry => do let _ ← Emit.entry
  | entryWith frame => do let _ ← Emit.entryWith frame
  | entryPushed frame k => do let _ ← Emit.entryPushed frame k
  | beginLine line => modify (·.beginLine line)
  | markLine => modify (·.markLine)
  | setLine line => modify fun c => { c with pendingLine := line }
  | kill => modify (·.kill)

open Emit in
/-- Every call keeps the line table in order. -/
theorem lined (a : Action) : KeepsLined a.run := by
  have heffect (e : Effect) :
      ∀ _ : PUnit, KeepsLined (do if (← get).alive then effect e : Emit Unit) :=
    fun _ => .get_bind fun _ => .ite (lined_effect e) (.pure _)
  cases a with
  | plain op => exact lined_plain op
  | byte op b =>
      exact (lined_opcode op).bind fun _ => .bind (.modify fun _ h => h.put1 b) fun _ =>
        lined_finishOp op .byte
  | register op reg =>
      have hend : ∀ _ : PUnit, KeepsLined (finishOp op .register) :=
        fun _ => lined_finishOp op .register
      refine .ite ?_ ?_
      · exact (lined_opcode .wide).bind fun _ => (lined_opcode op).bind fun _ =>
          .bind (.modify fun _ h => h.put2 reg) hend
      · exact (lined_opcode op).bind fun _ => .bind (.modify fun _ h => h.put1 _) hend
  | short op w => exact lined_short op w
  | int op n => exact lined_int op n
  | iinc reg delta =>
      refine .ite ?_ ?_
      · exact (lined_opcode .wide).bind fun _ => (lined_opcode .iinc).bind fun _ =>
          .modify fun _ h => (h.put2 _).put2 _
      · exact (lined_opcode .iinc).bind fun _ => .modify fun _ h => (h.put1 _).put1 _
  | ldc index k =>
      refine .ite ?_ (.ite ?_ ?_)
      · exact (lined_opcode _).bind fun _ => .bind (.modify fun _ h => h.put2 index) (heffect _)
      · exact (lined_opcode _).bind fun _ => .bind (.modify fun _ h => h.put1 _) (heffect _)
      · exact (lined_opcode _).bind fun _ => .bind (.modify fun _ h => h.put2 index) (heffect _)
  | field op index k =>
      refine (lined_opcode op).bind fun _ => .bind (.modify fun _ h => h.put2 index) fun _ =>
        .get_bind fun _ => .ite ?_ (.pure _)
      split
      · exact lined_effect _
      · exact .throw _
  | invoke op index words k =>
      exact (lined_opcode op).bind fun _ => .bind (.modify fun _ h => h.put2 index) fun _ =>
        .optional (.modify fun _ h => (h.put1 _).put1 _) (heffect _)
  | multiarray dims index =>
      exact (lined_opcode _).bind fun _ =>
        .bind (.modify fun _ h => (h.put2 index).put1 dims) (heffect _)
  | align unit =>
      exact .get_bind fun _ => .get_bind fun _ => .ite
        ((lined_plain .nop).bind fun _ => .get_bind fun _ => lined_pad _) (.pure _)
  | word n => exact .modify fun _ h => h.put4 n
  | jump op => exact (lined_jump op).bind fun _ => .pure _
  | branch op => exact (lined_branch op).bind fun _ => .pure _
  | resolve chain => exact lined_resolve chain
  | resolveTo chain target => exact lined_resolveTo chain target
  | curPc => exact lined_curPc.bind fun _ => .pure _
  | entry =>
      exact .bind (lined_curPc.bind fun _ => .bind (.set fun _ => ⟨rfl, rfl⟩) fun _ => .pure _)
        fun _ => .pure _
  | entryWith frame => exact (lined_entryWith frame).bind fun _ => .pure _
  | entryPushed frame k =>
      exact .bind ((lined_entryWith frame).bind fun _ => .bind (.set fun _ => ⟨rfl, rfl⟩)
        fun _ => .pure _)
        fun _ => .pure _
  | beginLine line => exact .set fun c => by unfold Code.beginLine; split <;> exact ⟨rfl, rfl⟩
  | markLine => exact .modify fun _ h => h.mark
  | setLine line => exact .set fun _ => ⟨rfl, rfl⟩
  | kill => exact .set fun _ => ⟨rfl, rfl⟩

end Action

/-- The code after calls, one after the other, of which any may fail. -/
def after (c : Code) (actions : List Action) : Code :=
  actions.foldl (fun c a => a.run.left c) c

theorem Lined.after {c : Code} (h : c.Lined) (actions : List Action) : (c.after actions).Lined := by
  induction actions generalizing c with
  | nil => exact h
  | cons a actions ih => exact ih (a.lined c h)

theorem lined_new (wide : Bool) (config : Config) : (new wide config).Lined :=
  ⟨⟨.nil, fun _ hr => absurd hr List.not_mem_nil⟩, .nil⟩

/-- Whatever calls are made on an empty buffer, its line table is in order, and it still is when
branches are resolved, either to a place or, as every instruction and every question for the
position does first, to the end of the code. If a `goto` is taken back there, all rows that are
left lie before the new end. -/
theorem actions_lined (wide : Bool) (config : Config) (actions : List Action) :
    let c := (new wide config).after actions
    c.Lined ∧ (∀ chain target, c.Cuts ((Emit.resolveTo chain target).left c)) ∧
      c.Cuts (Emit.resolvePending.left c) := by
  intro c
  have h : c.Lined := (lined_new wide config).after actions
  exact ⟨h, fun chain target => Emit.cuts_resolveTo chain target h, Emit.cuts_resolvePending h⟩

/-- A `goto` with a line of its own is taken back. -/
theorem actions_lined_retracted :
    let c := (new false {}).after [.beginLine 3, .plain .nop, .beginLine 4, .branch .goto]
    let c' := (Emit.resolveTo [⟨1, {}⟩] 4).left c
    (c.pc, c.lines) = (4, #[⟨0, 3⟩, ⟨1, 4⟩]) ∧ (c'.pc, c'.lines) = (1, #[⟨0, 3⟩]) ∧
      ∀ r ∈ c'.lines.toList, r.pc < c'.pc := by
  intro c c'
  have hbefore : (c.pc, c.lines) = (4, #[⟨0, 3⟩, ⟨1, 4⟩]) := by decide +kernel
  have hafter : (c'.pc, c'.lines) = (1, #[⟨0, 3⟩]) := by decide +kernel
  have hcuts : c.Cuts c' := (actions_lined false {} _).2.1 [⟨1, {}⟩] 4
  refine ⟨hbefore, hafter, (hcuts.ends.resolve_left fun hsame => ?_).2⟩
  rw [(Prod.mk.inj hbefore).1, (Prod.mk.inj hafter).1] at hsame
  exact absurd hsame.1 (by decide)

end Code

/-! ### A line that gets lost -/

/-- The line of the instruction at `pc`. -/
def lineAt (rows : Array LineRow) (pc : ℕ) : Option ℕ :=
  (rows.toList.filter (·.pc ≤ pc)).getLast?.map (·.line)

namespace MethodDecl

/-- The finished code of a method, if there is any. -/
def codeAttr? (m : MethodDecl) : Option CodeAttr :=
  let ctx : Context := { config := {}, resolver := Hierarchy.resolver {}, cls := "C", method := m }
  ((ClassGen.method ctx).run' {}).join

/-- `static void m(int i)` with `i = 0` on line 2 and `i = false ? 1 : 2` on line 3. -/
def constantChoice : MethodDecl :=
  let i : LocalVar := ⟨0, "i", .int, none⟩
  let set (line : ℕ) (value : Span → Expr) : Stmt :=
    let span : Span := .ofLine line
    .exec ⟨0, span⟩ (.assign (Expr.plainInfo span .int) (.ofVar span i) (value span))
  let choice (span : Span) : Expr :=
    .cond (Expr.plainInfo span .int) (.ofBool span false) (.ofInt span 1) (.ofInt span 2)
  let body : Stmt := .block ⟨1, .ofLine 1⟩ [set 2 (.ofInt · 0), set 3 choice]
  ⟨.ofLine 1, "m", Access.staticBit, ⟨[.int], .void⟩, [i], some body⟩

/-- The first instruction of the statement on line 3 is taken for one of line 2. -/
theorem constantChoice_line :
    ∃ code rows, constantChoice.codeAttr? = some code ∧ code.lines = some rows ∧
    code.bytes = #[Opcode.iconst0, Opcode.istore0, Opcode.iconst2, Opcode.istore0, Opcode.vreturn] ∧
    lineAt rows 2 = some 2 :=
  ⟨⟨_, 1, 1, #[], some #[⟨0, 2⟩, ⟨4, 1⟩], none, none⟩, _, by decide +kernel, rfl, rfl, by decide⟩

end MethodDecl

end StackCode
