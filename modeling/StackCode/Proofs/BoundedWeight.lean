import Mathlib.Data.Int.Notation
import Mathlib.Data.Nat.Notation
import StackCode.Generate.Protect

/-!
# Counting a weight up to a limit

The weight of a tree is the sum of what its constructs weigh, the operands of constant operations
left out. `Stmt.weightUpTo` finds it on a way through the tree that enters no further subtree once
the limit is passed, so that it may answer less than the weight; but only if it has passed the limit
by then. That is what `Counts` says of one count, for any weight found before: it adds the whole
weight, or it stops above the limit and has not added more.
-/

namespace StackCode

/-! ### The whole weight -/

mutual

/-- The weight of an expression. -/
def Expr.weight (e : Expr) : ℕ :=
  match e with
  | .literal _ => weights.literal
  | .ident i s => s.weight i.const
  | .selfRef _ _ none => weights.var + weights.field
  | .selfRef _ _ (some _) => 0
  | .select _ t s => t.weight + s.selectWeight
  | .classLit _ _ => weights.select
  | .apply _ f as => f.weight + exprsWeight as + weights.call
  | .newClass _ _ as => exprsWeight as + weights.call
  | .newArray _ es | .arrayInit _ es => exprsWeight es + weights.array
  | .parens _ a | .cast _ _ a => a.weight
  | .assign _ l r => l.weight + r.weight + weights.assign
  | .assignOp _ _ _ l r => l.weight + r.weight + weights.assignOp
  | .unary i _ _ a => weights.operator + if i.const.isNone then a.weight else 0
  | .binary i _ _ l r => weights.operator + if i.const.isNone then l.weight + r.weight else 0
  | .typeTest _ a _ => a.weight + weights.typeTest
  | .index _ a x => a.weight + x.weight + weights.index
  | .cond _ c t f => c.weight + t.weight + f.weight + weights.cond
  | .letIn _ ss v => stmtsWeight ss + v.weight

/-- The weight of a statement. -/
def Stmt.weight (s : Stmt) : ℕ :=
  match s with
  | .block _ ss => stmtsWeight ss
  | .varDef _ _ (some e) | .exec _ e => e.weight
  | .varDef _ _ none | .skip _ | .localClass _ _ => 0
  | .doLoop _ b c => b.weight + c.weight + weights.loop
  | .whileLoop _ c b => c.weight + b.weight + weights.loop
  | .forLoop _ init test step b =>
    stmtsWeight init + optExprWeight test + stmtsWeight step + b.weight + weights.loop
  | .foreach _ _ e b => e.weight + b.weight
  | .labelled _ _ b => b.weight
  | .switch _ e cs => e.weight + casesWeight cs + weights.switch
  | .sync _ e b => e.weight + b.weight + weights.sync
  | .tryCatch _ b cs none => b.weight + catchesWeight cs
  | .tryCatch _ b cs (some f) => b.weight + catchesWeight cs + f.weight + weights.finallyBlock
  | .ite _ c t none => c.weight + t.weight + weights.cond
  | .ite _ c t (some f) => c.weight + t.weight + f.weight + weights.cond
  | .breakTo _ _ | .continueTo _ _ | .ret _ none => weights.jump
  | .ret _ (some e) | .raise _ e => e.weight + weights.jump
  | .assert _ c d => c.weight + optExprWeight d + weights.assert

def optExprWeight (e : Option Expr) : ℕ :=
  match e with
  | none => 0
  | some e => e.weight

def exprsWeight (es : List Expr) : ℕ :=
  match es with
  | [] => 0
  | e :: es => e.weight + exprsWeight es

def stmtsWeight (ss : List Stmt) : ℕ :=
  match ss with
  | [] => 0
  | s :: ss => s.weight + stmtsWeight ss

def casesWeight (cs : List Case) : ℕ :=
  match cs with
  | [] => 0
  | c :: cs => c.weight + casesWeight cs

/-- The weight of a case of a switch. -/
def Case.weight (c : Case) : ℕ :=
  match c with
  | .mk _ label ss => optExprWeight label + stmtsWeight ss + weights.case

def catchesWeight (cs : List Catch) : ℕ :=
  match cs with
  | [] => 0
  | c :: cs => c.weight + catchesWeight cs

/-- The weight of a handler of a try statement. -/
def Catch.weight (c : Catch) : ℕ :=
  match c with
  | .mk _ _ b => b.weight + weights.handler

end

/-! ### One count -/

/-- From any weight `w` found before, the count adds the whole `weight` or stops above the limit
without having added more. -/
def Counts (limit : ℤ) (count : ℕ → ℕ) (weight : ℕ) : Prop :=
  ∀ w, count w = w + weight ∨ limit < count w ∧ count w ≤ w + weight

namespace Counts

variable {limit : ℤ} {f g : ℕ → ℕ} {a b : ℕ}

theorem const (limit : ℤ) (k : ℕ) : Counts limit (· + k) k := fun _ => .inl rfl

theorem nothing (limit : ℤ) : Counts limit id 0 := fun _ => .inl rfl

/-- A count that is not begun above the limit. -/
theorem upTo (h : Counts limit f a) : Counts limit (weighUpTo limit f) a := by
  intro w
  unfold weighUpTo
  split
  · exact .inr ⟨‹_›, Nat.le_add_right w a⟩
  · exact h w

/-- Two counts, one after the other. What the second adds to a weight above the limit leaves it
there. -/
theorem andThen (hf : Counts limit f a) (hg : Counts limit g b) :
    Counts limit (fun w => g (f w)) (a + b) := by
  intro w
  change g (f w) = _ ∨ _ < (g (f w) : ℤ) ∧ g (f w) ≤ _
  rcases hf w with hw | hw <;> rcases hg (f w) with hw' | hw' <;> omega

/-- A construct that weighs something beyond its parts. -/
theorem plus (hf : Counts limit f a) (k : ℕ) : Counts limit (fun w => f w + k) (a + k) :=
  hf.andThen (const limit k)

/-- An operation whose operands count only if it is no constant. -/
theorem operation (c : Bool) (k : ℕ) (hf : Counts limit f a) :
    Counts limit (fun w => if c then f (w + k) else w + k) (k + if c then a else 0) := by
  cases c
  · exact const limit k
  · exact (const limit k).andThen hf

end Counts

/-! ### Counting a tree -/

mutual

theorem Expr.counts (limit : ℤ) (e : Expr) : Counts limit (e.addWeight limit) e.weight := by
  cases e with
  | literal i => exact .const limit _
  | ident i s => exact .const limit _
  | selfRef i s c =>
      cases c
      · exact (Counts.const limit _).plus _
      · exact .nothing limit
  | select i t s => exact (t.counts limit).upTo.plus _
  | classLit i t => exact .const limit _
  | apply i f as => exact ((f.counts limit).upTo.andThen (counts_exprs limit as)).plus _
  | newClass i c as => exact (counts_exprs limit as).plus _
  | newArray i es => exact (counts_exprs limit es).plus _
  | arrayInit i es => exact (counts_exprs limit es).plus _
  | parens i a => exact (a.counts limit).upTo
  | cast i t a => exact (a.counts limit).upTo
  | assign i l r => exact ((l.counts limit).upTo.andThen (r.counts limit).upTo).plus _
  | assignOp i o t l r => exact ((l.counts limit).upTo.andThen (r.counts limit).upTo).plus _
  | unary i o t a => exact .operation _ _ (a.counts limit).upTo
  | binary i o t l r => exact .operation _ _ ((l.counts limit).upTo.andThen (r.counts limit).upTo)
  | typeTest i a t => exact (a.counts limit).upTo.plus _
  | index i a x => exact ((a.counts limit).upTo.andThen (x.counts limit).upTo).plus _
  | cond i c t f =>
      have h := (c.counts limit).upTo.andThen (t.counts limit).upTo
      exact (h.andThen (f.counts limit).upTo).plus _
  | letIn i ss v => exact (counts_stmts limit ss).andThen (v.counts limit).upTo

theorem Stmt.counts (limit : ℤ) (s : Stmt) : Counts limit (s.addWeight limit) s.weight := by
  cases s with
  | block i ss => exact counts_stmts limit ss
  | varDef i v e =>
      cases e with
      | none => exact .nothing limit
      | some e => exact (e.counts limit).upTo
  | skip i => exact .nothing limit
  | doLoop i b c => exact ((b.counts limit).upTo.andThen (c.counts limit).upTo).plus _
  | whileLoop i c b => exact ((c.counts limit).upTo.andThen (b.counts limit).upTo).plus _
  | forLoop i init test step b =>
      have hinit := counts_stmts limit init
      have hstep := counts_stmts limit step
      have hb := (b.counts limit).upTo
      cases test with
      | none => exact (((hinit.andThen (.nothing limit)).andThen hstep).andThen hb).plus _
      | some c => exact (((hinit.andThen (c.counts limit).upTo).andThen hstep).andThen hb).plus _
  | foreach i v e b => exact (e.counts limit).upTo.andThen (b.counts limit).upTo
  | labelled i l b => exact (b.counts limit).upTo
  | switch i e cs => exact ((e.counts limit).upTo.andThen (counts_cases limit cs)).plus _
  | sync i e b => exact ((e.counts limit).upTo.andThen (b.counts limit).upTo).plus _
  | tryCatch i b cs f =>
      have h := (b.counts limit).upTo.andThen (counts_catches limit cs)
      cases f with
      | none => exact h
      | some f => exact (h.andThen (f.counts limit).upTo).plus _
  | ite i c t f =>
      have h := (c.counts limit).upTo.andThen (t.counts limit).upTo
      cases f with
      | none => exact h.plus _
      | some f => exact (h.andThen (f.counts limit).upTo).plus _
  | exec i e => exact (e.counts limit).upTo
  | breakTo i t => exact .const limit _
  | continueTo i t => exact .const limit _
  | ret i e =>
      cases e with
      | none => exact .const limit _
      | some e => exact (e.counts limit).upTo.plus _
  | raise i e => exact (e.counts limit).upTo.plus _
  | assert i c d =>
      cases d with
      | none => exact ((c.counts limit).upTo.andThen (.nothing limit)).plus _
      | some d => exact ((c.counts limit).upTo.andThen (d.counts limit).upTo).plus _
  | localClass i n => exact .nothing limit

theorem counts_exprs (limit : ℤ) (es : List Expr) :
    Counts limit (addWeights limit es) (exprsWeight es) := by
  cases es with
  | nil => exact .nothing limit
  | cons e es => exact (e.counts limit).upTo.andThen (counts_exprs limit es)

theorem counts_stmts (limit : ℤ) (ss : List Stmt) :
    Counts limit (addStmtWeights limit ss) (stmtsWeight ss) := by
  cases ss with
  | nil => exact .nothing limit
  | cons s ss => exact (s.counts limit).upTo.andThen (counts_stmts limit ss)

theorem counts_cases (limit : ℤ) (cs : List Case) :
    Counts limit (addCaseWeights limit cs) (casesWeight cs) := by
  cases cs with
  | nil => exact .nothing limit
  | cons c cs => exact (c.counts limit).upTo.andThen (counts_cases limit cs)

theorem Case.counts (limit : ℤ) (c : Case) : Counts limit (c.addWeight limit) c.weight := by
  cases c with
  | mk span label ss =>
      cases label with
      | none => exact ((Counts.nothing limit).andThen (counts_stmts limit ss)).plus _
      | some e => exact ((e.counts limit).upTo.andThen (counts_stmts limit ss)).plus _

theorem counts_catches (limit : ℤ) (cs : List Catch) :
    Counts limit (addCatchWeights limit cs) (catchesWeight cs) := by
  cases cs with
  | nil => exact .nothing limit
  | cons c cs => exact (c.counts limit).upTo.andThen (counts_catches limit cs)

theorem Catch.counts (limit : ℤ) (c : Catch) : Counts limit (c.addWeight limit) c.weight := by
  cases c with
  | mk span param b => exact (b.counts limit).upTo.plus _

end

/-! ### Deciding by the count -/

/-- A count from nothing exceeds the limit exactly if the whole weight does. -/
theorem Counts.exceeds_iff {limit : ℤ} {f : ℕ → ℕ} {a : ℕ} (h : Counts limit f a) :
    limit < f 0 ↔ limit < a := by
  rcases h 0 with hw | hw <;> omega

theorem Counts.le {limit : ℤ} {f : ℕ → ℕ} {a : ℕ} (h : Counts limit f a) : f 0 ≤ a := by
  rcases h 0 with hw | hw <;> omega

/-- Within the limit nothing is left out. -/
theorem Counts.eq_of_le {limit : ℤ} {f : ℕ → ℕ} {a : ℕ} (h : Counts limit f a)
    (ha : (a : ℤ) ≤ limit) : f 0 = a := by
  rcases h 0 with hw | hw <;> omega

/-- Whether a try statement makes `finally` blocks subroutines, by the whole weight of its own. -/
def Gen.outweighs (config : Config) (final : Option Stmt) : Bool :=
  let limit := config.jsrLimit
  config.stackMaps == .none &&
    (limit ≤ 0 || (limit < 100 && limit < (final.map Stmt.weight).getD 0))

theorem Gen.wantsSubroutines_eq_outweighs (config : Config) (final : Option Stmt) :
    wantsSubroutines config final = outweighs config final := by
  cases final with
  | none => rfl
  | some s =>
      have h : config.jsrLimit < s.weightUpTo config.jsrLimit ↔ config.jsrLimit < s.weight :=
        (s.counts _).exceeds_iff
      simp [wantsSubroutines, outweighs, h]

/-- The weight counted up to a limit decides like the whole weight, whatever the limit: it exceeds
the limit exactly if the whole weight does, it is never more, and within the limit it is the weight
itself. So a try statement chooses as if it knew the whole weight of its `finally` block. -/
theorem Stmt.weightUpTo_decides (limit : ℤ) (s : Stmt) :
    (limit < s.weightUpTo limit ↔ limit < s.weight) ∧
      s.weightUpTo limit ≤ s.weight ∧
      ((s.weight : ℤ) ≤ limit → s.weightUpTo limit = s.weight) ∧
      ∀ config final, Gen.wantsSubroutines config final = Gen.outweighs config final :=
  have h := s.counts limit
  ⟨h.exceeds_iff, h.le, h.eq_of_le, Gen.wantsSubroutines_eq_outweighs⟩

/-- Three jumps weigh 3. The count stops at the second jump if the limit is 1. -/
theorem Stmt.weightUpTo_decides_jumps :
    let jumps : Stmt := .block default (.replicate 3 (.ret default none))
    jumps.weightUpTo 1 = 2 ∧ jumps.weight = 3 ∧
      (1 < (jumps.weightUpTo 1 : ℤ) ↔ 1 < (jumps.weight : ℤ)) ∧
      jumps.weightUpTo 3 = jumps.weight :=
  ⟨by decide, by decide, (weightUpTo_decides 1 _).1, (weightUpTo_decides 3 _).2.2.1 (by decide)⟩

end StackCode
