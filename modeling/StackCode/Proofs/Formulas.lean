import StackCode.Proofs.Returning
import StackCode.Tree.Build

/-!
# Boolean expressions are evaluated correctly

A `Formula` is a boolean expression over variables of type `int` and `boolean`, with the attributes
that its tree carries, and `Formula.eval` says what it comes to. Evaluation goes from left to right
and changes the variables on its way, because the integers that are compared may be assignments; so
`eval` also tells which parts are left out: the right side of `&&` and `||` where the left one
decides, and the way of `?:` that is not chosen.

The main statement is `Formula.evaluated`. A method that returns a formula, or that branches on it
to return 1 or 0, is generated, with narrow and with wide jumps, and running its code from any
values of the parameters returns the word for the value of the formula and leaves the variables as
`eval` says.
-/

namespace StackCode

/-! ### Syntax -/

/-- An integer within a formula. -/
inductive Term where
  | const (info : ExprInfo) (v : Int32)
  | var (info : ExprInfo) (x : LocalVar)
  /-- an assignment; `place` are the attributes of the variable on its left side -/
  | assign (info place : ExprInfo) (x : LocalVar) (t : Term)
  | parens (info : ExprInfo) (t : Term)

/-- A boolean expression. -/
inductive Formula where
  | const (info : ExprInfo) (b : Bool)
  | var (info : ExprInfo) (x : LocalVar)
  /-- a comparison of integers -/
  | compare (info : ExprInfo) (op : BinaryOp) (lhs rhs : Term)
  /-- an operator that takes in both sides: `&`, `|`, `^`, `==` or `!=` -/
  | merge (info : ExprInfo) (op : BinaryOp) (lhs rhs : Formula)
  | not (info : ExprInfo) (arg : Formula)
  | and (info : ExprInfo) (lhs rhs : Formula)
  | or (info : ExprInfo) (lhs rhs : Formula)
  | cond (info : ExprInfo) (test onTrue onFalse : Formula)
  | parens (info : ExprInfo) (arg : Formula)

/-- The tree of an integer. -/
def Term.tree : Term → Expr
  | const i _ => .literal i
  | var i x => .ident i (.var x.id)
  | assign i j x t => .assign i (.ident j (.var x.id)) t.tree
  | parens i t => .parens i t.tree

/-- The tree of a formula. -/
def Formula.tree : Formula → Expr
  | const i _ => .literal i
  | var i x => .ident i (.var x.id)
  | compare i op l r => .binary i op .int l.tree r.tree
  | merge i op l r => .binary i op .boolean l.tree r.tree
  | not i a => .unary i .not .boolean a.tree
  | and i l r => .binary i .and .boolean l.tree r.tree
  | or i l r => .binary i .or .boolean l.tree r.tree
  | cond i c t f => .cond i c.tree t.tree f.tree
  | parens i a => .parens i a.tree

/-! ### Evaluation -/

/-- The value of an integer. A variable that never changes stands for its constant. -/
def Term.eval : Term → Fetch
  | const _ v => fun ν => (v, ν)
  | var _ x => fun ν => ((x.const.map Const.toInt32).getD (ν.ints x.id), ν)
  | assign _ _ x t => t.eval.store x
  | parens _ t => t.eval

/-- The value of a formula. -/
def Formula.eval : Formula → Test
  | const _ b => fun ν => (b, ν)
  | var _ x => fun ν => ((x.const.map fun c => c.toInt32 != 0).getD (ν.bools x.id), ν)
  | compare _ op l r => l.eval.compare r.eval op.relate
  | merge _ op l r => l.eval.merge r.eval op.merge
  | not _ a => a.eval.negate
  | and _ l r => l.eval.and r.eval
  | or _ l r => l.eval.or r.eval
  | cond _ c t f => c.eval.choose t.eval f.eval
  | parens _ a => a.eval

/-! ### Attributes -/

theorem notes_plainInfo (span : Span) (t : Ty) (w : Fetch) : (Expr.plainInfo span t).Notes t w :=
  ⟨rfl, fun _ hc => by cases hc⟩

theorem notes_int (span : Span) (v : Int32) :
    ExprInfo.Notes ⟨span, .int, some (.int v)⟩ .int fun ν => (v, ν) :=
  ⟨rfl, fun _ hc => ⟨v, (Option.some.inj hc).symm, fun _ => rfl⟩⟩

/-- The attributes of an integer are right, and its variables are among `xs`. -/
def Term.WellFormed (xs : List LocalVar) : Term → Prop
  | const i v => i.Notes .int (fun ν => (v, ν)) ∧ i.const ≠ none
  | var i x => i.Notes .int (var i x).eval ∧
      (i.const = none → x.const = none ∧ x ∈ xs ∧ x.ty = .int)
  | assign i j x t => i.Notes .int (t.eval.store x) ∧ j.ty = .int ∧ j.const = none ∧ x ∈ xs ∧
      x.ty = .int ∧ t.WellFormed xs
  | parens i t => i.Notes .int t.eval ∧ t.WellFormed xs

/-- The attributes of a formula are right, and its variables are among `xs`. -/
def Formula.WellFormed (xs : List LocalVar) : Formula → Prop
  | const i b => i.Notes .boolean (const i b).eval.word ∧ i.const ≠ none
  | var i x => i.Notes .boolean (var i x).eval.word ∧
      (i.const = none → x.const = none ∧ x ∈ xs ∧ x.ty = .boolean)
  | compare i op l r => i.Notes .boolean (compare i op l r).eval.word ∧ op.isComparison = true ∧
      l.WellFormed xs ∧ r.WellFormed xs
  | merge i op l r => i.Notes .boolean (merge i op l r).eval.word ∧
      (op.isBitwise = true ∨ op = .eq ∨ op = .ne) ∧
      l.WellFormed xs ∧ r.WellFormed xs
  | not i a => i.Notes .boolean (not i a).eval.word ∧ a.WellFormed xs
  | and i l r => i.Notes .boolean (and i l r).eval.word ∧ l.WellFormed xs ∧ r.WellFormed xs
  | or i l r => i.Notes .boolean (or i l r).eval.word ∧ l.WellFormed xs ∧ r.WellFormed xs
  | cond i c t f => i.Notes .boolean (cond i c t f).eval.word ∧ c.WellFormed xs ∧ t.WellFormed xs ∧
      f.WellFormed xs
  | parens i a => i.Notes .boolean a.eval.word ∧ a.WellFormed xs

/-! ### The code of a formula -/

variable {ζ : Seating} {ctx : Context} {env : Env}

theorem Term.yields {t : Term} (h : t.WellFormed ζ.vars) :
    (t.tree.code ctx env).YieldsValue ζ .int t.eval := by
  induction t with
  | const i v =>
      rw [tree, Expr.code]
      exact ExprCode.literal_yields (.inl rfl) h.1 h.2
  | var i x =>
      rw [tree, Expr.code]
      refine ExprCode.ident_yields (.inl rfl) h.1 fun hnone => ?_
      obtain ⟨hconst, hx, hty⟩ := h.2 hnone
      refine ⟨hx, funext fun ν => ?_⟩
      rw [eval, hconst, Valuation.word, hty]
      rfl
  | assign i j x t ih =>
      obtain ⟨hi, hj, hconst, hx, hty, ht⟩ := h
      rw [tree, Expr.code, Expr.code]
      exact ExprCode.assign_yields hx hty hj hconst hi (ih ht)
  | parens i t ih =>
      rw [tree, Expr.code]
      exact (ih h.2).parens (.inl rfl) h.1 _

theorem Formula.yieldsTest {φ : Formula} (h : φ.WellFormed ζ.vars) :
    (φ.tree.code ctx env).YieldsTest ζ φ.eval := by
  induction φ with
  | const i b =>
      rw [tree, Expr.code]
      exact ExprCode.literal_yieldsTest h.1 h.2
  | var i x =>
      rw [tree, Expr.code]
      refine ExprCode.ident_yieldsTest h.1 fun hnone => ?_
      obtain ⟨hconst, hx, hty⟩ := h.2 hnone
      refine ⟨hx, hty, funext fun ν => ?_⟩
      rw [eval, hconst]
      rfl
  | compare i op l r =>
      obtain ⟨hi, hop, hl, hr⟩ := h
      rw [tree, Expr.code]
      exact (Term.yields hl).compare (Term.yields hr) rfl hop hi
  | merge i op l r ihl ihr =>
      obtain ⟨hi, hop, hl, hr⟩ := h
      rw [tree, Expr.code]
      exact (ihl hl).merge (ihr hr) hop hi
  | not i a ih =>
      rw [tree, Expr.code]
      exact (ih h.2).not h.1
  | and i l r ihl ihr =>
      rw [tree, Expr.code]
      exact (ihl h.2.1).and (ihr h.2.2) h.1
  | or i l r ihl ihr =>
      rw [tree, Expr.code]
      exact (ihl h.2.1).or (ihr h.2.2) h.1
  | cond i c t f ihc iht ihf =>
      obtain ⟨hi, hc, ht, hf⟩ := h
      rw [tree, Expr.code]
      exact (ihc hc).choose (iht ht) (ihf hf) hi
  | parens i a ih =>
      rw [tree, Expr.code]
      exact (ih h.2).parens h.1 _

/-! ### Methods that answer with a formula -/

/-- The bodies that answer with the value of a formula, by the type of their answer: `return φ;` and
`if (φ) return 1; return 0;`. -/
inductive Formula.Body (φ : Formula) : Ty → Stmt → Prop where
  | value (i j : StmtInfo) : Body φ .boolean (.block i [.ret j (some φ.tree)])
  | branch (i j k l : StmtInfo) (one zero : Span) :
    Body φ .int
      (.block i [.ite j φ.tree (.ret k (some (.ofInt one 1))) none, .ret l (some (.ofInt zero 0))])

theorem ofInt_yields (ζ : Seating) (ctx : Context) (env : Env) (span : Span) (v : Int32) :
    ((Expr.ofInt span v).code ctx env).YieldsValue ζ .int fun ν => (v, ν) := by
  rw [Expr.ofInt, Expr.ofConst, Expr.code]
  exact ExprCode.literal_yields (.inl rfl) (notes_int span v) (Option.some_ne_none _)

/-- Both bodies return the word for the value of the formula. -/
theorem Formula.Body.acts {φ : Formula} {body : Stmt} (hbody : φ.Body ctx.method.ty.ret body)
    (h : φ.WellFormed ζ.vars) :
    Acts ζ ((body.code ctx).gen Env.outermost) true fun a o =>
      o = .answer (φ.eval.word a.vals).1 (φ.eval.word a.vals).2 := by
  generalize hret : ctx.method.ty.ret = ret at hbody
  cases hbody with
  | value i j =>
      rw [Stmt.code]
      refine Gen.statement_acts (Gen.block_acts (fun env => ?_) i) i none _
      rw [Stmt.gens, Stmt.gens, bind_pure_unit, Stmt.code, hret]
      exact Gen.statement_acts (Gen.retValue_acts (Formula.yieldsTest h).yields rfl env) j none env
  | branch i j k l one zero =>
      rw [Stmt.code]
      refine Gen.statement_acts (Gen.block_acts (fun env => ?_) i) i none _
      rw [Stmt.gens, Stmt.gens, Stmt.gens, bind_pure_unit, Stmt.code, Stmt.code, Stmt.code, hret]
      have hone := Gen.statement_acts
        (Gen.retValue_acts (ofInt_yields ζ ctx env one 1) rfl env) k none env
      have hzero := Gen.retValue_acts (ofInt_yields ζ ctx env zero 0) rfl env
      refine Gen.seq_acts (Gen.statement_acts (Gen.ite_acts (Formula.yieldsTest h) hone) j none env)
        hzero ?_
      rintro a _ rfl
      by_cases hb : (φ.eval a.vals).1 = true
      · exact .inl ⟨_, _, rfl, by simp [hb, Test.word, bit, Spot.tested]⟩
      · exact .inr ⟨a.tested φ.eval, by simp [hb], by simp [hb, Test.word, bit, Spot.tested]⟩

/-- A new method. -/
theorem fresh_new (wide : Bool) (config : Config) : (Code.new wide config).Fresh wide :=
  ⟨rfl, rfl, rfl, rfl, rfl, rfl⟩

theorem quiet_default : Scopes.Quiet {} := by
  intro id
  cases id with
  | zero => exact ⟨rfl, rfl⟩
  | succ id => simp [Scopes.get, Scope.hasOpenGap]

/-- Boolean expressions are evaluated correctly, as values and as branches: a method that answers
with a formula is generated, with narrow and with wide jumps. Unless a limit is exceeded or a
narrow jump is too short, running its code from any values of the parameters returns 1 if the
formula holds and 0 otherwise. The variables are changed by the assignments that evaluating the
formula comes to, and by no other. -/
theorem Formula.evaluated {φ : Formula} {ctx : Context} {body : Stmt} {state : ClassState}
    (hbody : φ.Body ctx.method.ty.ret body) (hφ : φ.WellFormed ctx.method.params)
    (hids : (ctx.method.params.map LocalVar.id).Nodup)
    (hfit : ∀ h ∈ ctx.method.homes, h.2 ≤ Limit.max16) (hpool : state.pool.Indexed)
    (wide subroutines : Bool) :
    ∃ code state', ClassGen.attempt ctx body wide subroutines state = .ok (some code) state' ∧
      (wide = true → code.needsWide = false) ∧
      (code.exceeded = [] → code.needsWide = false → ∀ pool : Pool, state'.pool.Extends pool →
        pool.size ≤ 0x10000 →
        ∀ ν R, ctx.method.Holds ν R → ∃ R' n, ctx.method.Holds (φ.eval ν).2 R' ∧
          Program.run ⟨code.finish.bytes, pool⟩ n ⟨0, [], R⟩ = some ⟨bit (φ.eval ν).1, R'⟩) := by
  obtain ⟨pool, reports, appends⟩ := state
  obtain ⟨s', hrun, hwide, hruns⟩ :=
    Gen.methodBody_succeeds (w := φ.eval.word) (fresh_new wide ctx.config) rfl hpool
    (s := { asm := ⟨.new wide ctx.config, pool⟩, subroutines, reports, appends })
    ⟨quiet_default, ⟨Nat.one_pos, rfl⟩, rfl⟩ hids hfit fun ζ hζ => hbody.acts (hζ ▸ hφ)
  refine ⟨s'.asm.code, ⟨s'.asm.pool, s'.reports, s'.appends⟩, ?_, hwide, ?_⟩
  · rw [ClassGen.attempt, hrun]
  · intro hlimits hnarrow pool' hext hsmall ν R hR
    have hshort : s'.asm.code.bytes.size ≤ 0xFFFF := by
      by_contra hlong
      have : Limit.max16 < s'.asm.code.pc := Nat.lt_of_not_le hlong
      simp [Code.exceeded, this] at hlimits
    obtain ⟨R', hR', hreturns⟩ := hruns hnarrow hshort pool' hext hsmall ν R hR
    obtain ⟨n, hn⟩ := hreturns.run
    exact ⟨R', n, hR', hn⟩

/-- `a > 0 && (x = 5) > 0 || !b`. -/
def Formula.guarded (a b x : LocalVar) : Formula :=
  let bool := Expr.plainInfo default .boolean
  let int := Expr.plainInfo default .int
  let literal (v : Int32) : Term := .const ⟨default, .int, some (.int v)⟩ v
  .or bool
    (.and bool (.compare bool .gt (.var int a) (literal 0))
      (.compare bool .gt (.parens int (.assign int int x (literal 5))) (literal 0)))
    (.not bool (.var bool b))

/-- Whether an attempt has come to code that stays within the limits. -/
def ClassGen.fits : EStateM.Result Error ClassState (Option Code) → Bool
  | .ok (some code) state =>
    code.exceeded.isEmpty && !code.needsWide && decide (state.pool.size ≤ 0x10000)
  | _ => false

/-- The assignment is skipped in the code with narrow jumps if `a` is 0, and made in the code with
wide jumps if `a` is 1. -/
theorem Formula.guarded_evaluated :
    let a : LocalVar := ⟨0, "a", .int, none⟩
    let b : LocalVar := ⟨1, "b", .boolean, none⟩
    let x : LocalVar := ⟨2, "x", .int, none⟩
    let body : Stmt := .block ⟨1, default⟩ [.ret ⟨2, default⟩ (some (guarded a b x).tree)]
    let ctx : Context :=
      ⟨{}, Hierarchy.resolver {}, "C", .ofParams default "m" Access.staticBit [a, b, x] .boolean
        (some body)⟩
    let regs (v : Int32) (k : ℕ) : Int32 := if k = 0 then v else if k = 1 then 1 else 7
    (∃ code state R n, ClassGen.attempt ctx body false false {} = .ok (some code) state ∧
      Program.run ⟨code.finish.bytes, state.pool⟩ n ⟨0, [], regs 0⟩ = some ⟨0, R⟩ ∧ R 2 = 7) ∧
    ∃ code state R n, ClassGen.attempt ctx body true false {} = .ok (some code) state ∧
      Program.run ⟨code.finish.bytes, state.pool⟩ n ⟨0, [], regs 1⟩ = some ⟨1, R⟩ ∧ R 2 = 5 := by
  intro a b x body ctx regs
  have hφ : (guarded a b x).WellFormed ctx.method.params := by
    have hplain (t : Ty) (w : Fetch) : (Expr.plainInfo default t).Notes t w :=
      notes_plainInfo default t w
    refine ⟨hplain _ _, ⟨hplain _ _,
      ⟨hplain _ _, rfl, ⟨hplain _ _, fun _ => ⟨rfl, ?_, rfl⟩⟩, notes_int _ _, ?_⟩,
      hplain _ _, rfl, ⟨hplain _ _, hplain _ _, rfl, rfl, ?_, rfl, notes_int _ _, ?_⟩,
        notes_int _ _, ?_⟩,
      hplain _ _, hplain _ _, fun _ => ⟨rfl, ?_, rfl⟩⟩
    all_goals decide
  have hruns (wide : Bool) (v : Int32) (ν : Valuation) (hν : ctx.method.Holds ν (regs v))
      (hlimits : ClassGen.fits (ClassGen.attempt ctx body wide false {}) = true) :
      ∃ code state R n, ClassGen.attempt ctx body wide false {} = .ok (some code) state ∧
        Program.run ⟨code.finish.bytes, state.pool⟩ n ⟨0, [], regs v⟩ =
          some ⟨bit ((guarded a b x).eval ν).1, R⟩ ∧
        R 2 = ((guarded a b x).eval ν).2.word x := by
    obtain ⟨code, state, hrun, -, hcode⟩ :=
      Formula.evaluated (.value ⟨1, default⟩ ⟨2, default⟩) hφ (by decide)
      (by decide) (show (ClassState.pool {}).Indexed from Pool.indexed_empty) wide false
    rw [hrun] at hlimits
    simp only [ClassGen.fits, Bool.and_eq_true, List.isEmpty_iff, Bool.not_eq_true',
      decide_eq_true_eq] at hlimits
    obtain ⟨⟨hexceeded, hnarrow⟩, hsmall⟩ := hlimits
    obtain ⟨R, n, hR, hn⟩ := hcode hexceeded hnarrow state.pool (.refl _) hsmall ν (regs v) hν
    exact ⟨code, state, R, n, hrun, hn, hR (x, 2) (by decide)⟩
  constructor
  · exact hruns false 0 ⟨fun id => if id = 2 then 7 else 0, fun _ => true⟩ (by decide)
      (by decide +kernel)
  · exact hruns true 1 ⟨fun id => if id = 2 then 7 else 1, fun _ => true⟩ (by decide)
      (by decide +kernel)

end StackCode
