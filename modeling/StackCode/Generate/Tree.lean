import StackCode.Generate.Operator
import StackCode.Generate.Protect
import StackCode.Generate.Switch

/-!
# From trees to code

The code of every expression and statement, by recursion over the tree. Each
equation names the construct and hands it the code of its parts; what the
construct writes is said in the modules of the constructs.

The surroundings matter to an expression only for the statements within a
`letIn`.
-/

namespace StackCode

mutual

/-- The code of an expression. -/
def Expr.code (ctx : Context) (e : Expr) (env : Env) : ExprCode :=
  match e with
  | .literal i => .ofItem ctx i (Gen.literal i)
  | .ident i s => .ofItem ctx i fun _ => ctx.ident i s
  | .selfRef i isSuper ctor => .ofItem ctx i fun _ => Gen.selfRef isSuper ctor
  | .select i t s =>
    let target := t.code ctx env
    .ofItem ctx i fun _ => ctx.select target t.bare.isSuperQualifier s
  | .classLit i t => .ofItem ctx i fun _ => Gen.classLit i t
  | .apply i f as =>
    let callee := f.code ctx env
    let args := Expr.codes ctx as env
    .ofItem ctx i fun _ => Gen.apply callee f.bare.callee? args
  | .newClass i m as =>
    let args := Expr.codes ctx as env
    .ofItem ctx i fun _ => Gen.newClass i m args
  | .newArray i ds =>
    let dims := Expr.codes ctx ds env
    .ofItem ctx i fun _ => Gen.newArray i dims
  | .arrayInit i es =>
    let elems := Expr.codes ctx es env
    .ofItem ctx i fun _ => Gen.arrayInit i elems
  | .parens i a => .parens ctx i a.bare.isCond (a.code ctx env)
  | .assign i l r =>
    let lhs := l.code ctx env
    let rhs := r.code ctx env
    .ofItem ctx i fun _ => Gen.assign lhs rhs
  | .assignOp i op t l r =>
    let lhs := l.code ctx env
    let rhs := r.code ctx env
    .ofItem ctx i fun _ => ctx.assignOp i op t lhs rhs r.isNullLiteral
  | .unary i op t a => ctx.unaryCode i op t (a.code ctx env)
  | .binary i op t l r =>
    ctx.binaryCode i op t (l.code ctx env) (r.code ctx env) r.isNullLiteral
  | .cast i t a =>
    let arg := a.code ctx env
    .ofItem ctx i fun _ => ctx.cast i t arg
  | .typeTest i a t =>
    let arg := a.code ctx env
    .ofItem ctx i fun _ => Gen.typeTest i arg t
  | .index i a x =>
    let array := a.code ctx env
    let idx := x.code ctx env
    .ofItem ctx i fun _ => Gen.index i array idx
  | .cond i c t f =>
    let test := c.code ctx env
    let onTrue := t.code ctx env
    let onFalse := f.code ctx env
    let cond := Gen.condCond test onTrue onFalse
    { ExprCode.ofItem ctx i (Gen.condValue i test onTrue onFalse) with cond, bareCond := cond }
  | .letIn i ss v =>
    let value := v.code ctx env
    .ofItem ctx i fun _ => Gen.letIn (Stmt.gens ctx ss env) value

/-- The code of several expressions. -/
def Expr.codes (ctx : Context) (es : List Expr) (env : Env) : List ExprCode :=
  match es with
  | [] => []
  | e :: es => e.code ctx env :: Expr.codes ctx es env

/-- The code of a statement. -/
def Stmt.code (ctx : Context) (s : Stmt) : StmtCode :=
  match s with
  | .block i ss =>
    ⟨i.span, true, fun env => Gen.statement i none env (Gen.block i (Stmt.gens ctx ss) env)⟩
  | .varDef i v (some e) =>
    ⟨i.span, false, fun env =>
      Gen.statement i (some v) env (Gen.varDef ctx i v (some (e.code ctx env)))⟩
  | .varDef i v none =>
    ⟨i.span, false, fun env => Gen.statement i (some v) env (Gen.varDef ctx i v none)⟩
  | .skip i => ⟨i.span, false, fun env => Gen.statement i none env (pure ())⟩
  | .doLoop i b c =>
    ⟨i.span, false, fun env =>
      Gen.statement i none env (Gen.testLastLoop i (c.code ctx env) (b.code ctx) env)⟩
  | .whileLoop i c b =>
    ⟨i.span, false, fun env =>
      Gen.statement i none env
        (Gen.testFirstLoop i (some (c.code ctx env)) (fun _ => pure ()) (b.code ctx) env)⟩
  | .forLoop i init (some c) step b =>
    ⟨i.span, false, fun env =>
      Gen.statement i none env
        (Gen.forLoop i (Stmt.gens ctx init) (some (c.code ctx env)) (Stmt.gens ctx step)
          (b.code ctx) env)⟩
  | .forLoop i init none step b =>
    ⟨i.span, false, fun env =>
      Gen.statement i none env
        (Gen.forLoop i (Stmt.gens ctx init) none (Stmt.gens ctx step) (b.code ctx) env)⟩
  | .foreach i _ _ _ =>
    ⟨i.span, false, fun env =>
      Gen.statement i none env (throw (.unlowered .foreach i.span.firstLine))⟩
  | .labelled i _ b =>
    ⟨i.span, false, fun env => Gen.statement i none env (Gen.labelled i (b.code ctx) env)⟩
  | .switch i e cs =>
    ⟨i.span, false, fun env =>
      Gen.statement i none env (Gen.switch i (e.code ctx env) (Case.codes ctx cs) env)⟩
  | .sync i e b =>
    ⟨i.span, false, fun env =>
      Gen.statement i none env (Gen.sync i (e.code ctx env) (b.code ctx) env)⟩
  | .tryCatch i b cs (some f) =>
    ⟨i.span, false, fun env =>
      Gen.statement i none env
        (Gen.tryCatch ctx i (b.code ctx) (Catch.codes ctx cs) (some f) (some (f.code ctx)) env)⟩
  | .tryCatch i b cs none =>
    ⟨i.span, false, fun env =>
      Gen.statement i none env (Gen.tryCatch ctx i (b.code ctx) (Catch.codes ctx cs) none none env)⟩
  | .ite i c t (some f) =>
    ⟨i.span, false, fun env =>
      Gen.statement i none env (Gen.ite (c.code ctx env) (t.code ctx) (some (f.code ctx)) env)⟩
  | .ite i c t none =>
    ⟨i.span, false, fun env =>
      Gen.statement i none env (Gen.ite (c.code ctx env) (t.code ctx) none env)⟩
  | .exec i e =>
    ⟨i.span, false, fun env => Gen.statement i none env (Gen.exec (e.code ctx env))⟩
  | .breakTo i t => ⟨i.span, false, fun env => Gen.statement i none env (Gen.jumpTo i t false env)⟩
  | .continueTo i t =>
    ⟨i.span, false, fun env => Gen.statement i none env (Gen.jumpTo i t true env)⟩
  | .ret i (some e) =>
    ⟨i.span, false, fun env =>
      Gen.statement i none env (Gen.retValue (e.code ctx env) ctx.method.ty.ret env)⟩
  | .ret i none => ⟨i.span, false, fun env => Gen.statement i none env (Gen.retVoid env)⟩
  | .raise i e => ⟨i.span, false, fun env => Gen.statement i none env (Gen.raise (e.code ctx env))⟩
  | .assert i _ _ =>
    ⟨i.span, false, fun env =>
      Gen.statement i none env (throw (.unlowered .assert i.span.firstLine))⟩
  | .localClass i _ =>
    ⟨i.span, false, fun env =>
      Gen.statement i none env (throw (.unlowered .localClass i.span.firstLine))⟩

/-- Generates statements one after the other. -/
def Stmt.gens (ctx : Context) (ss : List Stmt) (env : Env) : Gen Unit :=
  match ss with
  | [] => pure ()
  | s :: ss => do
    (s.code ctx).gen env
    Stmt.gens ctx ss env

/-- The code of the cases of a switch. -/
def Case.codes (ctx : Context) (cs : List Case) : List CaseCode :=
  match cs with
  | [] => []
  | .mk span label ss :: cs =>
    ⟨span, label.map (·.info), ss, Stmt.gens ctx ss⟩ :: Case.codes ctx cs

/-- The code of the handlers of a try statement. -/
def Catch.codes (ctx : Context) (cs : List Catch) : List CatchCode :=
  match cs with
  | [] => []
  | .mk span v b :: cs => ⟨span, v, b.stats.head?, b.code ctx⟩ :: Catch.codes ctx cs

end

end StackCode
