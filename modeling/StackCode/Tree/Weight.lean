import StackCode.Tree.Basic

/-!
# The weight of a tree

A rough count of the instructions that a statement becomes. It decides whether
the `finally` block of a try statement is copied to every exit or written once,
and for that it is enough to know whether the weight exceeds a limit. The count
therefore runs along the tree from left to right with the weight found so far
and does not enter another subtree once the limit is passed.
-/

namespace StackCode

/-- What the constructs of a tree weigh besides their parts. -/
structure Weights where
  loop : Nat := 1
  switch : Nat := 5
  case : Nat := 1
  sync : Nat := 6
  finallyBlock : Nat := 6
  handler : Nat := 2
  cond : Nat := 2
  jump : Nat := 1
  assert : Nat := 5
  call : Nat := 2
  array : Nat := 5
  assign : Nat := 1
  assignOp : Nat := 2
  operator : Nat := 1
  typeTest : Nat := 1
  index : Nat := 1
  select : Nat := 1
  var : Nat := 1
  /-- what a variable that is a field weighs more -/
  field : Nat := 1
  literal : Nat := 1

/-- The weights in use. -/
def weights : Weights := {}

/-- The weight of a name. A field that is no constant has to be fetched from its
object. -/
def Symbol.weight (s : Symbol) (const : Option Const) : Nat :=
  match s with
  | .var _ => weights.var
  | .field f =>
    weights.var + if const.isNone && f.const.isNone then weights.field else 0
  | _ => 0

/-- The weight that selecting a member adds. -/
def Symbol.selectWeight : Symbol → Nat
  | .field _ | .length => weights.select
  | _ => 0

/-- Counts on into a subtree, unless the limit is passed. -/
def weighUpTo (limit : Int) (count : Nat → Nat) (w : Nat) : Nat :=
  if limit < w then w else count w

mutual

/-- Adds the weight of an expression to `w`. The operands of a constant operation
weigh nothing. -/
def Expr.addWeight (limit : Int) (e : Expr) (w : Nat) : Nat :=
  match e with
  | .literal _ => w + weights.literal
  | .ident i s => w + s.weight i.const
  | .selfRef _ _ none => w + weights.var + weights.field
  | .selfRef _ _ (some _) => w
  | .select _ t s => weighUpTo limit (t.addWeight limit) w + s.selectWeight
  | .classLit _ _ => w + weights.select
  | .apply _ f as => addWeights limit as (weighUpTo limit (f.addWeight limit) w) + weights.call
  | .newClass _ _ as => addWeights limit as w + weights.call
  | .newArray _ es | .arrayInit _ es => addWeights limit es w + weights.array
  | .parens _ a | .cast _ _ a => weighUpTo limit (a.addWeight limit) w
  | .assign _ l r =>
    weighUpTo limit (r.addWeight limit) (weighUpTo limit (l.addWeight limit) w) + weights.assign
  | .assignOp _ _ _ l r =>
    weighUpTo limit (r.addWeight limit) (weighUpTo limit (l.addWeight limit) w) + weights.assignOp
  | .unary i _ _ a =>
    let w := w + weights.operator
    if i.const.isNone then weighUpTo limit (a.addWeight limit) w else w
  | .binary i _ _ l r =>
    let w := w + weights.operator
    if i.const.isNone then
      weighUpTo limit (r.addWeight limit) (weighUpTo limit (l.addWeight limit) w)
    else w
  | .typeTest _ a _ => weighUpTo limit (a.addWeight limit) w + weights.typeTest
  | .index _ a x =>
    weighUpTo limit (x.addWeight limit) (weighUpTo limit (a.addWeight limit) w) + weights.index
  | .cond _ c t f =>
    weighUpTo limit (f.addWeight limit)
      (weighUpTo limit (t.addWeight limit) (weighUpTo limit (c.addWeight limit) w)) + weights.cond
  | .letIn _ ss v => weighUpTo limit (v.addWeight limit) (addStmtWeights limit ss w)

/-- Adds the weight of a statement to `w`. -/
def Stmt.addWeight (limit : Int) (s : Stmt) (w : Nat) : Nat :=
  match s with
  | .block _ ss => addStmtWeights limit ss w
  | .varDef _ _ (some e) | .exec _ e => weighUpTo limit (e.addWeight limit) w
  | .varDef _ _ none | .skip _ | .localClass _ _ => w
  | .doLoop _ b c =>
    weighUpTo limit (c.addWeight limit) (weighUpTo limit (b.addWeight limit) w) + weights.loop
  | .whileLoop _ c b =>
    weighUpTo limit (b.addWeight limit) (weighUpTo limit (c.addWeight limit) w) + weights.loop
  | .forLoop _ init test step b =>
    let w := addStmtWeights limit init w
    let w := match test with
      | some c => weighUpTo limit (c.addWeight limit) w
      | none => w
    weighUpTo limit (b.addWeight limit) (addStmtWeights limit step w) + weights.loop
  | .foreach _ _ e b => weighUpTo limit (b.addWeight limit) (weighUpTo limit (e.addWeight limit) w)
  | .labelled _ _ b => weighUpTo limit (b.addWeight limit) w
  | .switch _ e cs =>
    addCaseWeights limit cs (weighUpTo limit (e.addWeight limit) w) + weights.switch
  | .sync _ e b =>
    weighUpTo limit (b.addWeight limit) (weighUpTo limit (e.addWeight limit) w) + weights.sync
  | .tryCatch _ b cs final =>
    let w := addCatchWeights limit cs (weighUpTo limit (b.addWeight limit) w)
    match final with
    | some f => weighUpTo limit (f.addWeight limit) w + weights.finallyBlock
    | none => w
  | .ite _ c t f =>
    let w := weighUpTo limit (t.addWeight limit) (weighUpTo limit (c.addWeight limit) w)
    let w := match f with
      | some f => weighUpTo limit (f.addWeight limit) w
      | none => w
    w + weights.cond
  | .breakTo _ _ | .continueTo _ _ | .ret _ none => w + weights.jump
  | .ret _ (some e) | .raise _ e => weighUpTo limit (e.addWeight limit) w + weights.jump
  | .assert _ c d =>
    let w := weighUpTo limit (c.addWeight limit) w
    let w := match d with
      | some d => weighUpTo limit (d.addWeight limit) w
      | none => w
    w + weights.assert

/-- Adds the weights of expressions to `w`. -/
def addWeights (limit : Int) (es : List Expr) (w : Nat) : Nat :=
  match es with
  | [] => w
  | e :: es => addWeights limit es (weighUpTo limit (e.addWeight limit) w)

/-- Adds the weights of statements to `w`. -/
def addStmtWeights (limit : Int) (ss : List Stmt) (w : Nat) : Nat :=
  match ss with
  | [] => w
  | s :: ss => addStmtWeights limit ss (weighUpTo limit (s.addWeight limit) w)

/-- Adds the weights of the cases of a switch to `w`. -/
def addCaseWeights (limit : Int) (cs : List Case) (w : Nat) : Nat :=
  match cs with
  | [] => w
  | c :: cs => addCaseWeights limit cs (weighUpTo limit (c.addWeight limit) w)

/-- Adds the weight of a case of a switch to `w`. -/
def Case.addWeight (limit : Int) (c : Case) (w : Nat) : Nat :=
  match c with
  | .mk _ label ss =>
    let w := match label with
      | some e => weighUpTo limit (e.addWeight limit) w
      | none => w
    addStmtWeights limit ss w + weights.case

/-- Adds the weights of the handlers of a try statement to `w`. -/
def addCatchWeights (limit : Int) (cs : List Catch) (w : Nat) : Nat :=
  match cs with
  | [] => w
  | c :: cs => addCatchWeights limit cs (weighUpTo limit (c.addWeight limit) w)

/-- Adds the weight of a handler of a try statement to `w`. -/
def Catch.addWeight (limit : Int) (c : Catch) (w : Nat) : Nat :=
  match c with
  | .mk _ _ b => weighUpTo limit (b.addWeight limit) w + weights.handler

end

/-- The weight of a statement, counted until it exceeds `limit`. -/
def Stmt.weightUpTo (limit : Int) (s : Stmt) : Nat := s.addWeight limit 0

end StackCode
