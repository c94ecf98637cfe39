import StackCode.Generate.Cleanup
import StackCode.Generate.Expression

/-!
# The code of a statement

Statements begin and end with an empty operand stack, except within a `letIn`
expression, where they leave the stack as they found it. A statement that cannot
be reached is not generated.

This module has what all statements share, and blocks, declarations, branches,
loops and jumps.
-/

namespace StackCode

/-- The code of a statement, by the surroundings it is generated in. -/
structure StmtCode where
  span : Span
  isBlock : Bool
  gen : Env → Gen Unit

namespace Gen

/-- A statement generated by `body`. In the dead part of a switch a declaration
still takes its register, since later cases may use the variable. -/
def statement (info : StmtInfo) (declared : Option LocalVar) (env : Env) (body : Gen Unit) :
    Gen Unit := do
  if ← peek (·.reachable) then
    let before ← peek (·.frame.depth)
    touch (·.beginLine info.span.firstLine)
    body
    let after ← peek (·.frame.depth)
    let expected := if (← get).letDepth = 0 then 0 else before
    if after ≠ expected then throw (.stackDepth after info.span.firstLine)
  else if (← peekScope env.scope (·.kind)) = .switch then
    if let some v := declared then
      let _ ← declare v

/-- The flags of a statement in the character-range table. -/
def rangeFlags (isBlock : Bool) (flags : UInt16) : UInt16 :=
  if isBlock then flags ||| RangeFlag.block else flags

/-- A statement, entered into the character-range table. -/
def rangedStat (s : StmtCode) (env : Env) (flags : UInt16) : Gen Unit :=
  ranged s.span (rangeFlags s.isBlock flags) (s.gen env)

/-- The statements `stats`, generated by `body`, entered into the character-range
table as one stretch. -/
def rangedStats (stats : List Stmt) (flags : UInt16) (body : Gen Unit) : Gen Unit :=
  match stats with
  | [] => body
  | [s] => ranged s.span (rangeFlags s.isBlock (flags ||| RangeFlag.statement)) body
  | first :: rest => ranged (first.span.hull ((rest.getLast?.getD first).span)) flags body

/-- The flags of a statement that a branch or a loop runs. -/
def targetFlags : UInt16 := RangeFlag.statement ||| RangeFlag.flowTarget

/-- Runs a step in a scope of its own. -/
def withScope (kind : ScopeKind) (info : StmtInfo) (env : Env) (body : Env → Gen Unit) : Gen Unit :=
  do
  let id ← Scoping.openScope kind (some info.id) env.scope
  body (env.inside id)
  Scoping.closeScope id

/-- A block. Its registers are given back, except at the outermost level of a
method, where the end of the method does that. -/
def block (info : StmtInfo) (stats : Env → Gen Unit) (env : Env) : Gen Unit := do
  let first ← peek (·.nextReg)
  withScope .block info env stats
  if (← peekScope env.scope (·.kind)) ≠ .method then
    touch (·.beginLine info.span.lastLine)
    Emit.endScopes first
    touch fun c => { c with pendingLine := none }

/-- A declaration. A variable with a constant value needs no store, unless it is
to be seen in a debugger. -/
def varDef (ctx : Context) (info : StmtInfo) (v : LocalVar) (init : Option ExprCode) : Gen Unit :=
  do
  let reg ← declare v
  if let some e := init then
    checkString e.info.span v.const
    if v.const.isNone || ctx.config.vars then
      let _ ← e.push v.ty
      (Item.var v.ty.kind reg).store
  checkDimensions info.span v.ty

/-- An expression run for its effect. -/
def exec (e : ExprCode) : Gen Unit := do
  let item ← (← e.effect).coerce e.info.ty.kind
  item.discard

/-- A conditional statement. A branch that is known not to be taken is left
out. -/
def ite (test : ExprCode) (onTrue : StmtCode) (onFalse : Option StmtCode) (env : Env) : Gen Unit :=
  freeing do
    let c ← test.bareTest RangeFlag.flowController
    let falseChain ← c.jumpFalse
    let exit ←
      if c.isFalse then pure []
      else do
        Emit.resolve c.onTrue
        rangedStat onTrue env targetFlags
        Emit.branch .goto
    unless falseChain.isEmpty do
      Emit.resolve falseChain
      if let some s := onFalse then rangedStat s env targetFlags
    Emit.resolve exit

/-- The condition of a loop; a loop without one goes on. -/
def loopTest : Option ExprCode → Gen Cond
  | none => pure (.ofBool true)
  | some e => do
    touch (·.beginLine e.info.span.firstLine)
    e.bareTest RangeFlag.flowController

/-- Lets the jumps behind the construct of a scope land here. -/
def resolveExit (id : ScopeId) : Gen Unit := do
  Emit.resolve (← Scoping.takeExit id)

/-- Lets the jumps to the next round of a loop land here. -/
def resolveCont (id : ScopeId) : Gen Unit := do
  Emit.resolve (← Scoping.takeCont id)

/-- A loop that tests its condition before every round. -/
def testFirstLoop (info : StmtInfo) (test : Option ExprCode) (step : Env → Gen Unit)
    (body : StmtCode) (env : Env) : Gen Unit :=
  withScope .loop info env fun inner => do
    let start ← Emit.entry
    let c ← loopTest test
    let done ← c.jumpFalse
    Emit.resolve c.onTrue
    rangedStat body inner targetFlags
    resolveCont inner.scope
    step inner
    Emit.resolveTo (← Emit.branch .goto) start
    Emit.resolve done
    resolveExit inner.scope

/-- A loop that tests its condition after every round. -/
def testLastLoop (info : StmtInfo) (test : ExprCode) (body : StmtCode) (env : Env) : Gen Unit :=
  withScope .loop info env fun inner => do
    let start ← Emit.entry
    rangedStat body inner targetFlags
    resolveCont inner.scope
    if ← peek (·.reachable) then
      let c ← loopTest (some test)
      Emit.resolveTo (← c.jumpTrue) start
      Emit.resolve c.onFalse
    resolveExit inner.scope

/-- A loop with statements that run before the first round and after every
round. -/
def forLoop (info : StmtInfo) (init : Env → Gen Unit) (test : Option ExprCode)
    (step : Env → Gen Unit) (body : StmtCode) (env : Env) : Gen Unit :=
  freeing do
    init env
    testFirstLoop info test step body env

/-- A statement with a label. -/
def labelled (info : StmtInfo) (body : StmtCode) (env : Env) : Gen Unit :=
  withScope .labelled info env fun inner => do
    rangedStat body inner RangeFlag.statement
    resolveExit inner.scope

/-- A jump out of the statement `target`, or to its next round. -/
def jumpTo (info : StmtInfo) (target : NodeId) (nextRound : Bool) (env : Env) : Gen Unit := do
  let depth ← peek (·.frame.depth)
  if depth ≠ 0 then throw (.stackDepth depth info.span.firstLine)
  let pendingLine ← peek (·.pendingLine)
  let id ← (← get).scopes.findTarget env.scope target
  unwind env id
  touch fun c => { c with pendingLine }
  let chain ← Emit.branch .goto
  if nextRound then Scoping.addCont id chain else Scoping.addExit id chain
  closeGaps env id

/-- A return with a value. If cleanup has to run first, the value waits in a
register. -/
def retValue (value : ExprCode) (t : Ty) (env : Env) : Gen Unit :=
  freeing do
    let v ← value.push t
    let result ←
      if (← get).scopes.hasFinally env.scope then do
        let temp := Item.var t.kind (← Emit.newReg t.kind)
        temp.store
        pure temp
      else pure v
    unwind env Scopes.method
    let _ ← result.load
    Emit.plain (Opcode.ireturn + t.kind.widen.code)
    closeGaps env Scopes.method

/-- A return without a value. -/
def retVoid (env : Env) : Gen Unit :=
  freeing do
    let pendingLine ← peek (·.pendingLine)
    unwind env Scopes.method
    touch fun c => Code.markLine { c with pendingLine }
    Emit.plain .vreturn
    closeGaps env Scopes.method

/-- Throws an exception. -/
def raise (value : ExprCode) : Gen Unit := do
  let _ ← value.push value.info.ty
  Emit.plain .athrow

end Gen

end StackCode
