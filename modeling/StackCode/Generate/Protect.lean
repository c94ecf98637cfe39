import StackCode.Generate.Statement
import StackCode.Tree.Weight

/-!
# Protected regions

Try and synchronized statements. The body of either is protected by rows of the
exception table: those of its handlers, in order, and, if there is cleanup to
run, one for every exception that runs the cleanup and throws the exception
again. Cleanup code within the region, the gaps, is left out of its rows.

A `finally` block that weighs more than the configured limit is written once as
a subroutine, and from there on all `finally` blocks of the method are.
-/

namespace StackCode

/-- The code of a handler. -/
structure CatchCode where
  span : Span
  param : LocalVar
  /-- the first statement of the handler -/
  first : Option Stmt
  body : StmtCode

namespace Gen

/-- Enters rows for `[start, …)` up to the last gap. The gaps are given by starts
and ends in turn; the answer is where the last of them ends. -/
def addCatches (span : Span) (handler : Nat) (type : UInt16) : (start : Nat) → List Nat → Gen Nat
  | start, [] => pure start
  | start, [gap] => do
    addCatch span ⟨start, gap, handler, type⟩
    throw .oddGaps
  | start, gap :: next :: rest => do
    addCatch span ⟨start, gap, handler, type⟩
    addCatches span handler type next rest

/-- A handler for the region `[start, stop)` without its gaps. -/
def handler (c : CatchCode) (start stop : Nat) (gaps : List Nat) (env : Env) : Gen Unit := do
  let type ← typeIndex c.span c.param.ty
  let pc ← Emit.curPc
  let start ← addCatches c.span pc type start gaps
  if start < stop then addCatch c.span ⟨start, stop, pc, type⟩
  touch fun code => (code.beginLine c.span.firstLine).markLine
  freeing do
    let reg ← declare c.param
    (Item.var .object reg).store
    if let some s := c.first then touch (·.beginLine s.span.firstLine)
    rangedStat c.body env RangeFlag.block
  touch (·.beginLine c.body.span.lastLine)

/-- The handlers of a region, each entered in the state `frame` with the exception
on the stack. The answer is the jumps behind the statement. -/
def handlers (info : StmtInfo) (frame : Frame) (hasCleanup : Bool) (start stop : Nat)
    (gaps : List Nat) (env : Env) : List CatchCode → Chain → Gen Chain
  | [], exit => pure exit
  | c :: cs, exit => do
    let _ ← Emit.entryPushed frame .object
    handler c start stop gaps env
    leave env env.scope
    let exit ←
      if hasCleanup || !cs.isEmpty then do
        touch (·.beginLine info.span.lastLine)
        Cond.join exit (← Emit.branch .goto)
      else pure exit
    closeGap env.scope
    handlers info frame hasCleanup start stop gaps env cs exit

/-- Begins a line and enters it at once. -/
def startLine (line : Nat) : Gen Unit := touch fun c => (c.beginLine line).markLine

/-- The subroutine that runs the cleanup of the scope, if anything calls it. -/
def subroutine (finalLine : Nat) (env : Env) : Gen Unit := do
  let calls ← Scoping.takeCont env.scope
  unless calls.isEmpty do
    Emit.resolve calls
    startLine finalLine
    let reg ← Emit.newReg .object
    (Item.var .object reg).store
    cleanup env env.scope
    Emit.register .ret reg
    touch (·.kill)

/-- The handler for every exception: it runs the cleanup and throws the exception
again. It protects the region from `start` on without the gaps, the code of the
other handlers included. -/
def catchAll (span : Span) (frame : Frame) (start finalLine : Nat) (env : Env) : Gen Unit := do
  touch (·.newSegment)
  let pc ← Emit.entryPushed frame .object
  let start ← addCatches span pc 0 start (← Scoping.takeGaps env.scope)
  startLine finalLine
  let exception := Item.var .object (← Emit.newReg .object)
  exception.store
  leave env env.scope
  let _ ← exception.load
  match ← Scoping.takeGap env.scope with
  | none => throw (.internal .missingGap)
  | some stop => addCatch span ⟨start, stop, pc, 0⟩
  Emit.plain .athrow
  touch (·.kill)
  subroutine finalLine env

/-- The region itself with its handlers. The surroundings are those inside the
scope that holds the cleanup. -/
def protect (info : StmtInfo) (body : StmtCode) (catches : List CatchCode) (finalLine : Nat)
    (env : Env) : Gen Unit :=
  freeing do
    let start ← Emit.curPc
    let frame ← peek (·.frame)
    rangedStat body env RangeFlag.block
    let stop ← Emit.curPc
    let hasCleanup ← peekScope env.scope fun s => s.cleanup.any (·.isActive)
    let gaps ← peekScope env.scope fun s => (s.gaps.getD #[]).toList
    touch (·.beginLine body.span.lastLine)
    leave env env.scope
    touch (·.beginLine info.span.lastLine)
    let exit ← Emit.branch .goto
    closeGap env.scope
    let exit ←
      if start ≠ stop then handlers info frame hasCleanup start stop gaps env catches exit
      else pure exit
    if hasCleanup then catchAll body.span frame start finalLine env
    Emit.resolve exit

/-- Opens a scope with cleanup. -/
def openProtected (kind : ScopeKind) (info : StmtInfo) (cleanup : Cleanup) (env : Env) :
    Gen ScopeId := do
  let id ← Scoping.openScope kind (some info.id) env.scope
  Scoping.modifyScope id fun s => { s with cleanup := some cleanup, gaps := some #[] }
  return id

/-- A synchronized statement. The monitor is kept in a register of its own. -/
def sync (info : StmtInfo) (lock : ExprCode) (body : StmtCode) (env : Env) : Gen Unit :=
  freeing do
    let reg ← Emit.newReg .object
    let monitor ← lock.push lock.info.ty
    monitor.duplicate
    (Item.var .object reg).store
    Emit.plain .monitorenter
    touch fun c => { c with frame := c.frame.lock reg }
    let id ← openProtected .monitor info (.monitor reg) env
    protect info body [] info.span.lastLine (env.inside id)
    Scoping.closeScope id

/-- Whether a try statement makes `finally` blocks subroutines: if the target has
them, a limit of zero or less always asks for them, and one below 100 for blocks
that weigh more. -/
def wantsSubroutines (config : Config) (final : Option Stmt) : Bool :=
  let limit := config.jsrLimit
  let weight := (final.map (·.weightUpTo limit)).getD 0
  config.stackMaps == .none && (limit ≤ 0 || (limit < 100 && limit < weight))

/-- A try statement. -/
def tryCatch (ctx : Context) (info : StmtInfo) (body : StmtCode) (catches : List CatchCode)
    (final : Option Stmt) (finalCode : Option StmtCode) (env : Env) : Gen Unit := do
  unless (← get).subroutines do
    modify fun s => { s with subroutines := wantsSubroutines ctx.config final }
  let id ← openProtected .tryBlock info (.finallyBlock final.isSome) env
  let inner := match finalCode with
    | some f => env.insideTry id (rangedStat f env RangeFlag.block)
    | none => env.inside id
  let finalLine := match final with
    | some f => f.span.firstLine
    | none => info.span.lastLine
  protect info body catches finalLine inner
  Scoping.closeScope id

end Gen

end StackCode
