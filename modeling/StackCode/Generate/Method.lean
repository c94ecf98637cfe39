import StackCode.Generate.Tree

/-!
# Methods

A method is generated with narrow jumps first. If a jump or a protected region
turns out too long for them, it is generated once more with wide jumps, and in
the case of a region with its `finally` blocks as subroutines where the target
allows that. What the first attempt put into the pool stays there.

A method that exceeds a limit of the class format is reported and gets no code.
-/

namespace StackCode

/-- What the methods of a class share while they are generated. -/
structure ClassState where
  pool : Pool := .empty
  reports : Reports := {}
  appends : List (Ty × MethodSymbol) := []
deriving Inhabited

/-- Generating a class: a step that may fail. -/
abbrev ClassGen := EStateM Error ClassState

namespace Gen

/-- Takes registers for `this` and the parameters, which have values from the
start. -/
def parameters (ctx : Context) : Gen Unit := do
  unless ctx.method.isStatic do
    let reg ← Emit.newVar "this" (.cls ctx.cls)
    touch (·.define reg)
  ctx.method.params.forM fun p => do
    let reg ← declare p
    touch (·.define reg)
    checkDimensions ctx.method.span p.ty

/-- Ends a method whose end can be reached: it returns, or if it owes a value,
never comes to an end. -/
def fallOff (ctx : Context) (line : Nat) : Gen Unit := do
  let depth ← peek (·.frame.depth)
  if depth ≠ 0 then throw (.stackDepth depth line)
  if ← peek (·.reachable) then
    touch (·.beginLine line)
    if ctx.method.ty.ret.isVoid then Emit.plain .vreturn
    else
      let start ← Emit.entry
      Emit.resolveTo (← Emit.branch .goto) start

/-- The code of a method. -/
def methodBody (ctx : Context) (body : Stmt) : Gen Unit := do
  parameters ctx
  let _ ← Emit.entry
  ranged body.span RangeFlag.block do
    (body.code ctx).gen Env.outermost
    fallOff ctx body.span.lastLine
  Emit.endScopes 0

end Gen

namespace ClassGen

/-- Changes the reports. -/
def reporting (f : Reports → Reports) : ClassGen Unit := fun ⟨pool, reports, appends⟩ =>
  .ok () ⟨pool, f reports, appends⟩

/-- One attempt at the code of a method; `none` if a protected region is too long
for narrow jumps. Nothing but the statement of the method finds that out. -/
def attempt (ctx : Context) (body : Stmt) (wide subroutines : Bool) : ClassGen (Option Code) :=
  fun ⟨pool, reports, appends⟩ =>
    match Gen.methodBody ctx body
        { asm := ⟨.new wide ctx.config, pool⟩, subroutines, reports, appends } with
    | .ok _ s => .ok (some s.asm.code) ⟨s.asm.pool, s.reports, s.appends⟩
    | .error .codeSizeOverflow s => .ok none ⟨s.asm.pool, s.reports, s.appends⟩
    | .error e s => .error e ⟨s.asm.pool, s.reports, s.appends⟩

/-- The code, unless it exceeds a limit, which is then reported. -/
def withinLimits (ctx : Context) (code : Code) : ClassGen (Option Code) := do
  let exceeded := code.exceeded
  exceeded.forM fun limit => reporting (·.add ctx.method.span limit)
  return if exceeded.isEmpty then some code else none

section

-- The rest is the same however an attempt is made: another monad may also write it down.
variable {M : Type → Type} [Monad M] [MonadLiftT ClassGen M]
  (attempt : Stmt → (wide subroutines : Bool) → M (Option Code))

/-- The attempt with wide jumps. -/
def wideBody (ctx : Context) (body : Stmt) (subroutines : Bool) : M (Option Code) := do
  match ← attempt body true subroutines with
  | some code => liftM (withinLimits ctx code)
  | none => liftM (throw (.internal (.stillTooWide ctx.method.name)) : ClassGen (Option Code))

/-- The code of a body, with narrow jumps if possible. -/
def body (ctx : Context) (body : Stmt) : M (Option Code) := do
  match ← attempt body false false with
  | none => wideBody attempt ctx body (ctx.config.stackMaps == .none)
  | some code =>
    match ← liftM (withinLimits ctx code) with
    | none => return none
    | some code => if code.needsWide then wideBody attempt ctx body false else return some code

/-- The finished code of a method; `none` if it has no body or if anything was
reported for it. -/
def methodBy (ctx : Context) : M (Option CodeAttr) := do
  let m := ctx.method
  let before := (← liftM (get : ClassGen ClassState)).reports.count
  liftM (m.ty.params.forM fun t => reporting (·.checkDimensions m.span t))
  liftM (reporting (·.checkDimensions m.span m.ty.ret))
  if Limit.maxParameters < m.argumentWords then
    liftM (reporting (·.add m.span .parameters))
    return none
  match m.body with
  | none => return none
  | some b =>
    match ← body attempt ctx b with
    | none => return none
    | some code =>
      return if before < (← liftM (get : ClassGen ClassState)).reports.count then none
        else some code.finish

end

/-- The finished code of a method, by attempts that are just made. -/
def method (ctx : Context) : ClassGen (Option CodeAttr) := methodBy (attempt ctx) ctx

end ClassGen

end StackCode
