import StackCode.Item.Access
import StackCode.Resolver
import StackCode.Scope
import StackCode.Tree.Basic

/-!
# Generating a method

The state of the generator while it works on a method, and the steps that
statements and expressions share. `Context` is what stays the same throughout a
method; `Env` is what a statement sees around it: the scope it stands in, and for
each enclosing try statement the code of its `finally` block, which every exit
from the statement may have to write once more.

Exceeding a limit of the class format is reported and does not fail, so the
reports made so far survive a failure.
-/

namespace StackCode

/-- The limits reported, latest last, and how many of them concern the class at
hand. -/
structure Reports where
  count : Nat := 0
  log : Array Diagnostic := #[]
deriving Repr, Inhabited

namespace Reports

/-- Reports that a limit is exceeded. -/
def add (r : Reports) (span : Span) (limit : Limit) : Reports :=
  ⟨r.count + 1, r.log.push ⟨span, limit⟩⟩

/-- Reports an array type with too many levels. -/
def checkDimensions (r : Reports) (span : Span) (t : Ty) : Reports :=
  if Limit.maxDimensions < t.dimensions then r.add span .dimensions else r

/-- Reports a string constant that is too long, unless something has been reported
for the class before. -/
def checkString (r : Reports) (span : Span) (c : Option Const) : Reports :=
  match c with
  | some (.str text) =>
    if r.count = 0 ∧ Limit.maxString ≤ utf16Length text then r.add span .string else r
  | _ => r

end Reports

/-- The state of the generator within a method. -/
structure MethodState where
  asm : Assembly := {}
  scopes : Scopes := {}
  /-- the registers of the variables declared so far -/
  locals : Std.TreeMap VarId UInt16 := ∅
  /-- whether `finally` blocks are written as subroutines from here on -/
  subroutines : Bool := false
  /-- how many `letIn` expressions enclose this place; within one, statements may
  find values on the stack -/
  letDepth : Nat := 0
  reports : Reports := {}
  /-- the append methods found so far, by argument type -/
  appends : List (Ty × MethodSymbol) := []
deriving Inhabited

/-- Generating code: a step that may fail. -/
abbrev Gen := EStateM Error MethodState

/-- What stays the same throughout a method. -/
structure Context where
  config : Config
  resolver : Resolver
  /-- the name of the class -/
  cls : String
  method : MethodDecl

/-- What a statement sees around it. -/
structure Env where
  scope : ScopeId
  /-- writes the `finally` block of an enclosing try statement, by its scope -/
  finallyOf : ScopeId → Gen Unit

namespace Env

/-- The surroundings of the outermost statement of a method. -/
def outermost : Env := ⟨Scopes.method, fun _ => pure ()⟩

/-- The surroundings inside a scope without a `finally` block. -/
def inside (env : Env) (scope : ScopeId) : Env := { env with scope }

/-- The surroundings inside a scope with a `finally` block. -/
def insideTry (env : Env) (scope : ScopeId) (block : Gen Unit) : Env :=
  ⟨scope, fun id => if id = scope then block else env.finallyOf id⟩

end Env

namespace Gen

/-- A step over the code and the pool alone. -/
def onAsm {α : Type} (x : Asm α) : Gen α :=
  fun ⟨asm, scopes, locals, subroutines, letDepth, reports, appends⟩ =>
    match x asm with
    | .ok a asm => .ok a ⟨asm, scopes, locals, subroutines, letDepth, reports, appends⟩
    | .error e asm => .error e ⟨asm, scopes, locals, subroutines, letDepth, reports, appends⟩

/-- A step over the scopes alone. -/
def onScopes {α : Type} (x : Scoping α) : Gen α :=
  fun ⟨asm, scopes, locals, subroutines, letDepth, reports, appends⟩ =>
    match x scopes with
    | .ok a scopes => .ok a ⟨asm, scopes, locals, subroutines, letDepth, reports, appends⟩
    | .error e scopes => .error e ⟨asm, scopes, locals, subroutines, letDepth, reports, appends⟩

instance : MonadLift Asm Gen := ⟨onAsm⟩
instance : MonadLift Scoping Gen := ⟨onScopes⟩
instance : MonadLift (Except Error) Gen := ⟨fun
  | .ok a => pure a
  | .error e => throw e⟩

/-- Reads something off the code. -/
def peek {α : Type} (f : Code → α) : Gen α := fun s => .ok (f s.asm.code) s

/-- Changes the code. -/
def touch (f : Code → Code) : Gen Unit := show Emit Unit from modify f

/-- Reads something off a scope. -/
def peekScope {α : Type} (id : ScopeId) (f : Scope → α) : Gen α :=
  fun s => .ok (f (s.scopes.get id)) s

/-! ### Reports -/

/-- Changes the reports. -/
def reporting (f : Reports → Reports) : Gen Unit :=
  fun ⟨asm, scopes, locals, subroutines, letDepth, reports, appends⟩ =>
    .ok () ⟨asm, scopes, locals, subroutines, letDepth, f reports, appends⟩

/-- Reports that a limit is exceeded. -/
def report (span : Span) (limit : Limit) : Gen Unit := reporting (·.add span limit)

/-- Reports an array type with too many levels. -/
def checkDimensions (span : Span) (t : Ty) : Gen Unit := reporting (·.checkDimensions span t)

/-- Reports a string constant that is too long. -/
def checkString (span : Span) (c : Option Const) : Gen Unit := reporting (·.checkString span c)

/-- The pool index of a type. -/
def typeIndex (span : Span) (t : Ty) : Gen UInt16 := do
  checkDimensions span t
  Asm.pooled (·.putType t)

/-! ### Variables -/

/-- The register of a variable declared earlier. -/
def registerOf (id : VarId) : Gen UInt16 := do
  match (← get).locals[id]? with
  | some reg => return reg
  | none => throw (.internal (.undeclaredVar id))

/-- Takes a register for a variable. -/
def declare (v : LocalVar) : Gen UInt16 := do
  let reg ← Emit.newVar v.name v.ty
  modify fun s => { s with locals := s.locals.insert v.id reg }
  return reg

/-- Runs a step and gives back the registers that it took. -/
def freeing {α : Type} (x : Gen α) : Gen α := do
  let first ← peek (·.nextReg)
  let a ← x
  Emit.endScopes first
  return a

/-! ### Character ranges -/

/-- Enters the code of a step into the character-range table, if it is kept. -/
def ranged {α : Type} (span : Span) (flags : UInt16) (x : Gen α) : Gen α := do
  if ← peek (·.ranges.isNone) then x
  else
    let start ← Emit.curPc
    let a ← x
    let stop ← Emit.curPc
    touch (·.addRange ⟨span, flags, start, stop⟩)
    return a

end Gen

/-! What a row of the character-range table may stand for. -/

namespace RangeFlag

def statement : UInt16 := 0x0001
def block : UInt16 := 0x0002
def flowController : UInt16 := 0x0008
def flowTarget : UInt16 := 0x0010

end RangeFlag

/-! ### Members -/

namespace Context

/-- The member as code refers to it when it is qualified by `site`: through the
qualifying class rather than the declaring one, unless the two are the same, the
member is a static synthetic, or it can just as well be named directly. -/
def qualify (ctx : Context) (m : MemberRef) (flags : Access) (site : Ty) : MemberRef :=
  match site with
  | .cls name =>
    let direct :=
      if ctx.config.binaryCompatible then m.owner == Ty.objectName
      else ctx.resolver.accessible ctx.cls m.owner
    if m.owner == name || flags.has (Access.staticBit ||| Access.syntheticBit) || direct then m
    else m.withOwner name (ctx.resolver.isInterface name)
  | _ => m

/-- Calls a library method on what is on the stack. -/
def callLibrary (ctx : Context) (site : Ty) (name : String) (args : List Ty) : Gen Item := do
  let m ← ctx.resolver.method site name args
  (Item.member (.ofMethod m) (name == constructorName)).invoke

end Context

end StackCode
