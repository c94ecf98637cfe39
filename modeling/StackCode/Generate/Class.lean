import StackCode.Generate.Method
import StackCode.Tree.Initializers

/-!
# Classes

A `Generator` turns classes into code one after the other. It keeps its pool and
its count of reports from class to class and starts every class by resetting
them. The pool goes with the output of a class; if the class fails, it stays with
all that was put into it. The log of all reports and the append methods found so
far are never reset.
-/

namespace StackCode

/-- The code of a method. A method without a body has none, and neither has one
that was given up because of a limit. -/
structure MethodOutput where
  name : String
  descriptor : String
  flags : Access
  code : Option CodeAttr
deriving DecidableEq, Repr, Inhabited

/-- The code of a class. -/
structure ClassOutput where
  name : String
  pool : Pool
  methods : List MethodOutput
  /-- how many limits were reported for the class -/
  errors : Nat
deriving Inhabited

/-- Reports what is wrong with the fields of a class. -/
def Reports.checkMember (r : Reports) : Member → Reports
  | .field f =>
    let r := match f.init with
      | some init =>
        if f.isStatic && f.sym.const.isSome then r.checkString init.span f.sym.const else r
      | none => r
    r.checkDimensions f.span f.sym.ty
  | _ => r

namespace ClassGen

/-- The output of one method. -/
def methodOutput (config : Config) (resolver : Resolver) (cls : String) (m : MethodDecl) :
    ClassGen MethodOutput := do
  let code ← method { config, resolver, cls, method := m }
  return { name := m.name, descriptor := m.ty.descriptor, flags := m.flags, code }

/-- The output of a class. A pool that is too large voids all methods. -/
def classOutput (config : Config) (resolver : Resolver) (c : ClassDecl) : ClassGen ClassOutput := do
  reporting fun r => c.members.foldl Reports.checkMember r
  let methods ← c.completeMethods.mapM (methodOutput config resolver c.name)
  let tooMany := Limit.max16 < (← get).pool.size
  if tooMany then reporting (·.add c.span .pool)
  let s ← get
  return {
    name := c.name
    pool := s.pool
    methods := if tooMany then methods.map fun m => { m with code := none } else methods
    errors := s.reports.count }

end ClassGen

/-- A generator between two classes. -/
structure Generator where
  config : Config
  resolver : Resolver
  log : Array Diagnostic := #[]
  appends : List (Ty × MethodSymbol) := []
  /-- what the class before has left of its pool -/
  pool : Pool := .empty
  /-- how many limits were reported for the class before -/
  count : Nat := 0

namespace Generator

/-- The state in which a class is begun. -/
def start (g : Generator) : ClassState where
  pool := g.pool.reset
  reports := { count := 0, log := g.log }
  appends := g.appends

/-- Nothing of the pool and the count of the class before is left. -/
theorem start_eq (g : Generator) :
    g.start = { reports := { log := g.log }, appends := g.appends } := by
  unfold start
  rw [g.pool.reset_eq_empty]

/-- The generator with what a class has left, apart from the pool. -/
def leave (g : Generator) (s : ClassState) (pool : Pool) : Generator :=
  { g with log := s.reports.log, appends := s.appends, pool, count := s.reports.count }

/-- Generates a class. The generator goes on after a failure. -/
def generate (g : Generator) (c : ClassDecl) : Except Error ClassOutput × Generator :=
  match ClassGen.classOutput g.config g.resolver c g.start with
  -- the pool is now part of the output
  | .ok out s => (.ok out, g.leave s .empty)
  | .error e s => (.error e, g.leave s s.pool)

/-- Generates classes one after the other. -/
def generateAll (g : Generator) : List ClassDecl → List (Except Error ClassOutput) × Generator
  | [] => ([], g)
  | c :: cs =>
    let (out, g) := g.generate c
    let (outs, g) := g.generateAll cs
    (out :: outs, g)

end Generator

end StackCode
