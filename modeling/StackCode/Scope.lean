import StackCode.Chain

/-!
# Scopes

Every construct that a jump can leave, or that has to be cleaned up after, opens
a scope while it is generated. A scope collects the jumps out of the construct
and the gaps in its protected region. Scopes are opened and closed in stack
order and named by position; the method itself is scope 0. A scope names the one
around it by position as well. A position is used again once its scope is closed,
so it may come to name a scope opened later. Going outward therefore takes no more
steps than there are scopes open, which is enough to meet every scope on the way.
-/

namespace StackCode

/-- The position of a scope among those open. -/
abbrev ScopeId := Nat

/-- What has to run when a protected region is left. -/
inductive Cleanup where
  /-- the `finally` block of a try statement, if it has one -/
  | finallyBlock (hasBody : Bool)
  /-- giving back the monitor held in a register -/
  | monitor (reg : UInt16)
deriving DecidableEq, Repr, Inhabited

/-- Whether leaving the region runs any code. -/
def Cleanup.isActive : Cleanup → Bool
  | finallyBlock hasBody => hasBody
  | monitor _ => true

/-- A construct that is being generated. -/
structure Scope where
  kind : ScopeKind
  /-- the statement that jumps name to leave the construct -/
  tree : Option NodeId := none
  parent : Option ScopeId := none
  /-- the jumps behind the construct -/
  exit : Chain := []
  /-- the jumps to the next round of a loop, or the calls of a subroutine -/
  cont : Chain := []
  cleanup : Option Cleanup := none
  /-- starts and ends, in turn, of the cleanup code within the region -/
  gaps : Option (Array Nat) := none
deriving DecidableEq, Repr, Inhabited

namespace Scope

/-- Whether the last gap has a start but no end. -/
def hasOpenGap (s : Scope) : Bool := (s.gaps.getD #[]).size % 2 == 1

/-- Whether a `finally` block runs when the scope is left. -/
def hasFinally (s : Scope) : Bool :=
  s.kind == .tryBlock && s.cleanup == some (.finallyBlock true)

end Scope

/-- The scopes that are open in a method, outermost first. -/
structure Scopes where
  table : Array Scope := #[{ kind := .method }]
deriving Repr, Inhabited

/-- Working on the open scopes: a step that may fail. -/
abbrev Scoping := EStateM Error Scopes

namespace Scopes

/-- The scope of the method. -/
def method : ScopeId := 0

def depth (s : Scopes) : Nat := s.table.size

/-- The scope at a position; behind the last one there is only a bare method. -/
def get (s : Scopes) (id : ScopeId) : Scope := s.table.getD id { kind := .method }

def modifyScope (s : Scopes) (id : ScopeId) (f : Scope → Scope) : Scopes :=
  { s with table := s.table.modify id f }

/-- Opens a scope inside `parent`. -/
def push (s : Scopes) (kind : ScopeKind) (tree : Option NodeId) (parent : ScopeId) :
    ScopeId × Scopes :=
  (s.table.size, { s with table := s.table.push { kind, tree, parent := some parent } })

/-- The first `n` scopes met on the way outward from `id`. -/
def outward (s : Scopes) : Nat → ScopeId → List ScopeId
  | 0, _ => []
  | n + 1, id =>
    id :: match (s.get id).parent with
      | none => []
      | some p => outward s n p

/-- The scope and those around it, innermost first. The open scopes all have their
turn, and after them the position where the way leads out of the table, if it does. -/
def ancestors (s : Scopes) (id : ScopeId) : List ScopeId := s.outward (s.depth + 1) id

/-- The innermost scope around `id` that belongs to the statement `target`. -/
def findTarget (s : Scopes) (id : ScopeId) (target : NodeId) : Except Error ScopeId :=
  match (s.ancestors id).find? fun i => (s.get i).tree == some target with
  | some i => .ok i
  | none => .error (.unknownTarget target)

/-- The scopes from `id` outward up to and including `last`. -/
def path (s : Scopes) (id last : ScopeId) : List ScopeId :=
  let around := s.ancestors id
  around.takeWhile (· != last) ++ if last ∈ around then [last] else []

/-- Whether a `finally` block runs between `id` and the method. -/
def hasFinally (s : Scopes) (id : ScopeId) : Bool :=
  ((s.ancestors id).takeWhile (· != method)).any fun i => (s.get i).hasFinally

end Scopes

namespace Scoping

/-- Opens a scope inside `parent`. -/
def openScope (kind : ScopeKind) (tree : Option NodeId) (parent : ScopeId) : Scoping ScopeId :=
  modifyGet (·.push kind tree parent)

/-- Closes the innermost scope, which must be `id` and must have no jump left. -/
def closeScope (id : ScopeId) : Scoping Unit := do
  let s ← get
  if id + 1 ≠ s.depth then throw (.internal (.scopeOrder id s.depth))
  let scope := s.get id
  modify fun s => { s with table := s.table.pop }
  if !scope.exit.isEmpty || !scope.cont.isEmpty then throw (.unresolvedChain scope.kind)

def modifyScope (id : ScopeId) (f : Scope → Scope) : Scoping Unit :=
  modify (·.modifyScope id f)

/-- Takes the jumps behind the construct out of the scope. -/
def takeExit (id : ScopeId) : Scoping Chain := do
  let chain := ((← get).get id).exit
  modifyScope id fun s => { s with exit := [] }
  return chain

/-- Takes the jumps to the next round out of the scope. -/
def takeCont (id : ScopeId) : Scoping Chain := do
  let chain := ((← get).get id).cont
  modifyScope id fun s => { s with cont := [] }
  return chain

/-- Adds jumps behind the construct. -/
def addExit (id : ScopeId) (chain : Chain) : Scoping Unit := do
  match chain.merge (← takeExit id) with
  | .ok exit => modifyScope id fun s => { s with exit }
  | .error e => throw e

/-- Adds jumps to the next round of the construct. -/
def addCont (id : ScopeId) (chain : Chain) : Scoping Unit := do
  match chain.merge (← takeCont id) with
  | .ok cont => modifyScope id fun s => { s with cont }
  | .error e => throw e

/-- Begins a gap at `pc`. -/
def openGap (id : ScopeId) (pc : Nat) : Scoping Unit := do
  if ((← get).get id).hasOpenGap then throw .oddGaps
  modifyScope id fun s => { s with gaps := some ((s.gaps.getD #[]).push pc) }

/-- Ends the open gap, if there is one, at `pc`. -/
def closeGap (id : ScopeId) (pc : Nat) : Scoping Unit :=
  modifyScope id fun s =>
    if s.hasOpenGap then { s with gaps := s.gaps.map (·.push pc) } else s

/-- Takes the first position out of the gaps. -/
def takeGap (id : ScopeId) : Scoping (Option Nat) := do
  let gaps := (((← get).get id).gaps.getD #[]).toList
  modifyScope id fun s => { s with gaps := s.gaps.map fun _ => gaps.tail.toArray }
  return gaps.head?

/-- Takes all positions out of the gaps. -/
def takeGaps (id : ScopeId) : Scoping (List Nat) := do
  let gaps := (((← get).get id).gaps.getD #[]).toList
  modifyScope id fun s => { s with gaps := s.gaps.map fun _ => #[] }
  return gaps

end Scoping

end StackCode
