import StackCode.Generate.Basic

/-!
# Leaving protected regions

A jump out of a protected region first runs the region's cleanup. The cleanup
code must not be protected by the region itself, so where it begins a gap is
opened, and it is closed once the jump has been written.

A `finally` block is written either at every exit or once as a subroutine that
every exit calls. Calls of the subroutine are collected as jumps to the next
round of the try scope, each with a return address on its stack.
-/

namespace StackCode

namespace Gen

/-- Adds a row to the exception table. A row whose positions do not fit 16 bits
asks for another attempt with wide jumps, and is reported if jumps are wide
already. -/
def addCatch (span : Span) (row : CatchRow) : Gen Unit := do
  if row.start = row.stop then return
  if row.start ≤ Limit.max16 ∧ row.stop ≤ Limit.max16 ∧ row.handler ≤ Limit.max16 then
    touch (·.addCatch row)
  else if ← peek (·.wide) then report span .tryRange
  else throw .codeSizeOverflow

/-- Writes the cleanup code of a scope. -/
def cleanup (env : Env) (id : ScopeId) : Gen Unit := do
  match ← peekScope id (·.cleanup) with
  | some (.finallyBlock true) => env.finallyOf id
  | some (.monitor reg) =>
    if ← peek (·.reachable) then
      let _ ← (Item.var .object reg).load
      Emit.plain .monitorexit
      let frame ← (← peek (·.frame)).unlock reg
      touch fun c => { c with frame }
  | _ => pure ()

/-- Runs the cleanup of a scope on the way out, if control gets here, and opens a
gap for it. -/
def leave (env : Env) (id : ScopeId) : Gen Unit := do
  if ← peek (·.reachable) then
    match ← peekScope id (·.cleanup) with
    | none => pure ()
    | some (.finallyBlock hasBody) =>
      if (← get).subroutines then
        if hasBody then
          let frame ← peek (·.frame)
          let pc ← Emit.jump .jsr
          Scoping.modifyScope id fun s => { s with cont := ⟨pc, frame.push .object⟩ :: s.cont }
        Scoping.openGap id (← Emit.curPc)
      else
        Scoping.openGap id (← Emit.curPc)
        cleanup env id
    | some (.monitor _) =>
      cleanup env id
      Scoping.openGap id (← Emit.curPc)

/-- The scopes from the current one outward up to and including `last`. -/
def pathTo (env : Env) (last : ScopeId) : Gen (List ScopeId) :=
  return (← get).scopes.path env.scope last

/-- Runs the cleanup of every scope out to `last`. -/
def unwind (env : Env) (last : ScopeId) : Gen Unit := do
  (← pathTo env last).forM (leave env)

/-- Ends the gap that the last cleanup in a scope left open. -/
def closeGap (id : ScopeId) : Gen Unit := do
  if ← peekScope id (·.hasOpenGap) then Scoping.closeGap id (← Emit.curPc)

/-- Ends the open gaps of every scope out to `last`. -/
def closeGaps (env : Env) (last : ScopeId) : Gen Unit := do
  (← pathTo env last).forM closeGap

end Gen

end StackCode
