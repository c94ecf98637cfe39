import StackCode.Code.Basic

/-!
# Resolving branches

Branches are written before their targets are known. `Emit.resolveTo` gives
every branch of a chain its target; `Emit.resolve` lets them wait for the next
instruction instead, and the first instruction written then resolves them.

A trailing `goto` to the very next instruction is removed rather than patched,
as long as no position behind it has been seen. Reaching dead code through a
branch brings it back to life with the state of that branch.
-/

namespace StackCode

namespace Code

/-- Removes the last `n` bytes. Variables that reached into them end earlier,
and lines that began there are forgotten. -/
def dropTail (c : Code) (n : Nat) : Code :=
  let old := c.pc
  let new := old - n
  let c := { c with bytes := c.bytes.shrink new }
  let c :=
    if c.keepVars then
      { c with
        vars := c.vars.map fun v => if old ≤ v.start + v.length
          then { v with length := v.length - n } else v
        slots := c.slots.map fun s => s.map fun s => { s with start := s.start.map (min · new) } }
    else c
  { c with lines := c.lines.popWhile (new ≤ ·.pc) }

/-- Whether a link is a `goto` to the next instruction that ends the code and may
be removed. -/
def endsWithGoto (c : Code) (link : Link) (target : Nat) : Bool :=
  c.get1 link.pc == Opcode.goto && link.pc + 3 == target && target == c.pc && !c.fixed

/-- Writes the offset of a branch at `pc` to `target`. An offset that does not fit
is left out and noted. -/
def patch (c : Code) (pc target : Nat) : Code :=
  let offset : Int := (target : Int) - pc
  if c.wide then c.set4 (pc + 1) (.ofInt offset)
  else if offset < -0x8000 || 0x8000 ≤ offset then { c with needsWide := true }
  else c.set2 (pc + 1) (UInt16.ofInt offset)

/-- What happens at the target of a link once its offset is settled: the position
is seen, and if it is the current one, control is here. The second component is
the state that the branches joined so far agree on. -/
def land (c : Code) (link : Link) (target : Nat) (joined : Option Frame) : Code × Option Frame :=
  let c := { c with fixed := true }
  if c.pc = target then
    if !c.alive then ({ c with alive := true }, some link.frame)
    else (c, some (joined.getD c.frame))
  else (c, joined)

end Code

namespace Emit

/-- Resolves links one by one, and answers with the state that they leave. -/
def resolveLinks : Chain → Nat → Option Frame → Emit (Option Frame)
  | [], _, joined => pure joined
  | link :: rest, target, joined => do
    let c ← get
    let target := min target c.pc
    if c.endsWithGoto link target then
      let target := target - 3
      if rest.isEmpty then
        modify fun c => { c.dropTail 3 with alive := true }
        pure joined
      else
        let joined ← modifyGet fun c => ((c.dropTail 3).land link target joined).swap
        resolveLinks rest target joined
    else
      let current := joined.getD c.frame
      if c.alive && !link.frame.compatible current then
        throw (.stateMismatch target (.branch link.pc link.frame.depth link.frame.heldLocks
          current.depth current.heldLocks))
      let joined ← modifyGet fun c => ((c.patch link.pc target).land link target joined).swap
      resolveLinks rest target joined

/-- Gives every branch of a chain its target. -/
def resolveTo (chain : Chain) (target : Nat) : Emit Unit := do
  match ← resolveLinks chain target none with
  | none => pure ()
  | some frame => modify fun c => Code.noteDepth { c with frame }

/-- Gives the waiting branches the current position as their target. -/
def resolvePending : Emit Unit := do
  let c ← get
  unless c.pending.isEmpty do
    modify fun c => { c with pending := [] }
    resolveTo c.pending c.pc

/-- Lets a chain wait for the next instruction. -/
def resolve (chain : Chain) : Emit Unit := do
  let c ← get
  if let some link := chain.head? then
    if c.alive && !c.frame.compatible link.frame then
      throw (.stateMismatch c.pc (.pending link.pc link.frame.depth c.frame.depth))
  match chain.merge c.pending with
  | .ok pending => modify fun c => { c with pending }
  | .error e => throw e

/-- The current position as a fact to rely on: branches that wait for it are
resolved, the pending line is entered, and the position can no longer move. -/
def curPc : Emit Nat := do
  resolvePending
  modify fun c => { c.markLine with fixed := true }
  return (← get).pc

/-- The current position as a branch target in the current state. -/
def entry : Emit Nat := do
  let pc ← curPc
  modify fun c => { c with alive := true }
  return pc

/-- The current position as a branch target in a given state. -/
def entryWith (frame : Frame) : Emit Nat := do
  let pc ← curPc
  modify fun c => Code.noteDepth { c with alive := true, frame }
  return pc

/-- The current position as a branch target in a given state with one more
value. -/
def entryPushed (frame : Frame) (k : Kind) : Emit Nat := do
  let pc ← entryWith frame
  modify fun c => Code.noteDepth { c with frame := c.frame.push k }
  return pc

end Emit

end StackCode
