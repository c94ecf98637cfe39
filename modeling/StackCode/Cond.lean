import StackCode.Code.Emit

/-!
# Conditions

A `Cond` is a condition evaluated up to its last test: `op` is the branch taken
when that test holds, and the chains hold the jumps that earlier tests have
already taken. `goto` stands for a test that always holds, `Opcode.never` for
one that never does.
-/

namespace StackCode

/-- A condition evaluated up to its last test. -/
structure Cond where
  op : Opcode
  /-- the jumps taken because the condition holds -/
  onTrue : Chain := []
  /-- the jumps taken because it does not -/
  onFalse : Chain := []
deriving DecidableEq, Repr, Inhabited

namespace Cond

def ofBool (b : Bool) : Cond := { op := if b then .goto else .never }

/-- Whether the condition is known to hold. -/
def isTrue (c : Cond) : Bool := c.onFalse.isEmpty && c.op == .goto

/-- Whether the condition is known not to hold. -/
def isFalse (c : Cond) : Bool := c.onTrue.isEmpty && c.op == .never

def negate (c : Cond) : Cond := ⟨c.op.negate, c.onFalse, c.onTrue⟩

/-- The merge of two chains as a step of writing code. -/
def join (a b : Chain) : Emit Chain :=
  match a.merge b with
  | .ok c => pure c
  | .error e => throw e

/-- Writes the last test and answers with every jump taken if the condition
holds. -/
def jumpTrue (c : Cond) : Emit Chain := do
  let jump ← Emit.branch c.op
  join c.onTrue jump

/-- Writes the opposite of the last test and answers with every jump taken if the
condition does not hold. -/
def jumpFalse (c : Cond) : Emit Chain := do
  let jump ← Emit.branch c.op.negate
  join c.onFalse jump

/-- Leaves 1 on the stack if the condition holds, 0 otherwise. -/
def load (c : Cond) : Emit Unit := do
  let falseChain ← c.jumpFalse
  let trueExit ←
    if c.isFalse then pure []
    else do
      Emit.resolve c.onTrue
      Emit.plain .iconst1
      Emit.branch .goto
  unless falseChain.isEmpty do
    Emit.resolve falseChain
    Emit.plain .iconst0
  Emit.resolve trueExit

@[simp] theorem isTrue_ofBool (b : Bool) : (ofBool b).isTrue = b := by
  cases b <;> rfl

@[simp] theorem isFalse_ofBool (b : Bool) : (ofBool b).isFalse = !b := by
  cases b <;> rfl

end Cond

end StackCode
