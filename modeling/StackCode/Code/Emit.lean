import StackCode.Code.Resolve

/-!
# Writing instructions

One function per form of operands. Each writes the opcode, then the operands,
and then applies the instruction's effect to the machine state; in dead code it
does nothing. The effect of an instruction comes from the instruction table,
except where it depends on a pool entry.
-/

namespace StackCode

/-- The buffer after an instruction whose words are there. A value pushed counts
toward the greatest depth. -/
def Code.applyEffect (c : Code) : Effect → Code
  | .pop n => { c with frame := c.frame.drop n }
  | .trade n k => noteDepth { c with frame := (c.frame.drop n).push k }
  | .dup w u => noteDepth { c with frame := c.frame.dup w u }
  | .swap => { c with frame := c.frame.swap }
  | .leave n => { c with frame := c.frame.drop n, alive := false }

namespace Emit

/-- Applies an effect to the machine state, provided its words are there. -/
def effect (e : Effect) : Emit Unit := do
  let depth := (← get).frame.depth
  if depth < e.needs then throw (e.underflow depth)
  modify (·.applyEffect e)

/-- Writes an opcode. Waiting branches are resolved to it and the pending line is
entered for it. -/
def opcode (op : Opcode) : Emit Unit := do
  resolvePending
  if (← get).alive then modify fun c => c.markLine.put1 op

/-- Applies the effect that the instruction table gives an opcode with the
operands at hand. -/
def finishOp (op : Opcode) (operands : Operands) : Emit Unit := do
  if (← get).alive then
    match op.row? with
    | some row =>
      if row.operands = operands then effect row.effect
      else throw (.internal (.wrongOperands op operands))
    | none => throw (.internal (.wrongOperands op operands))

/-- An instruction without operands. -/
def plain (op : Opcode) : Emit Unit := do
  opcode op
  finishOp op .plain

/-- An instruction with a one-byte operand. -/
def byte (op : Opcode) (b : UInt8) : Emit Unit := do
  opcode op
  modify (·.put1 b)
  finishOp op .byte

/-- An instruction on a local register, in its wide form if the register needs
it. -/
def register (op : Opcode) (reg : UInt16) : Emit Unit := do
  if 0xFF < reg then
    opcode .wide
    opcode op
    modify (·.put2 reg)
  else
    opcode op
    modify (·.put1 reg.toUInt8)
  finishOp op .register

/-- An instruction with a two-byte operand. -/
def short (op : Opcode) (w : UInt16) : Emit Unit := do
  opcode op
  modify (·.put2 w)
  finishOp op .short

/-- An instruction with a four-byte operand. -/
def int (op : Opcode) (n : Int32) : Emit Unit := do
  opcode op
  modify (·.put4 n)
  finishOp op .int

/-- Adds `delta` to an integer register, in the wide form if either operand needs
it. -/
def iinc (reg : UInt16) (delta : Int16) : Emit Unit := do
  if 0xFF < reg || delta < -128 || 127 < delta then
    opcode .wide
    opcode .iinc
    modify fun c => (c.put2 reg).put2 delta.toUInt16
  else
    opcode .iinc
    modify fun c => (c.put1 reg.toUInt8).put1 delta.toInt8.toUInt8

/-- Loads a pool constant of kind `k`. -/
def ldc (index : UInt16) (k : Kind) : Emit Unit := do
  if k = .long ∨ k = .double then
    opcode .ldc2W
    modify (·.put2 index)
  else if index ≤ 0xFF then
    opcode .ldc
    modify (·.put1 index.toUInt8)
  else
    opcode .ldcW
    modify (·.put2 index)
  if (← get).alive then effect (.trade 0 k)

/-- The effect of an access to a field of kind `k`. -/
def fieldEffect? (op : Opcode) (k : Kind) : Option Effect :=
  if op = .getstatic then some (.trade 0 k)
  else if op = .putstatic then some (.pop k.width)
  else if op = .getfield then some (.trade 1 k)
  else if op = .putfield then some (.pop (k.width + 1))
  else none

/-- Access to a field of kind `k`. -/
def field (op : Opcode) (index : UInt16) (k : Kind) : Emit Unit := do
  opcode op
  modify (·.put2 index)
  if (← get).alive then
    match fieldEffect? op k with
    | some e => effect e
    | none => throw (.internal (.wrongOperands op .field))

/-- A call that takes `words` argument words, and a receiver unless it is static,
and answers with a value of kind `k`. -/
def invoke (op : Opcode) (index : UInt16) (words : Nat) (k : Kind) : Emit Unit := do
  opcode op
  modify (·.put2 index)
  if op = .invokeinterface then modify fun c => (c.put1 (.ofNat (words + 1))).put1 0
  if (← get).alive then
    effect (.trade (words + if op = .invokestatic then 0 else 1) k)

/-- Allocates an array from the lengths of its `dims` outer levels. -/
def multiarray (dims : UInt8) (index : UInt16) : Emit Unit := do
  opcode .multianewarray
  modify fun c => (c.put2 index).put1 dims
  if (← get).alive then effect (.trade dims.toNat .object)

/-- Writes `n` instructions that do nothing. -/
def pad : Nat → Emit Unit
  | 0 => pure ()
  | n + 1 => do
    plain .nop
    pad n

/-- Pads the code up to a multiple of `unit`. The first instruction written may
resolve waiting branches, so the rest is measured after it. -/
def align (unit : Nat) : Emit Unit := do
  if (← get).alive && (← get).pc % unit != 0 then
    plain .nop
    pad ((unit - (← get).pc % unit) % unit)

/-- Writes a branch without a target and answers with its position. With wide
jumps a conditional branch becomes the opposite branch around a wide `goto`. -/
def jump (op : Opcode) : Emit Nat := do
  if (← get).wide then
    if op = .goto then int .gotoW 0
    else if op = .jsr then int .jsrW 0
    else
      short op.negate 8
      int .gotoW 0
      modify fun c => { c with alive := true }
    return (← get).pc - 5
  else
    short op 0
    return (← get).pc - 3

/-- Writes a branch and answers with the chain that holds it. A `goto` takes over
the branches that wait for this place; a condition that never holds writes
nothing. -/
def branch (op : Opcode) : Emit Chain := do
  let c ← get
  let rest := if op = .goto then c.pending else []
  if op = .goto then modify fun c => { c with pending := [] }
  let c ← get
  if op = .never || !c.reachable then return rest
  let pc ← jump op
  let c ← get
  modify fun c => { c with fixed := c.wide, alive := c.alive && op != .goto }
  return ⟨pc, c.frame⟩ :: rest

end Emit

end StackCode
