import StackCode.Error

/-!
# Reading code back

`Instruction.decode` splits a byte sequence into instructions, and the readers
of an instruction give its branch target, its register and its switch table.
The wide prefix belongs to the instruction it modifies, and the padding of a
switch to the switch. Branch targets are 32-bit positions, so a target before
the start of the code wraps around.
-/

namespace StackCode

/-- An instruction within a byte sequence. -/
structure Instruction where
  pc : Nat
  op : Opcode
  /-- the length in bytes, prefix and padding included -/
  length : Nat
  /-- whether the wide prefix stands before the opcode -/
  wide : Bool
deriving DecidableEq, Repr, Inhabited

/-- The targets of a switch instruction, keys in table order. -/
structure SwitchTable where
  default : Nat
  cases : List (Int × Nat)
deriving DecidableEq, Repr, Inhabited

namespace Instruction

/-- The byte at `pc`. -/
def byteAt (code : Array UInt8) (pc : Nat) : Except Error UInt8 :=
  match code[pc]? with
  | some b => .ok b
  | none => .error (.internal (.cutInstruction pc))

/-- The signed 16-bit integer at `pc`. -/
def shortAt (code : Array UInt8) (pc : Nat) : Except Error Int := do
  let hi ← byteAt code pc
  let lo ← byteAt code (pc + 1)
  return (Int.bmod (hi.toNat * 0x100 + lo.toNat) 0x10000)

/-- The signed 32-bit integer at `pc`. -/
def intAt (code : Array UInt8) (pc : Nat) : Except Error Int :=
  match code[pc]?, code[pc + 1]?, code[pc + 2]?, code[pc + 3]? with
  | some a, some b, some c, some d =>
    .ok (Int.bmod (((a.toNat * 0x100 + b.toNat) * 0x100 + c.toNat) * 0x100 + d.toNat) 0x100000000)
  | _, _, _, _ => .error (.internal (.cutOperand pc))

/-- The position of the aligned operands of a switch at `pc`. -/
def switchBase (pc : Nat) : Nat := (pc + 4) / 4 * 4

/-- The opcode, length and wide mark of the instruction at `pc`. -/
def shapeAt (code : Array UInt8) (pc : Nat) : Except Error (Opcode × Nat × Bool) := do
  let op : Opcode ← byteAt code pc
  if op = .wide then
    let modified : Opcode ← byteAt code (pc + 1)
    return (modified, if modified = .iinc then 6 else 4, true)
  else if op = .tableswitch then
    let base := switchBase pc
    let lo ← intAt code (base + 4)
    let hi ← intAt code (base + 8)
    if hi < lo then throw (.internal (.tableBounds pc hi lo))
    return (op, base - pc + 12 + 4 * (hi - lo + 1).toNat, false)
  else if op = .lookupswitch then
    let base := switchBase pc
    let pairs ← intAt code (base + 4)
    if pairs < 0 then throw (.internal (.pairCount pc pairs))
    return (op, base - pc + 8 + 8 * pairs.toNat, false)
  else
    match op.length? with
    | some (n + 1) => return (op, n + 1, false)
    | _ => throw (.internal (.undefinedOpcode op pc))

/-- The instruction at `pc`. -/
def decodeAt (code : Array UInt8) (pc : Nat) : Except Error Instruction := do
  let (op, length, wide) ← shapeAt code pc
  if code.size < pc + length then throw (.internal (.overrun op pc))
  return ⟨pc, op, length, wide⟩

/-- The instructions from `pc` on, after those already read, which stand latest
first. Every instruction is at least one byte long, so the bytes left bound the
number of instructions left. -/
def decodeFrom (code : Array UInt8) :
    Nat → Nat → List Instruction → Except Error (List Instruction)
  | 0, _, read => .ok read.reverse
  | left + 1, pc, read =>
    if pc < code.size then do
      let i ← decodeAt code pc
      decodeFrom code left (pc + i.length) (i :: read)
    else .ok read.reverse

/-- Every instruction of a byte sequence. -/
def decode (code : Array UInt8) : Except Error (List Instruction) :=
  decodeFrom code code.size 0 []

/-- A position reached from `pc` by an offset, as a 32-bit number. -/
def offsetTarget (pc : Nat) (offset : Int) : Nat := ((pc + offset) % 0x100000000).toNat

/-- The target of a branch. -/
def branchTarget? (i : Instruction) (code : Array UInt8) : Except Error (Option Nat) := do
  if i.op = .gotoW ∨ i.op = .jsrW then
    return some (offsetTarget i.pc (← intAt code (i.pc + 1)))
  else if i.op.isBranch then
    return some (offsetTarget i.pc (← shortAt code (i.pc + 1)))
  else return none

/-- Whether an opcode names its register in an operand. -/
def hasRegister (op : Opcode) : Bool :=
  (.iload ≤ op && op ≤ .aload) || (.istore ≤ op && op ≤ .astore) || op == .iinc || op == .ret

/-- The register of a load, a store, an increment or a return from a
subroutine. -/
def register? (i : Instruction) (code : Array UInt8) : Except Error (Option Nat) := do
  if hasRegister i.op then
    if i.wide then
      let hi ← byteAt code (i.pc + 2)
      let lo ← byteAt code (i.pc + 3)
      return some (hi.toNat * 0x100 + lo.toNat)
    else return some (← byteAt code (i.pc + 1)).toNat
  else if .iload0 ≤ i.op && i.op ≤ .aload3 then
    return some ((i.op - .iload0).toNat % 4)
  else if .istore0 ≤ i.op && i.op ≤ .astore3 then
    return some ((i.op - .istore0).toNat % 4)
  else return none

/-- The targets of `n` consecutive keys from `key` on, their offsets from `pos`
on. -/
def tableCases (code : Array UInt8) (pc : Nat) : Nat → Int → Nat → Except Error (List (Int × Nat))
  | 0, _, _ => .ok []
  | n + 1, key, pos => do
    let offset ← intAt code pos
    let rest ← tableCases code pc n (key + 1) (pos + 4)
    return (key, offsetTarget pc offset) :: rest

/-- `n` pairs of a key and a target, from `pos` on. -/
def lookupCases (code : Array UInt8) (pc : Nat) : Nat → Nat → Except Error (List (Int × Nat))
  | 0, _ => .ok []
  | n + 1, pos => do
    let key ← intAt code pos
    let offset ← intAt code (pos + 4)
    let rest ← lookupCases code pc n (pos + 8)
    return (key, offsetTarget pc offset) :: rest

/-- The targets of a switch. -/
def switchTable? (i : Instruction) (code : Array UInt8) : Except Error (Option SwitchTable) := do
  let base := switchBase i.pc
  if i.op = .tableswitch then
    let default ← intAt code base
    let lo ← intAt code (base + 4)
    let hi ← intAt code (base + 8)
    let cases ← tableCases code i.pc (hi - lo + 1).toNat lo (base + 12)
    return some ⟨offsetTarget i.pc default, cases⟩
  else if i.op = .lookupswitch then
    let default ← intAt code base
    let pairs ← intAt code (base + 4)
    let cases ← lookupCases code i.pc pairs.toNat (base + 8)
    return some ⟨offsetTarget i.pc default, cases⟩
  else return none

/-- A number set to the right in a field of `width` characters. -/
def padLeft (width n : Nat) : String :=
  let s := toString n
  "".pushn ' ' (width - s.length) ++ s

/-- One line of a listing: position, mnemonic, and the branch target or the
register operand. -/
def line (i : Instruction) (code : Array UInt8) : Except Error String := do
  let head := padLeft 5 i.pc ++ ": " ++ (if i.wide then "wide " else "") ++ i.op.mnemonic
  let tail ← match ← i.branchTarget? code with
    | some target => pure (" " ++ toString target)
    | none =>
      match ← i.register? code with
      | some reg => pure (if 1 < i.length then " " ++ toString reg else "")
      | none => pure ""
  return head ++ tail ++ "\n"

/-- The listing of a byte sequence, one line per instruction. -/
def listing (code : Array UInt8) : Except Error String := do
  let lines ← (← decode code).mapM (·.line code)
  return String.join lines

end Instruction

end StackCode
