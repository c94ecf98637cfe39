import StackCode.Code.Local
import StackCode.Item.Basic
import StackCode.Pool

/-!
# Using items

What can be done with an item, over the code of a method and the pool of its
class: loading and storing it, calling it, duplicating or discarding what it
keeps on the stack, converting it, and testing it. Constants convert without any
code being written.
-/

namespace StackCode

/-- The code of a method with the pool that it refers to. -/
structure Assembly where
  code : Code := {}
  pool : Pool := .empty
deriving Inhabited

/-- Writing code that refers to the pool: a step that may fail. -/
abbrev Asm := EStateM Error Assembly

namespace Asm

/-- A step over the code alone. -/
def onCode {α : Type} (x : Emit α) : Asm α := fun ⟨code, pool⟩ =>
  match x code with
  | .ok a code => .ok a ⟨code, pool⟩
  | .error e code => .error e ⟨code, pool⟩

instance : MonadLift Emit Asm := ⟨onCode⟩

/-- Puts an entry into the pool. -/
def pooled (put : Pool → UInt16 × Pool) : Asm UInt16 := fun ⟨code, pool⟩ =>
  let (index, pool) := put pool
  .ok index ⟨code, pool⟩

/-- The pool index of a member. -/
def memberIndex (m : MemberRef) : Asm UInt16 :=
  pooled fun p =>
    if m.isMethod then p.putMethod m.owner m.name m.descriptor m.isInterface
    else p.putField m.owner m.name m.descriptor

end Asm

/-- Whether an integer lies in `[lo, hi]`. -/
def Int32.between (v lo hi : Int32) : Bool := lo ≤ v && v ≤ hi

namespace Item

open Asm

/-- Reports a use that the item does not allow. -/
def illegal {α : Type} (i : Item) (use : String) : Asm α := throw (.illegalUse use i.name)

/-- Loads an integer with the shortest instruction. -/
def loadInt (v : Int32) : Asm Unit := do
  if Int32.between v (-1) 5 then Emit.plain (.iconst0 + v.toInt8.toUInt8)
  else if Int32.between v (-128) 127 then Emit.byte .bipush v.toInt8.toUInt8
  else if Int32.between v (-32768) 32767 then Emit.short .sipush v.toInt16.toUInt16
  else Emit.ldc (← pooled (·.put (.int v))) .int

/-- Loads a long with the shortest instruction. -/
def loadLong (v : Int64) : Asm Unit := do
  if v = 0 then Emit.plain .lconst0
  else if v = 1 then Emit.plain .lconst1
  else Emit.ldc (← pooled (·.put (.long v))) .long

/-- Loads a float, by an instruction of its own if it is exactly 0, 1 or 2. -/
def loadFloat (bits : UInt32) : Asm Unit := do
  if bits = 0 then Emit.plain .fconst0
  else if bits = 0x3f800000 then Emit.plain .fconst1
  else if bits = 0x40000000 then Emit.plain .fconst2
  else Emit.ldc (← pooled (·.put (.float bits))) .float

/-- Loads a double, by an instruction of its own if it is exactly 0 or 1. -/
def loadDouble (bits : UInt64) : Asm Unit := do
  if bits = 0 then Emit.plain .dconst0
  else if bits = 0x3ff0000000000000 then Emit.plain .dconst1
  else Emit.ldc (← pooled (·.put (.double bits))) .double

/-- Loads a constant as a value of kind `k`. -/
def loadConst (k : Kind) (c : Const) : Asm Unit :=
  match k with
  | .int | .byte | .short | .char => loadInt c.toInt32
  | .long => loadLong c.toInt64
  | .float => loadFloat c.toFloatBits
  | .double => loadDouble c.toDoubleBits
  | .object | .void => do Emit.ldc (← pooled (·.putConst c)) .object

/-- An instruction on a register: one byte for the first four registers. -/
def onRegister (family short : Opcode) (k : Kind) (reg : UInt16) : Emit Unit :=
  let base := k.widen.code
  if reg ≤ 3 then Emit.plain (short + base * 4 + reg.toUInt8)
  else Emit.register (family + base) reg

/-- Stores the value on top of the stack into the item. -/
def store (i : Item) : Asm Unit :=
  match i with
  | .var k reg => do
    onRegister .istore .istore0 k reg
    modify fun s => { s with code := s.code.define reg }
  | .static m => do Emit.field .putstatic (← memberIndex m) m.kind
  | .member m _ => do Emit.field .putfield (← memberIndex m) m.kind
  | .indexed k => Emit.plain (.iastore + k.code)
  | i => i.illegal "store"

/-- Duplicates a value of kind `k` on top of the stack. -/
def dupKind (k : Kind) : Emit Unit :=
  match k.width with
  | 0 => pure ()
  | 1 => Emit.plain .dup
  | _ => Emit.plain .dup2

/-- Copies the value of kind `k` on top of the stack below the words that the item
keeps there. -/
def stash (i : Item) (k : Kind) : Asm Unit :=
  let below (base : Opcode) : Asm Unit := Emit.plain (base + 3 * (.ofNat k.width - 1))
  match i with
  | .stack k' => below (if k'.width = 2 then .dupX2 else .dupX1)
  | .member _ _ => below .dupX1
  | .indexed _ => below .dupX2
  | .assign _ | .cond _ => i.illegal "stash"
  | _ => dupKind k

/-- Puts the value of the item on the stack. -/
def load (i : Item) : Asm Item :=
  match i with
  | .stack k => pure (.stack k)
  | .self _ => do
    Emit.plain .aload0
    return .stack .object
  | .var k reg => do
    onRegister .iload .iload0 k reg
    return ofKind k
  | .static m => do
    Emit.field .getstatic (← memberIndex m) m.kind
    return ofKind m.kind
  | .member m _ => do
    Emit.field .getfield (← memberIndex m) m.kind
    return ofKind m.kind
  | .indexed k => do
    Emit.plain (.iaload + k.code)
    return ofKind k
  | .const k c => do
    loadConst k c
    return ofKind k
  | .assign lhs => do
    lhs.stash lhs.kind
    lhs.store
    return ofKind lhs.kind
  | .cond c => do
    c.load
    return .stack .byte
  | .void => i.illegal "load"

/-- Calls the method that the item denotes. -/
def invoke (i : Item) : Asm Item :=
  match i with
  | .static m => do
    Emit.invoke .invokestatic (← memberIndex m) m.argWords m.kind
    return ofKind m.kind
  | .member m nonvirtual => do
    let op : Opcode :=
      if nonvirtual then .invokespecial
      else if m.isInterface then .invokeinterface
      else .invokevirtual
    Emit.invoke op (← memberIndex m) m.argWords m.kind
    return ofKind m.kind
  | _ => i.illegal "invoke"

/-- Duplicates what the item keeps on the stack. -/
def duplicate (i : Item) : Asm Unit :=
  match i with
  | .stack k => Emit.plain (if k.width = 2 then .dup2 else .dup)
  | .member _ _ => Emit.plain .dup
  | .indexed _ => Emit.plain .dup2
  | .assign _ | .cond _ => do dupKind (← i.load).kind
  | _ => pure ()

/-- Discards what the item keeps on the stack. An assignment still happens. -/
def discard (i : Item) : Asm Unit :=
  match i with
  | .stack k => Emit.plain (if k.width = 2 then .pop2 else .pop)
  | .member _ _ => Emit.plain .pop
  | .indexed _ => Emit.plain .pop2
  | .assign lhs => lhs.store
  | .cond c => do
    c.load
    Emit.plain .pop
  | _ => pure ()

/-- A constant converted to kind `target`, where constants of that kind exist. -/
def foldConst (c : Const) (target : Kind) : Option Const :=
  match target with
  | .int => some (.int c.toInt32)
  | .long => some (.long c.toInt64)
  | .float => some (.float c.toFloatBits)
  | .double => some (.double c.toDoubleBits)
  | .byte => some (.int c.toInt32.toInt8.toInt32)
  | .char => some (.int c.toInt32.toUInt32.toUInt16.toUInt32.toInt32)
  | .short => some (.int c.toInt32.toInt16.toInt32)
  | .object | .void => none

/-- Writes the conversion of a value on the stack. -/
def convert (source target : Kind) : Emit Unit := do
  let s := source.widen
  let t := target.widen
  if s ≠ t then
    if !s.isNumeric || !t.isNumeric then throw (.internal (.noConversion source target))
    Emit.plain (.i2l + s.code * 3 + (if s.code < t.code then t.code - 1 else t.code))
  if target ≠ t then Emit.plain (.i2b + (target.code - Kind.byte.code))

/-- Converts the value of the item to kind `target`. -/
def coerce (i : Item) (target : Kind) : Asm Item := do
  if i.kind = target then return i
  let folded : Option Item := match i with
    | .const k c =>
      if target = .int ∧ k.widen = .int then some i
      else (foldConst c target).map (.const target)
    | _ => none
  match folded with
  | some i => return i
  | none =>
    let _ ← i.load
    convert i.kind target
    return ofKind target

/-- The item as a condition; a plain value holds unless it is 0. -/
def toCond (i : Item) : Asm Cond :=
  match i with
  | .cond c => pure c
  | .const _ c => pure (.ofBool (c.toInt32 != 0))
  | _ => do
    let _ ← i.load
    return { op := .ifne }

/-- Adds `delta` to a variable in place. -/
def increment (i : Item) (delta : Int32) : Asm Unit :=
  match i with
  | .var k reg => do
    if k = .int ∧ Int32.between delta (-32768) 32767 then
      Emit.iinc reg delta.toInt16
    else
      let _ ← i.load
      if 0 ≤ delta then
        let _ ← (ofInt delta).load
        Emit.plain .iadd
      else
        let _ ← (ofInt (-delta)).load
        Emit.plain .isub
      let _ ← (Item.stack .int).coerce k
      i.store
  | _ => i.illegal "incr"

end Item

end StackCode
