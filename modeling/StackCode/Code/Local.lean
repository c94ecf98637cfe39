import StackCode.Code.Resolve

/-!
# Registers and the variables in them

Registers are taken one after the other and given back in blocks, so `nextReg`
is all that is needed to know which are free. If the table of local variables is
kept, a named variable also has a slot, which turns into a row of the table when
its register is given back.
-/

namespace StackCode

namespace Code

/-- Takes a register for a value of kind `k`, at least one word wide. -/
def newReg (c : Code) (k : Kind) : UInt16 × Code :=
  let next := c.nextReg + max k.width 1
  (.ofNat c.nextReg, { c with nextReg := next, maxLocals := max c.maxLocals next })

/-- Fills an array up with absent slots until it has `n` of them. -/
def growSlots (slots : Array (Option VarSlot)) (n : Nat) : Array (Option VarSlot) :=
  slots ++ Array.replicate (n - slots.size) none

/-- Takes a register for a named variable. -/
def newVar (c : Code) (name : String) (ty : Ty) : UInt16 × Code :=
  let (reg, c) := c.newReg ty.kind
  if c.keepVars then
    let slot : VarSlot := ⟨name, ty.descriptor, none⟩
    let i := reg.toNat
    (reg, { c with slots := (growSlots c.slots (i + 1)).setIfInBounds i (some slot) })
  else (reg, c)

/-- Says that the variable in `reg` has a value from here on. -/
def define (c : Code) (reg : UInt16) : Code :=
  let pc := c.pc
  let start (slot : VarSlot) : VarSlot := { slot with start := some (slot.start.getD pc) }
  { c with slots := c.slots.modify reg.toNat (·.map start) }

/-- Empties the slot of a register. -/
def takeSlot (c : Code) (reg : Nat) : Option VarSlot × Code :=
  match c.slots[reg]? with
  | some (some slot) => (some slot, { c with slots := c.slots.setIfInBounds reg none })
  | _ => (none, c)

end Code

namespace Emit

def newReg (k : Kind) : Emit UInt16 := modifyGet (·.newReg k)

def newVar (name : String) (ty : Ty) : Emit UInt16 := modifyGet (·.newVar name ty)

/-- Ends the life of the variable in a register: if it ever had a value, the code
since then is entered into the table. -/
def endVar (reg : Nat) : Emit Unit := do
  match ← modifyGet (·.takeSlot reg) with
  | some ⟨name, descriptor, some start⟩ =>
    let length := (← curPc) - start
    if 0 < length && length < Limit.max16 && start ≤ Limit.max16 then
      modify fun c => { c with vars := c.vars.push ⟨start, length, name, descriptor, reg⟩ }
  | _ => pure ()

/-- Ends the variables in `n` registers from `reg` on. -/
def endVars (reg : Nat) : Nat → Emit Unit
  | 0 => pure ()
  | n + 1 => do
    endVar reg
    endVars (reg + 1) n

/-- Gives back every register from `first` on. Only registers with a slot can hold
a variable that ends here. -/
def endScopes (first : Nat) : Emit Unit := do
  let c ← get
  let last := min c.nextReg c.slots.size
  modify fun c => { c with nextReg := first }
  endVars first (last - first)

end Emit

end StackCode
