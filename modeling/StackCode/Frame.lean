import StackCode.Error

/-!
# Machine states

A `Frame` is what is known of the machine at a point of the code: one kind per
word of the operand stack, and the registers of the monitors held. A value of
two words shows as its kind with a `void` word above it. Two frames are
compatible if control may join from either: same stack depth, same monitors in
the same order.
-/

namespace StackCode

/-- The machine state at a point of the code. -/
structure Frame where
  /-- the kinds of the stack words, bottom first -/
  stack : Array Kind := #[]
  /-- the registers of the monitors held, latest first -/
  locks : List UInt16 := []
deriving DecidableEq, Repr, Inhabited

namespace Frame

/-- The number of words on the operand stack. -/
def depth (f : Frame) : Nat := f.stack.size

/-- The monitors in the order they were taken. -/
def heldLocks (f : Frame) : List UInt16 := f.locks.reverse

/-- Pushes a value; of two words, the upper one is `void`. -/
def push (f : Frame) (k : Kind) : Frame :=
  match k.width with
  | 0 => f
  | 1 => { f with stack := f.stack.push k }
  | _ => { f with stack := (f.stack.push k).push .void }

/-- Discards words. -/
def drop (f : Frame) (words : Nat) : Frame :=
  { f with stack := f.stack.shrink (f.stack.size - words) }

/-- The kind of the value on top. -/
def top? (f : Frame) : Option Kind :=
  match f.stack.back? with
  | some .void => if 2 ≤ f.stack.size then f.stack[f.stack.size - 2]? else some .void
  | k => k

/-- Copies the top `words` words below the `under` words beneath them. -/
def dup (f : Frame) (words under : Nat) : Frame :=
  let n := f.stack.size
  let copy := f.stack.extract (n - words) n
  let beneath := f.stack.extract (n - words - under) (n - words)
  { f with stack := f.stack.shrink (n - words - under) ++ copy ++ beneath ++ copy }

/-- Exchanges the two top words. -/
def swap (f : Frame) : Frame :=
  let n := f.stack.size
  { f with stack := f.stack.swapIfInBounds (n - 1) (n - 2) }

/-- Gives the value on top another kind of the same width, as when the two arms
of a conditional join. -/
def retype (f : Frame) (k : Kind) : Frame :=
  match f.top? with
  | none => f
  | some top =>
    if top.width = k.width then
      { f with stack := f.stack.setIfInBounds (f.stack.size - top.width) k }
    else f

/-- Takes a monitor. -/
def lock (f : Frame) (reg : UInt16) : Frame := { f with locks := reg :: f.locks }

/-- Gives back the monitor in `reg`, the latest one taken there. -/
def unlock (f : Frame) (reg : UInt16) : Except Error Frame :=
  if reg ∈ f.locks then .ok { f with locks := f.locks.erase reg }
  else .error (.internal (.monitorNotHeld reg))

/-- Whether control may join from two states. -/
def compatible (f g : Frame) : Bool := f.depth == g.depth && f.locks == g.locks

/-- The state after an instruction whose words are there. -/
def apply (f : Frame) : Effect → Frame
  | .pop n | .leave n => f.drop n
  | .trade n k => (f.drop n).push k
  | .dup w u => f.dup w u
  | .swap => f.swap

theorem compatible_iff {f g : Frame} :
    f.compatible g = true ↔ f.depth = g.depth ∧ f.locks = g.locks := by
  simp [compatible]

@[simp] theorem compatible_refl (f : Frame) : f.compatible f = true := by
  simp [compatible_iff]

theorem compatible_comm (f g : Frame) : f.compatible g = g.compatible f := by
  simp [compatible, Bool.beq_comm]

@[simp] theorem depth_push (f : Frame) (k : Kind) : (f.push k).depth = f.depth + k.width := by
  cases k <;> simp [push, depth, Kind.width]

@[simp] theorem depth_drop (f : Frame) (n : Nat) : (f.drop n).depth = f.depth - n := by
  simp [drop, depth]

end Frame

/-- The complaint about an instruction whose words are missing. -/
def Effect.underflow (depth : Nat) : Effect → Error
  | .pop n | .leave n | .trade n _ => .internal (.stackUnderflow n depth)
  | .dup _ _ => .internal .dupUnderflow
  | .swap => .internal .swapUnderflow

end StackCode
