import StackCode.Ty

/-!
# Kinds of machine values

The machine tells nine kinds of value apart. Their numbering matters: typed
instruction families are laid out so that adding the number of a kind to the
first opcode of a family selects the instruction for that kind.
-/

namespace StackCode

/-- The machine-level classification of a value; `void` also stands for the
upper word of a two-word value on the operand stack. -/
inductive Kind where
  | int
  | long
  | float
  | double
  | object
  | byte
  | char
  | short
  | void
deriving DecidableEq, Repr, Inhabited

namespace Kind

/-- The number of a kind within instruction families. -/
def code : Kind → UInt8
  | int => 0
  | long => 1
  | float => 2
  | double => 3
  | object => 4
  | byte => 5
  | char => 6
  | short => 7
  | void => 8

/-- The kind with a given number; every number past the last names `void`. -/
def ofCode : Nat → Kind
  | 0 => int
  | 1 => long
  | 2 => float
  | 3 => double
  | 4 => object
  | 5 => byte
  | 6 => char
  | 7 => short
  | _ => void

def name : Kind → String
  | int => "int"
  | long => "long"
  | float => "float"
  | double => "double"
  | object => "object"
  | byte => "byte"
  | char => "char"
  | short => "short"
  | void => "void"

/-- The operand-stack words that a value of this kind takes. -/
def width : Kind → Nat
  | long | double => 2
  | void => 0
  | _ => 1

/-- The kind in which arithmetic happens: everything below `int` becomes `int`. -/
def widen : Kind → Kind
  | byte | short | char => int
  | k => k

/-- Whether values of this kind have conversion instructions. -/
def isNumeric : Kind → Bool
  | int | long | float | double => true
  | _ => false

theorem ofCode_code (k : Kind) : ofCode k.code.toNat = k := by
  cases k <;> rfl

end Kind

namespace Ty

/-- The kind of the values of a type; booleans are bytes. -/
def kind : Ty → Kind
  | boolean | byte => .byte
  | short => .short
  | char => .char
  | int => .int
  | long => .long
  | float => .float
  | double => .double
  | void => .void
  | null | cls _ | array _ => .object

/-- The element code that allocates an array of this element type: 0 for
references, 1 for nested arrays, the machine's own number for a primitive. -/
def elementCode : Ty → UInt8
  | boolean => 4
  | char => 5
  | float => 6
  | double => 7
  | byte => 8
  | short => 9
  | int => 10
  | long => 11
  | array _ => 1
  | cls _ | null | void => 0

theorem width_kind (t : Ty) : t.kind.width = t.width := by
  cases t <;> rfl

end Ty

end StackCode
