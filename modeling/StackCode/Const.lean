import StackCode.Number.Format

/-!
# Constants

A `Const` is a folded compile-time value. Floating-point values are bit
patterns, so that signed zeros and the payloads of not-a-numbers stay apart.
Booleans, characters and the small integers fold to `int`.
-/

namespace StackCode

/-- A folded compile-time value. -/
inductive Const where
  | int (value : Int32)
  | long (value : Int64)
  /-- a 32-bit floating-point number, by bit pattern -/
  | float (bits : UInt32)
  /-- a 64-bit floating-point number, by bit pattern -/
  | double (bits : UInt64)
  | str (text : String)
deriving DecidableEq, Repr, Inhabited

namespace Const

/-- The value as a 32-bit integer: long values keep their low half, floating
values are cut toward zero and clamped, text is 0. -/
def toInt32 : Const → Int32
  | int v => v
  | long v => v.toInt32
  | float b => .ofInt (Format.single.toInt (-0x80000000) 0x7fffffff b.toNat)
  | double b => .ofInt (Format.double.toInt (-0x80000000) 0x7fffffff b.toNat)
  | str _ => 0

/-- The value as a 64-bit integer. -/
def toInt64 : Const → Int64
  | int v => v.toInt64
  | long v => v
  | float b => .ofInt (Format.single.toInt (-0x8000000000000000) 0x7fffffffffffffff b.toNat)
  | double b => .ofInt (Format.double.toInt (-0x8000000000000000) 0x7fffffffffffffff b.toNat)
  | str _ => 0

/-- The bit pattern of the value in the 32-bit format. -/
def toFloatBits : Const → UInt32
  | int v => .ofNat (Format.single.ofInt v.toInt)
  | long v => .ofNat (Format.single.ofInt v.toInt)
  | float b => b
  | double b => .ofNat (Format.double.convert Format.single b.toNat)
  | str _ => 0

/-- The bit pattern of the value in the 64-bit format. -/
def toDoubleBits : Const → UInt64
  | int v => .ofNat (Format.double.ofInt v.toInt)
  | long v => .ofNat (Format.double.ofInt v.toInt)
  | float b => .ofNat (Format.single.convert Format.double b.toNat)
  | double b => b
  | str _ => 0

def text? : Const → Option String
  | str s => some s
  | _ => none

end Const

/-- The number of UTF-16 code units in a text. -/
def utf16Length (s : String) : Nat :=
  s.foldl (fun n c => n + if c.val < 0x10000 then 1 else 2) 0

end StackCode
