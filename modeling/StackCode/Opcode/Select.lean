import StackCode.Error
import StackCode.Tree.Operator

/-!
# Choosing instructions for operators

An operator on a given operand type maps to one opcode. Comparisons of long and
floating-point operands need two: a compare instruction, which leaves an `int`,
and a branch on that. Floating comparisons choose the compare instruction whose
answer for a not-a-number makes the branch fail.
-/

namespace StackCode

/-- The instructions for an operator: at most one compare, then the operation or
branch itself. -/
structure Selection where
  compare : Option Opcode
  op : Opcode
deriving DecidableEq, Repr

/-- A selection as one number: the compare opcode above nine bits, the other
opcode below. -/
def Selection.code (s : Selection) : Nat :=
  (s.compare.map fun c => c.toNat * 512).getD 0 + s.op.toNat

/-- The arithmetic families of the instruction set. -/
inductive Family where
  | int
  | long
  | float
  | double
  | reference
deriving DecidableEq, Repr

/-- The family that works on a type. -/
def Ty.family? : Ty → Option Family
  | boolean | byte | short | char | int => some .int
  | long => some .long
  | float => some .float
  | double => some .double
  | null | cls _ | array _ => some .reference
  | void => none

namespace Family

/-- A member of an arithmetic family whose `int` instruction is `base`. -/
def arith (base : Opcode) : Family → Option Opcode
  | int => some base
  | long => some (base + 1)
  | float => some (base + 2)
  | double => some (base + 3)
  | reference => none

/-- A member of a bitwise family whose `int` instruction is `base`. -/
def bitwise (base : Opcode) : Family → Option Opcode
  | int => some base
  | long => some (base + 1)
  | _ => none

/-- A comparison: the `int` branch, the branch on a compare result, the compare
instructions for floating operands, and the branch on references if there is
one. -/
def comparison (intOp branch floatCmp doubleCmp : Opcode) (refOp : Option Opcode) :
    Family → Option Selection
  | int => some ⟨none, intOp⟩
  | long => some ⟨some Opcode.lcmp, branch⟩
  | float => some ⟨some floatCmp, branch⟩
  | double => some ⟨some doubleCmp, branch⟩
  | reference => refOp.map fun op => ⟨none, op⟩

end Family

open Opcode in
/-- The instructions for a binary operator carried out in a family. -/
def BinaryOp.selectIn (op : BinaryOp) (f : Family) : Option Selection :=
  let single (o : Option Opcode) : Option Selection := o.map fun op => ⟨none, op⟩
  match op with
  | .plus => single (f.arith iadd)
  | .minus => single (f.arith isub)
  | .mul => single (f.arith imul)
  | .div => single (f.arith idiv)
  | .mod => single (f.arith irem)
  | .bitAnd => single (f.bitwise iand)
  | .bitOr => single (f.bitwise ior)
  | .bitXor => single (f.bitwise ixor)
  | .shl => single (f.bitwise ishl)
  | .shr => single (f.bitwise ishr)
  | .ushr => single (f.bitwise iushr)
  | .eq => f.comparison ifIcmpeq ifeq fcmpl dcmpl (some ifAcmpeq)
  | .ne => f.comparison ifIcmpne ifne fcmpl dcmpl (some ifAcmpne)
  | .lt => f.comparison ifIcmplt iflt fcmpg dcmpg none
  | .gt => f.comparison ifIcmpgt ifgt fcmpl dcmpl none
  | .le => f.comparison ifIcmple ifle fcmpg dcmpg none
  | .ge => f.comparison ifIcmpge ifge fcmpl dcmpl none
  | .and | .or => none

/-- The instructions for a binary operator carried out in a type. -/
def BinaryOp.select (op : BinaryOp) (operand : Ty) : Except Error Selection :=
  match operand.family?.bind op.selectIn with
  | some s => .ok s
  | none => .error (.internal (.noInstruction op.name operand))

open Opcode in
/-- The instruction for a unary operator carried out in a family. -/
def UnaryOp.selectIn (op : UnaryOp) (f : Family) : Option Opcode :=
  match op with
  | .neg => f.arith ineg
  | .compl => f.bitwise ixor
  | .preInc | .postInc => f.arith iadd
  | .preDec | .postDec => f.arith isub
  | .pos | .not | .nullCheck => none

/-- The instruction for a unary operator carried out in a type. -/
def UnaryOp.select (op : UnaryOp) (operand : Ty) : Except Error Opcode :=
  match operand.family?.bind op.selectIn with
  | some o => .ok o
  | none => .error (.internal (.noInstruction op.name operand))

end StackCode
