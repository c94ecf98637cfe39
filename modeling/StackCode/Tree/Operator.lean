/-!
# Source operators

The unary and binary operators of expressions, with the names that messages
give them.
-/

namespace StackCode

/-- A unary operator. -/
inductive UnaryOp where
  | pos
  | neg
  | compl
  | not
  | preInc
  | preDec
  | postInc
  | postDec
  /-- evaluates its operand and fails on `null` -/
  | nullCheck
deriving DecidableEq, Repr, Inhabited

/-- A binary operator. -/
inductive BinaryOp where
  | or
  | and
  | bitOr
  | bitXor
  | bitAnd
  | eq
  | ne
  | lt
  | gt
  | le
  | ge
  | shl
  | shr
  | ushr
  | plus
  | minus
  | mul
  | div
  | mod
deriving DecidableEq, Repr, Inhabited

def UnaryOp.name : UnaryOp → String
  | pos => "Pos"
  | neg => "Neg"
  | compl => "Compl"
  | not => "Not"
  | preInc => "PreInc"
  | preDec => "PreDec"
  | postInc => "PostInc"
  | postDec => "PostDec"
  | nullCheck => "NullCheck"

namespace BinaryOp

def name : BinaryOp → String
  | or => "Or"
  | and => "And"
  | bitOr => "BitOr"
  | bitXor => "BitXor"
  | bitAnd => "BitAnd"
  | eq => "Eq"
  | ne => "Ne"
  | lt => "Lt"
  | gt => "Gt"
  | le => "Le"
  | ge => "Ge"
  | shl => "Shl"
  | shr => "Shr"
  | ushr => "Ushr"
  | plus => "Plus"
  | minus => "Minus"
  | mul => "Mul"
  | div => "Div"
  | mod => "Mod"

def isComparison : BinaryOp → Bool
  | eq | ne | lt | gt | le | ge => true
  | _ => false

def isShift : BinaryOp → Bool
  | shl | shr | ushr => true
  | _ => false

end BinaryOp

end StackCode
