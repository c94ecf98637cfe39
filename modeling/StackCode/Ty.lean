/-!
# Erased types

`Ty` is a type as the machine sees it: primitives, classes by internal name,
arrays, and the type of `null`. A descriptor writes a type into the constant
pool; the descriptor of `null` is that of the root class, since the machine has
no type for it.
-/

namespace StackCode

/-- An erased type. -/
inductive Ty where
  | void
  | boolean
  | byte
  | short
  | char
  | int
  | long
  | float
  | double
  /-- the type of the `null` literal -/
  | null
  /-- a class or interface, by internal name such as `java/lang/String` -/
  | cls (name : String)
  | array (elem : Ty)
deriving DecidableEq, Repr, Inhabited

namespace Ty

def objectName : String := "java/lang/Object"
def stringName : String := "java/lang/String"
def throwableName : String := "java/lang/Throwable"
def builderName : String := "java/lang/StringBuilder"
def className : String := "java/lang/Class"

def object : Ty := cls objectName
def string : Ty := cls stringName
def throwable : Ty := cls throwableName
def builder : Ty := cls builderName

def isPrimitive : Ty → Bool
  | boolean | byte | short | char | int | long | float | double => true
  | _ => false

def isReference : Ty → Bool
  | null | cls _ | array _ => true
  | _ => false

def isVoid : Ty → Bool
  | void => true
  | _ => false

def isString : Ty → Bool
  | cls name => name == stringName
  | _ => false

/-- The types whose values may select a switch case. -/
def isIntLike : Ty → Bool
  | byte | short | char | int => true
  | _ => false

def elem? : Ty → Option Ty
  | array e => some e
  | _ => none

/-- The number of array levels. -/
def dimensions : Ty → Nat
  | array e => e.dimensions + 1
  | _ => 0

/-- The type with `n` array levels around `t`. -/
def arrays (t : Ty) : Nat → Ty
  | 0 => t
  | n + 1 => array (t.arrays n)

/-- The operand-stack words that a value takes. -/
def width : Ty → Nat
  | void => 0
  | long | double => 2
  | _ => 1

/-- The operand-stack words that values of several types take. -/
def totalWidth : List Ty → Nat
  | [] => 0
  | t :: ts => t.width + totalWidth ts

/-- The descriptor of a type, such as `I` or `[Ljava/lang/String;`. -/
def descriptor : Ty → String
  | void => "V"
  | boolean => "Z"
  | byte => "B"
  | short => "S"
  | char => "C"
  | int => "I"
  | long => "J"
  | float => "F"
  | double => "D"
  | null => "L" ++ objectName ++ ";"
  | cls name => "L" ++ name ++ ";"
  | array e => "[" ++ e.descriptor

/-- The name under which a class constant refers to the type: the internal name
of a class, the descriptor of anything else. -/
def constantName : Ty → String
  | cls name => name
  | null => objectName
  | t => t.descriptor

/-- The type as source text writes it. -/
def display : Ty → String
  | void => "void"
  | boolean => "boolean"
  | byte => "byte"
  | short => "short"
  | char => "char"
  | int => "int"
  | long => "long"
  | float => "float"
  | double => "double"
  | null => "null"
  | cls name => name.map fun c => if c = '/' then '.' else c
  | array e => e.display ++ "[]"

/-- The type in which a unary arithmetic operator works. -/
def promote : Ty → Ty
  | byte | short | char | int => int
  | t => t

/-- The type in which a binary arithmetic operator works: the widest numeric
type among the operands, at least `int`. -/
def promote₂ (a b : Ty) : Ty :=
  if a = double ∨ b = double then double
  else if a = float ∨ b = float then float
  else if a = long ∨ b = long then long
  else int

@[simp] theorem dimensions_arrays (t : Ty) (n : Nat) :
    (t.arrays n).dimensions = t.dimensions + n := by
  induction n with
  | zero => rfl
  | succ n ih => simp [arrays, dimensions, ih, Nat.add_assoc]

end Ty

/-- An erased method signature. -/
structure MethodTy where
  params : List Ty
  ret : Ty
deriving DecidableEq, Repr, Inhabited

namespace MethodTy

def descriptor (m : MethodTy) : String :=
  "(" ++ String.join (m.params.map Ty.descriptor) ++ ")" ++ m.ret.descriptor

/-- The operand-stack words that the arguments take. -/
def paramWords (m : MethodTy) : Nat :=
  Ty.totalWidth m.params

end MethodTy

end StackCode
