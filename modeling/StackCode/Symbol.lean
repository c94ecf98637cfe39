import StackCode.Const
import StackCode.Ty
import StackCode.Span

/-!
# Resolved symbols

What identifiers and selections refer to once names have been resolved. Access
flags are the machine's bit set; only the few that shape code have a name here.
-/

namespace StackCode

/-- The access and property bits of a class or member. -/
abbrev Access := UInt32

namespace Access

def publicBit : Access := 0x0001
def privateBit : Access := 0x0002
def staticBit : Access := 0x0008
def interfaceBit : Access := 0x0200
def syntheticBit : Access := 0x1000

/-- Whether every bit of `bits` is set. -/
def has (flags bits : Access) : Bool := flags &&& bits == bits

end Access

/-- The name of constructors. -/
def constructorName : String := "<init>"

/-- The name of the class initializer. -/
def classInitName : String := "<clinit>"

/-- A local variable or parameter. -/
structure LocalVar where
  id : VarId
  name : String
  ty : Ty
  /-- the folded initializer of a variable that never changes -/
  const : Option Const
deriving DecidableEq, Repr, Inhabited

/-- A resolved field. -/
structure FieldSymbol where
  owner : String
  name : String
  ty : Ty
  flags : Access
  const : Option Const
deriving DecidableEq, Repr, Inhabited

/-- A resolved method or constructor. -/
structure MethodSymbol where
  owner : String
  name : String
  ty : MethodTy
  flags : Access
  ownerIsInterface : Bool
deriving DecidableEq, Repr, Inhabited

/-- What an identifier or a selection refers to. -/
inductive Symbol where
  | var (id : VarId)
  | field (f : FieldSymbol)
  | method (m : MethodSymbol)
  /-- the length of an array -/
  | length
  /-- a type name used as a qualifier -/
  | type (t : Ty)
deriving DecidableEq, Repr, Inhabited

end StackCode
