import StackCode.Cond
import StackCode.Symbol

/-!
# Items

An `Item` is a value or a place for one that no instruction has been chosen for
yet. What is done with it (loading, storing, calling, testing) decides what is
written, so that reading a variable for a comparison and incrementing it in
place can begin with the same item.
-/

namespace StackCode

/-- A field or method as code refers to it. -/
structure MemberRef where
  owner : String
  name : String
  descriptor : String
  isMethod : Bool
  isInterface : Bool
  /-- the argument words of a call, without the receiver -/
  argWords : Nat
  /-- the kind of the field's value or of the method's result -/
  kind : Kind
deriving DecidableEq, Repr, Inhabited

namespace MemberRef

def ofField (f : FieldSymbol) : MemberRef :=
  { owner := f.owner, name := f.name, descriptor := f.ty.descriptor, isMethod := false
    isInterface := false, argWords := 0, kind := f.ty.kind }

def ofMethod (m : MethodSymbol) : MemberRef :=
  { owner := m.owner, name := m.name, descriptor := m.ty.descriptor, isMethod := true
    isInterface := m.ownerIsInterface, argWords := m.ty.paramWords, kind := m.ty.ret.kind }

/-- The same member through another class. -/
def withOwner (m : MemberRef) (owner : String) (isInterface : Bool) : MemberRef :=
  { m with owner, isInterface := if m.isMethod then isInterface else m.isInterface }

end MemberRef

/-- A value or a place for one. -/
inductive Item where
  /-- no value -/
  | void
  /-- a value on the operand stack -/
  | stack (kind : Kind)
  /-- `this` or `super` -/
  | self (isSuper : Bool)
  | var (kind : Kind) (reg : UInt16)
  | static (member : MemberRef)
  /-- a member of the object on the stack -/
  | member (member : MemberRef) (nonvirtual : Bool)
  /-- an element of the array on the stack, at the index above it -/
  | indexed (kind : Kind)
  | const (kind : Kind) (value : Const)
  /-- an assignment to an item whose value nobody has asked for yet -/
  | assign (lhs : Item)
  | cond (c : Cond)
deriving DecidableEq, Repr, Inhabited

namespace Item

/-- A value of kind `k` on the stack; no value if there is none to be. -/
def ofKind (k : Kind) : Item := if k = .void then .void else .stack k

def ofTy (t : Ty) : Item := ofKind t.kind

def ofInt (v : Int32) : Item := .const .int (.int v)

def kind : Item → Kind
  | void => .void
  | self _ => .object
  | cond _ => .byte
  | assign lhs => lhs.kind
  | static m | member m _ => m.kind
  | stack k | var k _ | indexed k | const k _ => k

/-- The stack words that the item keeps below a value to be stored into it. -/
def width : Item → Nat
  | stack k => k.width
  | member _ _ => 1
  | indexed _ => 2
  | assign lhs => lhs.width + lhs.kind.width
  | _ => 0

def isVar : Item → Bool
  | var _ _ => true
  | _ => false

/-- The name of an item in messages. -/
def name : Item → String
  | void => "void"
  | stack _ => "stack"
  | self false => "this"
  | self true => "super"
  | var _ _ => "local"
  | static _ => "static"
  | member _ _ => "member"
  | indexed _ => "indexed"
  | const _ _ => "immediate"
  | assign _ => "assign"
  | cond _ => "cond"

end Item

end StackCode
