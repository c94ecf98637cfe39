import StackCode.Error
import StackCode.Symbol

/-!
# Questions about the class world

Names are resolved before code is generated, but the generator makes a few calls
of its own and needs to know about subtypes and access. `Resolver` is what it
asks; `Hierarchy` answers from declared superclasses and interfaces, and knows
the library methods that the generator calls.
-/

namespace StackCode

/-- What the generator asks about classes. -/
structure Resolver where
  /-- the method that a call made by the generator itself refers to -/
  method : (site : Ty) → (name : String) → (args : List Ty) → Except Error MethodSymbol
  /-- whether code in the class `source` may name the class `owner` -/
  accessible : (source owner : String) → Bool
  subtype : Ty → Ty → Bool
  isInterface : String → Bool

/-- Declared classes. Of two superclasses declared for one class the first in the
list counts; interfaces stand in the order of their declaration. -/
structure Hierarchy where
  superclasses : List (String × String) := []
  interfaces : List (String × String) := []
  /-- the classes that no other class may name -/
  inaccessible : List String := []
  methods : List MethodSymbol := []
deriving Inhabited

namespace Hierarchy

/-- Declares a superclass, in place of one declared before. -/
def addSuperclass (h : Hierarchy) (cls super : String) : Hierarchy :=
  { h with superclasses := (cls, super) :: h.superclasses }

/-- Declares one more interface of a class. -/
def addInterface (h : Hierarchy) (cls iface : String) : Hierarchy :=
  { h with interfaces := h.interfaces ++ [(cls, iface)] }

def addInaccessible (h : Hierarchy) (cls : String) : Hierarchy :=
  { h with inaccessible := cls :: h.inaccessible }

def addMethod (h : Hierarchy) (m : MethodSymbol) : Hierarchy :=
  { h with methods := h.methods ++ [m] }

/-- The direct supertypes of a class: its interfaces, then its superclass. -/
def parents (h : Hierarchy) (cls : String) : List String :=
  (h.interfaces.filter (·.1 == cls)).map (·.2) ++ (h.superclasses.lookup cls).toList

/-- Whether `ancestor` is reached from `cls` in at most `steps` declarations, or
is the root of all classes. -/
def reaches (h : Hierarchy) (ancestor : String) : (steps : Nat) → (cls : String) → Bool
  | 0, cls => cls == ancestor || ancestor == Ty.objectName
  | n + 1, cls =>
    cls == ancestor || ancestor == Ty.objectName || (h.parents cls).any (h.reaches ancestor n)

/-- Whether `cls` is `ancestor` or below it. No path without a cycle uses more
declarations than there are. -/
def isSubclass (h : Hierarchy) (cls ancestor : String) : Bool :=
  h.reaches ancestor (h.superclasses.length + h.interfaces.length) cls

/-- Whether `t` is a subtype of `s`. -/
def isSubtype (h : Hierarchy) : (t s : Ty) → Bool
  | .null, s => s.isReference
  | .cls a, .cls b => h.isSubclass a b
  | .array _, .cls b =>
    b == Ty.objectName || b == "java/lang/Cloneable" || b == "java/io/Serializable"
  | .array a, .array b => a == b || (a.isReference && h.isSubtype a b)
  | t, s => t == s

def isAccessible (h : Hierarchy) (source owner : String) : Bool :=
  source == owner || !h.inaccessible.contains owner

def isInterface (h : Hierarchy) (cls : String) : Bool := h.interfaces.any (·.2 == cls)

/-- The parameter of the library's append method for an argument type. -/
def appendParam : Ty → Option Ty
  | .byte | .short | .int => some .int
  | .boolean => some .boolean
  | .char => some .char
  | .long => some .long
  | .float => some .float
  | .double => some .double
  | .cls name => some (if name = Ty.stringName then .string else .object)
  | .array .char => some (.array .char)
  | .null | .array _ => some .object
  | .void => none

/-- The signature of a library method that the generator calls by itself. -/
def librarySignature (owner name : String) (args : List Ty) : Option MethodTy :=
  if owner = Ty.builderName then
    match args with
    | [] =>
      if name = constructorName then some ⟨[], .void⟩
      else if name = "toString" then some ⟨[], .string⟩
      else none
    | [arg] =>
      if name = constructorName then
        if arg.isString then some ⟨[.string], .void⟩ else none
      else if name = "append" then (appendParam arg).map fun p => ⟨[p], .builder⟩
      else none
    | _ => none
  else if owner = Ty.objectName ∧ name = "getClass" ∧ args = [] then
    some ⟨[], .cls Ty.className⟩
  else none

/-- A library method that the generator calls by itself. -/
def libraryMethod (site : Ty) (name : String) (args : List Ty) : Option MethodSymbol :=
  match site with
  | .cls owner => (librarySignature owner name args).map fun ty =>
      ⟨owner, name, ty, Access.publicBit, false⟩
  | _ => none

/-- Whether a declared method takes the given arguments. -/
def accepts (h : Hierarchy) (m : MethodSymbol) (args : List Ty) : Bool :=
  m.ty.params.length == args.length && (m.ty.params.zip args).all fun (p, a) => h.isSubtype a p

/-- The method for a call that the generator makes by itself: a declared one, else
one of the library. -/
def resolve (h : Hierarchy) (site : Ty) (name : String) (args : List Ty) :
    Except Error MethodSymbol :=
  let owner := site.constantName
  let declared := h.methods.find? fun m => m.owner == owner && m.name == name && h.accepts m args
  match declared.or (libraryMethod site name args) with
  | some m => .ok m
  | none => .error (.unresolvedMethod owner name)

/-- The answers of a hierarchy. -/
def resolver (h : Hierarchy) : Resolver where
  method := h.resolve
  accessible := h.isAccessible
  subtype := h.isSubtype
  isInterface := h.isInterface

end Hierarchy

end StackCode
