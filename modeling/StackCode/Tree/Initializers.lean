import StackCode.Tree.Build

/-!
# Where initializers run

A class may initialize its fields where it declares them and in blocks of its
own. The machine knows neither. What initializes the class becomes the body of a
static method, and what initializes an instance is put into every constructor
that calls one of the superclass, right behind that call. Synthetic stores that
keep an outer instance stay where they are, ahead of it.
-/

namespace StackCode

namespace FieldDecl

/-- The assignment that gives a field its initial value. -/
def assignment (f : FieldDecl) (init : Expr) : Stmt :=
  let place : Expr := .ident (Expr.plainInfo f.span f.sym.ty) (.field f.sym)
  .exec ⟨NodeId.synthetic, f.span⟩ (.assign (Expr.plainInfo init.span f.sym.ty) place init)

def isStatic (f : FieldDecl) : Bool := f.sym.flags.has Access.staticBit

end FieldDecl

namespace Member

/-- What a member adds to the initialization of the class. A constant field has
its value without any code. -/
def classInit? : Member → Option Stmt
  | .initBlock _ true body => some body
  | .field f =>
    match f.init with
    | some init => if f.isStatic && f.sym.const.isNone then some (f.assignment init) else none
    | none => none
  | _ => none

/-- What a member adds to the initialization of an instance. -/
def instanceInit? : Member → Option Stmt
  | .initBlock _ false body => some body
  | .field f =>
    match f.init with
    | some init => if f.isStatic then none else some (f.assignment init)
    | none => none
  | _ => none

end Member

namespace ClassDecl

/-- The initialization of the class, in the order of its members. -/
def classInit (c : ClassDecl) : List Stmt := c.members.filterMap Member.classInit?

/-- The initialization of an instance, in the order of the members. -/
def instanceInit (c : ClassDecl) : List Stmt := c.members.filterMap Member.instanceInit?

end ClassDecl

/-- The static method that runs the initialization of a class. -/
def MethodDecl.ofClassInit (first : Stmt) (rest : List Stmt) : MethodDecl :=
  let stats := first :: rest
  let span := first.span.hull ((stats.getLast?.getD first).span)
  { span, name := classInitName, flags := Access.staticBit, ty := ⟨[], .void⟩, params := []
    body := some (.block ⟨NodeId.synthetic, span⟩ stats) }

namespace Stmt

/-- How many statements at the head of a constructor come before the
initialization of the instance: synthetic stores, the call, and more synthetic
stores. -/
def preambleLength (stats : List Stmt) : Nat :=
  let stores := (stats.takeWhile isSyntheticStore).length
  stores + 1 + ((stats.drop (stores + 1)).takeWhile isSyntheticStore).length

/-- Puts the initialization of an instance behind the head of a constructor. -/
def insertInit (init stats : List Stmt) : List Stmt :=
  let n := preambleLength stats
  stats.take n ++ init ++ stats.drop n

end Stmt

/-- The method with the initialization of an instance, if it has to run it. -/
def MethodDecl.withInit (init : List Stmt) (m : MethodDecl) : MethodDecl :=
  match m.isInitial, m.body with
  | true, some (.block i (s :: ss)) =>
    { m with body := some (.block i (Stmt.insertInit init (s :: ss))) }
  | _, _ => m

/-- The methods of a class with all initialization moved into them. -/
def ClassDecl.completeMethods (c : ClassDecl) : List MethodDecl :=
  let methods := c.methods ++ match c.classInit with
    | [] => []
    | s :: ss => [.ofClassInit s ss]
  match c.instanceInit with
  | [] => methods
  | init => methods.map (·.withInit init)

end StackCode
