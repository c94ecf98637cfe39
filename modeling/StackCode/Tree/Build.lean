import StackCode.Tree.Basic

/-!
# Building attributed trees

Constructors of expressions that fill in the erased types. The type of an
operation follows from its operands, a name takes over the constant of what it
refers to, and parentheses take over everything from what they enclose.
-/

namespace StackCode

namespace Expr

/-- Attributes of a node that is no constant. -/
def plainInfo (span : Span) (ty : Ty) : ExprInfo := ⟨span, ty, none⟩

/-- A literal of type `ty`. -/
def ofConst (span : Span) (ty : Ty) (c : Const) : Expr :=
  .literal ⟨span, ty, some c⟩

def ofInt (span : Span) (v : Int32) : Expr := ofConst span .int (.int v)

def ofBool (span : Span) (v : Bool) : Expr := ofConst span .boolean (.int (if v then 1 else 0))

def ofString (span : Span) (s : String) : Expr := ofConst span .string (.str s)

/-- A literal of the type that the constant has by itself. -/
def ofValue (span : Span) (c : Const) : Expr :=
  let ty : Ty := match c with
    | .int _ => .int
    | .long _ => .long
    | .float _ => .float
    | .double _ => .double
    | .str _ => .string
  ofConst span ty c

def nullLiteral (span : Span) : Expr := .literal (plainInfo span .null)

/-- A use of a local variable. -/
def ofVar (span : Span) (v : LocalVar) : Expr :=
  .ident ⟨span, v.ty, v.const⟩ (.var v.id)

/-- A field of the class at hand, without a qualifier. -/
def ofField (span : Span) (f : FieldSymbol) : Expr :=
  .ident ⟨span, f.ty, f.const⟩ (.field f)

def selectField (span : Span) (target : Expr) (f : FieldSymbol) : Expr :=
  .select ⟨span, f.ty, f.const⟩ target (.field f)

/-- A type name used as a qualifier. -/
def typeName (span : Span) (t : Ty) : Expr :=
  .ident (plainInfo span t) (.type t)

def selfOf (span : Span) (cls : String) (isSuper : Bool) : Expr :=
  .selfRef (plainInfo span (.cls cls)) isSuper none

def lengthOf (span : Span) (array : Expr) : Expr :=
  .select (plainInfo span .int) array .length

def classLiteral (span : Span) (t : Ty) : Expr :=
  .classLit (plainInfo span (.cls Ty.className)) t

/-- A call without a qualifier: a static method, or one of `this`. -/
def call (span : Span) (m : MethodSymbol) (args : List Expr) : Expr :=
  .apply (plainInfo span m.ty.ret) (.ident (plainInfo span .void) (.method m)) args

def callOn (span : Span) (target : Expr) (m : MethodSymbol) (args : List Expr) : Expr :=
  .apply (plainInfo span m.ty.ret) (.select (plainInfo span .void) target (.method m)) args

/-- A call of another constructor at the head of a constructor. -/
def constructorCall (span : Span) (isSuper : Bool) (m : MethodSymbol) (args : List Expr) : Expr :=
  .apply (plainInfo span .void) (.selfRef (plainInfo span .void) isSuper (some m)) args

def construct (span : Span) (m : MethodSymbol) (args : List Expr) : Expr :=
  .newClass (plainInfo span (.cls m.owner)) m args

/-- An array allocation with one level per length and `extra` levels of unknown
length below them. -/
def allocate (span : Span) (elem : Ty) (dims : List Expr) (extra : Nat) : Expr :=
  .newArray (plainInfo span (elem.arrays (dims.length + extra))) dims

def arrayOf (span : Span) (elem : Ty) (elems : List Expr) : Expr :=
  .arrayInit (plainInfo span (.array elem)) elems

def parenthesize (span : Span) (e : Expr) : Expr :=
  .parens ⟨span, e.ty, e.const⟩ e

def assignTo (span : Span) (lhs rhs : Expr) : Expr :=
  .assign (plainInfo span lhs.ty) lhs rhs

def assignWith (span : Span) (op : BinaryOp) (lhs rhs : Expr) : Expr :=
  let operand :=
    if op = .plus ∧ lhs.ty.isString then Ty.string
    else if op.isShift then lhs.ty.promote
    else lhs.ty.promote₂ rhs.ty
  .assignOp (plainInfo span lhs.ty) op operand lhs rhs

def applyUnary (span : Span) (op : UnaryOp) (arg : Expr) : Expr :=
  let operand : Ty := match op with
    | .not => .boolean
    | .preInc | .preDec | .postInc | .postDec | .nullCheck => arg.ty
    | .pos | .neg | .compl => arg.ty.promote
  .unary (plainInfo span operand) op operand arg

/-- The type in which a binary operator is carried out on operands of types `a`
and `b`, and the type of its result. -/
def binaryTypes (op : BinaryOp) (a b : Ty) : Ty × Ty :=
  match op with
  | .and | .or => (.boolean, .boolean)
  | .eq | .ne =>
    if a.isReference || b.isReference then (.object, .boolean)
    else if a = .boolean then (.boolean, .boolean)
    else (a.promote₂ b, .boolean)
  | .lt | .gt | .le | .ge => (a.promote₂ b, .boolean)
  | .shl | .shr | .ushr => (a.promote, a.promote)
  | .bitAnd | .bitOr | .bitXor =>
    if a = .boolean then (.boolean, .boolean) else (a.promote₂ b, a.promote₂ b)
  | .plus =>
    if a.isString || b.isString then (.string, .string) else (a.promote₂ b, a.promote₂ b)
  | .minus | .mul | .div | .mod => (a.promote₂ b, a.promote₂ b)

def applyBinary (span : Span) (op : BinaryOp) (lhs rhs : Expr) : Expr :=
  let (operand, result) := binaryTypes op lhs.ty rhs.ty
  .binary (plainInfo span result) op operand lhs rhs

def castTo (span : Span) (target : Ty) (e : Expr) : Expr :=
  .cast (plainInfo span target) target e

def instanceOf (span : Span) (e : Expr) (target : Ty) : Expr :=
  .typeTest (plainInfo span .boolean) e target

def elementAt (span : Span) (array idx : Expr) : Expr :=
  .index (plainInfo span (array.ty.elem?.getD .object)) array idx

def conditional (span : Span) (test onTrue onFalse : Expr) : Expr :=
  let ty := if onTrue.ty = .null then onFalse.ty else onTrue.ty
  .cond (plainInfo span ty) test onTrue onFalse

def letExpr (span : Span) (stats : List Stmt) (value : Expr) : Expr :=
  .letIn (plainInfo span value.ty) stats value

end Expr

/-- A method whose signature is read off its parameters. -/
def MethodDecl.ofParams (span : Span) (name : String) (flags : Access) (params : List LocalVar)
    (ret : Ty) (body : Option Stmt) : MethodDecl :=
  ⟨span, name, flags, ⟨params.map LocalVar.ty, ret⟩, params, body⟩

end StackCode
