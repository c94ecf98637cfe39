import StackCode.Span
import StackCode.Symbol
import StackCode.Tree.Operator

/-!
# Attributed trees

The trees that code is generated from. They arrive attributed: an expression
carries its erased type and, if it is a compile-time constant, its value; a name
carries its symbol; a jump names the statement it leaves by identity. Three
kinds of statement (`foreach`, `assert`, `localClass`) are part of the trees only
so that they can be refused.

Expressions and statements are mutually inductive, because a `letIn` expression
runs statements before it yields its value.
-/

namespace StackCode

/-- What every expression carries: where it stands, its erased type, and its
value if it is a compile-time constant. -/
structure ExprInfo where
  span : Span
  ty : Ty
  const : Option Const
deriving DecidableEq, Repr, Inhabited

/-- What every statement carries: its identity and where it stands. -/
structure StmtInfo where
  id : NodeId
  span : Span
deriving DecidableEq, Repr, Inhabited

mutual

/-- An attributed expression. -/
inductive Expr where
  /-- a literal: its value is the constant it carries, or it is `null` -/
  | literal (info : ExprInfo)
  | ident (info : ExprInfo) (sym : Symbol)
  /-- `this` or `super`; with a constructor, the callee of a constructor call -/
  | selfRef (info : ExprInfo) (isSuper : Bool) (ctor : Option MethodSymbol)
  | select (info : ExprInfo) (target : Expr) (sym : Symbol)
  | classLit (info : ExprInfo) (of : Ty)
  | apply (info : ExprInfo) (callee : Expr) (args : List Expr)
  | newClass (info : ExprInfo) (ctor : MethodSymbol) (args : List Expr)
  /-- array allocation from the lengths of its outer levels -/
  | newArray (info : ExprInfo) (dims : List Expr)
  /-- array allocation from its elements -/
  | arrayInit (info : ExprInfo) (elems : List Expr)
  | parens (info : ExprInfo) (inner : Expr)
  | assign (info : ExprInfo) (lhs rhs : Expr)
  /-- compound assignment, carried out in the type `operand` -/
  | assignOp (info : ExprInfo) (op : BinaryOp) (operand : Ty) (lhs rhs : Expr)
  /-- a unary operation on the argument converted to `operand` -/
  | unary (info : ExprInfo) (op : UnaryOp) (operand : Ty) (arg : Expr)
  /-- a binary operation on both sides converted to `operand`, the left side only
  for shifts -/
  | binary (info : ExprInfo) (op : BinaryOp) (operand : Ty) (lhs rhs : Expr)
  | cast (info : ExprInfo) (target : Ty) (arg : Expr)
  | typeTest (info : ExprInfo) (arg : Expr) (target : Ty)
  | index (info : ExprInfo) (array idx : Expr)
  | cond (info : ExprInfo) (test onTrue onFalse : Expr)
  /-- statements run for their effect, then a value -/
  | letIn (info : ExprInfo) (stats : List Stmt) (value : Expr)

/-- An attributed statement. -/
inductive Stmt where
  | block (info : StmtInfo) (stats : List Stmt)
  | varDef (info : StmtInfo) (var : LocalVar) (init : Option Expr)
  | skip (info : StmtInfo)
  | doLoop (info : StmtInfo) (body : Stmt) (test : Expr)
  | whileLoop (info : StmtInfo) (test : Expr) (body : Stmt)
  | forLoop (info : StmtInfo) (init : List Stmt) (test : Option Expr) (step : List Stmt)
      (body : Stmt)
  | foreach (info : StmtInfo) (var : LocalVar) (expr : Expr) (body : Stmt)
  | labelled (info : StmtInfo) (label : String) (body : Stmt)
  | switch (info : StmtInfo) (selector : Expr) (cases : List Case)
  | sync (info : StmtInfo) (lock : Expr) (body : Stmt)
  | tryCatch (info : StmtInfo) (body : Stmt) (catches : List Catch) (final : Option Stmt)
  | ite (info : StmtInfo) (test : Expr) (onTrue : Stmt) (onFalse : Option Stmt)
  | exec (info : StmtInfo) (expr : Expr)
  | breakTo (info : StmtInfo) (target : NodeId)
  | continueTo (info : StmtInfo) (target : NodeId)
  | ret (info : StmtInfo) (value : Option Expr)
  | raise (info : StmtInfo) (value : Expr)
  | assert (info : StmtInfo) (test : Expr) (detail : Option Expr)
  | localClass (info : StmtInfo) (name : String)

/-- One case of a switch; without a label it is the default. -/
inductive Case where
  | mk (span : Span) (label : Option Expr) (stats : List Stmt)

/-- One handler of a try statement. -/
inductive Catch where
  | mk (span : Span) (param : LocalVar) (body : Stmt)

end

instance : Inhabited Expr := ⟨.literal default⟩
instance : Inhabited Stmt := ⟨.skip default⟩

namespace Expr

def info : Expr → ExprInfo
  | literal i | ident i _ | selfRef i _ _ | select i _ _ | classLit i _ | apply i _ _
  | newClass i _ _ | newArray i _ | arrayInit i _ | parens i _ | assign i _ _
  | assignOp i _ _ _ _ | unary i _ _ _ | binary i _ _ _ _ | cast i _ _ | typeTest i _ _
  | index i _ _ | cond i _ _ _ | letIn i _ _ => i

/-- The same expression with other attributes. -/
def withInfo (i : ExprInfo) : Expr → Expr
  | literal _ => literal i
  | ident _ s => ident i s
  | selfRef _ s c => selfRef i s c
  | select _ t s => select i t s
  | classLit _ t => classLit i t
  | apply _ c as => apply i c as
  | newClass _ c as => newClass i c as
  | newArray _ ds => newArray i ds
  | arrayInit _ es => arrayInit i es
  | parens _ e => parens i e
  | assign _ l r => assign i l r
  | assignOp _ o t l r => assignOp i o t l r
  | unary _ o t a => unary i o t a
  | binary _ o t l r => binary i o t l r
  | cast _ t e => cast i t e
  | typeTest _ e t => typeTest i e t
  | index _ a x => index i a x
  | cond _ c t f => cond i c t f
  | letIn _ ss e => letIn i ss e

def span (e : Expr) : Span := e.info.span
def ty (e : Expr) : Ty := e.info.ty
def const (e : Expr) : Option Const := e.info.const

/-- The type in which an operator is carried out. -/
def operand? : Expr → Option Ty
  | assignOp _ _ t _ _ | unary _ _ t _ | binary _ _ t _ _ => some t
  | _ => none

/-- The same expression with its operator carried out in another type. -/
def withOperand (t : Ty) : Expr → Expr
  | assignOp i o _ l r => assignOp i o t l r
  | unary i o _ a => unary i o t a
  | binary i o _ l r => binary i o t l r
  | e => e

def isNullLiteral : Expr → Bool
  | literal i => i.ty == .null
  | _ => false

def isCond : Expr → Bool
  | cond .. => true
  | _ => false

/-- The expression inside any number of parentheses. -/
def bare : Expr → Expr
  | parens _ e => e.bare
  | e => e

/-- The symbol of an identifier or a selection. -/
def symbol? : Expr → Option Symbol
  | ident _ s | select _ _ s => some s
  | _ => none

/-- Whether the expression, used as a qualifier, names `super` or a type rather
than a value. -/
def isSuperQualifier : Expr → Bool
  | ident _ (.type _) => true
  | selfRef _ isSuper none => isSuper
  | _ => false

/-- The method that a callee denotes. -/
def callee? : Expr → Option MethodSymbol
  | ident _ (.method m) | select _ _ (.method m) => some m
  | selfRef _ _ ctor => ctor
  | _ => none

@[simp] theorem info_withInfo (i : ExprInfo) (e : Expr) : (e.withInfo i).info = i := by
  cases e <;> rfl

@[simp] theorem bare_parens (i : ExprInfo) (e : Expr) : (parens i e).bare = e.bare := by
  simp [bare]

end Expr

namespace Stmt

def info : Stmt → StmtInfo
  | block i _ | varDef i _ _ | skip i | doLoop i _ _ | whileLoop i _ _ | forLoop i _ _ _ _
  | foreach i _ _ _ | labelled i _ _ | switch i _ _ | sync i _ _ | tryCatch i _ _ _
  | ite i _ _ _ | exec i _ | breakTo i _ | continueTo i _ | ret i _ | raise i _
  | assert i _ _ | localClass i _ => i

def id (s : Stmt) : NodeId := s.info.id
def span (s : Stmt) : Span := s.info.span

def isBlock : Stmt → Bool
  | block .. => true
  | _ => false

/-- The statements of a block, or the statement alone. -/
def stats : Stmt → List Stmt
  | block _ ss => ss
  | s => [s]

/-- The variable that a declaration introduces. -/
def declared? : Stmt → Option LocalVar
  | varDef _ v _ => some v
  | _ => none

/-- Whether a statement calls another constructor, and if so whether it is one
of the superclass. -/
def constructorCall? : Stmt → Option Bool
  | exec _ (.apply _ (.selfRef _ isSuper (some _)) _) => some isSuper
  | _ => none

/-- Whether a statement stores into a synthetic field of `this`, as done to keep
an outer instance. -/
def isSyntheticStore : Stmt → Bool
  | exec _ (.assign _ (.select _ (.selfRef _ false none) (.field f)) _) =>
    f.flags.has Access.syntheticBit
  | _ => false

end Stmt

namespace Case

def span : Case → Span
  | mk s _ _ => s

def label : Case → Option Expr
  | mk _ l _ => l

def stats : Case → List Stmt
  | mk _ _ ss => ss

end Case

namespace Catch

def span : Catch → Span
  | mk s _ _ => s

def param : Catch → LocalVar
  | mk _ p _ => p

def body : Catch → Stmt
  | mk _ _ b => b

end Catch

/-- A method declaration; an abstract method has no body. -/
structure MethodDecl where
  span : Span
  name : String
  flags : Access
  ty : MethodTy
  params : List LocalVar
  body : Option Stmt
deriving Inhabited

namespace MethodDecl

def isStatic (m : MethodDecl) : Bool := m.flags.has Access.staticBit

def isConstructor (m : MethodDecl) : Bool := m.name == constructorName

/-- Whether the method is a constructor that calls one of the superclass before
any other. -/
def isInitial (m : MethodDecl) : Bool :=
  m.isConstructor &&
    match m.body with
    | none => false
    | some b => (b.stats.findSome? Stmt.constructorCall?).getD false

/-- Whether the method is a synthetic accessor of a qualified `super` member: its
number is odd. -/
def isSuperAccessor (m : MethodDecl) : Bool :=
  m.flags.has Access.syntheticBit && "access$".isPrefixOf m.name &&
    match m.name.toList.getLast? with
    | none => false
    | some c => c.isDigit && c.toNat % 2 == 1

/-- The argument words that the machine counts, the receiver included. -/
def argumentWords (m : MethodDecl) : Nat :=
  m.ty.paramWords + if !m.isStatic || m.isConstructor then 1 else 0

end MethodDecl

/-- A field declaration. -/
structure FieldDecl where
  span : Span
  sym : FieldSymbol
  init : Option Expr
deriving Inhabited

/-- A member of a class. -/
inductive Member where
  | method (m : MethodDecl)
  | field (f : FieldDecl)
  /-- an initializer block of the class or of its instances -/
  | initBlock (span : Span) (isStatic : Bool) (body : Stmt)

/-- A class declaration. -/
structure ClassDecl where
  span : Span
  name : String
  flags : Access
  members : List Member
deriving Inhabited

namespace ClassDecl

def isInterface (c : ClassDecl) : Bool := c.flags.has Access.interfaceBit

def methods (c : ClassDecl) : List MethodDecl :=
  c.members.filterMap fun
    | .method m => some m
    | _ => none

end ClassDecl

end StackCode
