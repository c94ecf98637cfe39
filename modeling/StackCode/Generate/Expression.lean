import StackCode.Generate.Text

/-!
# The code of an expression

What an expression turns into depends on what is wanted of it: a value of some
type, a condition to branch on, a piece of a string, or only its effect. An
`ExprCode` holds the answer to each of these, and the code of an expression is
put together from those of its parts.

This module has the record itself and the plainest expressions: literals, names,
selections, calls, allocation, casts and conditional values.
-/

namespace StackCode

/-- The code of an expression, by what is wanted of it. -/
structure ExprCode where
  info : ExprInfo
  /-- where the expression stands once parentheses are taken off -/
  bareSpan : Span
  /-- an item for the value, which is wanted as the given type -/
  item : Ty → Gen Item
  /-- the expression as a condition -/
  cond : Gen Cond
  /-- the expression as a condition once parentheses are taken off -/
  bareCond : Gen Cond
  /-- appends the value to the builder on the stack -/
  append : Gen Unit
  /-- an item for a value that nobody uses -/
  effect : Gen Item

namespace ExprCode

/-- The value converted to type `t`. -/
def value (e : ExprCode) (t : Ty) : Gen Item := do
  (← e.item t).coerce t.kind

/-- Puts the value, converted to type `t`, on the stack. -/
def push (e : ExprCode) (t : Ty) : Gen Item := do
  (← e.value t).load

/-- The expression as a condition, entered into the character-range table. -/
def test (e : ExprCode) (flags : UInt16) : Gen Cond :=
  Gen.ranged e.info.span flags e.cond

/-- The expression without parentheses as a condition, entered into the
character-range table. -/
def bareTest (e : ExprCode) (flags : UInt16) : Gen Cond :=
  Gen.ranged e.bareSpan flags e.bareCond

/-- An item for the expression: its constant if it has one, which takes no code,
else what `visit` comes to. -/
def itemOf (info : ExprInfo) (visit : Ty → Gen Item) (t : Ty) : Gen Item :=
  match info.const with
  | some c => do
    Gen.checkString info.span (some c)
    return .const info.ty.kind c
  | none => visit t

/-- The code of an expression from an item for its value. -/
def ofItem (ctx : Context) (info : ExprInfo) (visit : Ty → Gen Item) : ExprCode :=
  let item := itemOf info visit
  let value (t : Ty) : Gen Item := do (← item t).coerce t.kind
  let cond : Gen Cond := do (← value .boolean).toCond
  { info, item, cond
    bareSpan := info.span
    bareCond := cond
    append := do
      let _ ← (← value info.ty).load
      ctx.appendPiece info.ty
    effect := value info.ty }

/-- The code of an expression in parentheses. As a condition the parentheses are
looked through only in front of a conditional expression. -/
def parens (ctx : Context) (info : ExprInfo) (bareIsCond : Bool) (inner : ExprCode) : ExprCode :=
  let plain := ofItem ctx info fun _ => inner.value inner.info.ty
  { plain with
    bareSpan := inner.bareSpan
    cond := if bareIsCond then inner.cond else plain.cond
    bareCond := inner.bareCond
    append := inner.append }

end ExprCode

namespace Gen

/-- `null`, or a literal that should have carried a value. A reference to an array
of several levels is checked, so that its type is known. -/
def literal (info : ExprInfo) (t : Ty) : Gen Item := do
  if info.ty ≠ .null then throw (.internal (.literalWithoutValue info.span.firstLine))
  Emit.plain .aconstNull
  if 1 < t.dimensions then
    Emit.short .checkcast (← typeIndex info.span t)
    return .ofTy t
  return .stack .object

/-- `this`, `super`, or the constructor that one of them calls. -/
def selfRef (isSuper : Bool) (ctor : Option MethodSymbol) : Gen Item :=
  match ctor with
  | none => pure (.self isSuper)
  | some m => do
    let _ ← (Item.self isSuper).load
    return .member (.ofMethod m) true

/-- The object that stands for a class. -/
def classLit (info : ExprInfo) (t : Ty) : Gen Item := do
  Emit.ldc (← typeIndex info.span t) .object
  return .stack .object

/-- Puts the arguments of a call on the stack. -/
def pushArgs (args : List ExprCode) (params : List Ty) : Gen Unit := do
  if args.length ≠ params.length then
    throw (.internal (.argumentCount args.length params.length))
  (args.zip params).forM fun (e, t) => do let _ ← e.push t

/-- A call of the method `m` that the callee denotes. -/
def apply (callee : ExprCode) (m : Option MethodSymbol) (args : List ExprCode) : Gen Item := do
  let item ← callee.item .void
  match m with
  | none => throw (.internal (.notAMethod callee.info.span.firstLine))
  | some m =>
    pushArgs args m.ty.params
    item.invoke

/-- A new object, initialized by a constructor. -/
def newClass (info : ExprInfo) (ctor : MethodSymbol) (args : List ExprCode) : Gen Item := do
  Emit.short .newObject (← typeIndex info.span info.ty)
  Emit.plain .dup
  pushArgs args ctor.ty.params
  let _ ← (Item.member (.ofMethod ctor) true).invoke
  return .ofTy info.ty

/-- An array of type `t` whose `dims` outer lengths are on the stack. -/
def allocate (span : Span) (t : Ty) (dims : Nat) : Gen Item := do
  match t.elem? with
  | none => throw (.internal (.notAnArray t))
  | some elem =>
    checkDimensions span t
    let code := elem.elementCode
    if code = 0 ∨ (code = 1 ∧ dims = 1) then
      Emit.short .anewarray (← typeIndex span elem)
    else if code = 1 then
      Emit.multiarray (.ofNat (min dims 255)) (← typeIndex span t)
    else
      Emit.byte .newarray code
    return .stack .object

/-- A new array with the given lengths. -/
def newArray (info : ExprInfo) (dims : List ExprCode) : Gen Item := do
  dims.forM fun d => do let _ ← d.push .int
  allocate info.span info.ty dims.length

/-- Stores elements into the array on the stack, from index `i` on. -/
def storeElems (array : Item) (t : Ty) : List ExprCode → Nat → Gen Unit
  | [], _ => pure ()
  | e :: es, i => do
    array.duplicate
    let _ ← (Item.ofInt (.ofNat i)).load
    let _ ← e.push t
    (Item.indexed t.kind).store
    storeElems array t es (i + 1)

/-- A new array with the given elements. -/
def arrayInit (info : ExprInfo) (elems : List ExprCode) : Gen Item := do
  match info.ty.elem? with
  | none => throw (.internal (.initializerType info.span.firstLine))
  | some t =>
    let _ ← (Item.ofInt (.ofNat elems.length)).load
    let array ← allocate info.span info.ty 1
    storeElems array t elems 0
    return array

/-- An assignment that is carried out once it is known whether its value is
used. -/
def assign (lhs rhs : ExprCode) : Gen Item := do
  let place ← lhs.value lhs.info.ty
  let _ ← rhs.push lhs.info.ty
  return .assign place

/-- An element of an array. -/
def index (info : ExprInfo) (array idx : ExprCode) : Gen Item := do
  let _ ← array.push array.info.ty
  let _ ← idx.push .int
  return .indexed info.ty.kind

/-- A test of the class of an object. -/
def typeTest (info : ExprInfo) (arg : ExprCode) (target : Ty) : Gen Item := do
  let _ ← arg.push arg.info.ty
  Emit.short .instanceOf (← typeIndex info.span target)
  return .stack .byte

/-- One branch of a conditional value; whichever is taken, the value on the stack
counts as of kind `k`. -/
def arm (e : ExprCode) (t : Ty) (k : Kind) : Gen Unit :=
  ranged e.info.span RangeFlag.flowTarget do
    let _ ← e.push t
    touch fun c => { c with frame := c.frame.retype k }

/-- A conditional value. A branch that is known not to be taken is left out. -/
def condValue (info : ExprInfo) (test onTrue onFalse : ExprCode) (t : Ty) : Gen Item := do
  let c ← test.test RangeFlag.flowController
  let falseChain ← c.jumpFalse
  let exit ←
    if c.isFalse then pure []
    else do
      Emit.resolve c.onTrue
      arm onTrue t info.ty.kind
      Emit.branch .goto
  unless falseChain.isEmpty do
    Emit.resolve falseChain
    arm onFalse t info.ty.kind
  Emit.resolve exit
  return .ofTy t

/-- Statements and then a value, which may find other values on the stack. -/
def letIn (stats : Gen Unit) (value : ExprCode) : Gen Item :=
  freeing do
    modify fun s => { s with letDepth := s.letDepth + 1 }
    stats
    let v ← value.push value.info.ty
    modify fun s => { s with letDepth := s.letDepth - 1 }
    return v

end Gen

namespace Context

open Gen

/-- A member of the class itself, named without a qualifier. -/
def ownMember (ctx : Context) (m : MemberRef) (flags : Access) : Gen Item := do
  let qualified := ctx.qualify m flags (.cls ctx.cls)
  if flags.has Access.staticBit then
    return .static (if ctx.method.isSuperAccessor then m else qualified)
  else
    let _ ← (Item.self false).load
    return .member qualified (flags.has Access.privateBit)

/-- What an identifier denotes. -/
def ident (ctx : Context) (info : ExprInfo) : Symbol → Gen Item
  | .var id => do return .var info.ty.kind (← registerOf id)
  | .field f => ctx.ownMember (.ofField f) f.flags
  | .method m => ctx.ownMember (.ofMethod m) m.flags
  | .length | .type _ => throw (.internal (.notAValue info.span.firstLine))

/-- Makes a null reference on the stack fail; any other is dropped. -/
def nullCheck (ctx : Context) : Gen Unit := do
  let _ ← ctx.callLibrary .object "getClass" []
  Emit.plain .pop

/-- Drops the qualifier of a member that does not need it. A qualifier that names
a class or `super` was never on the stack. -/
def dropQualifier (base : Item) (viaSuper : Bool) : Gen Unit := do
  let base ← if viaSuper then pure base else base.load
  base.discard

/-- A selected member. Accessors of qualified `super` members refer to the member
as it was declared. -/
def selectMember (ctx : Context) (base : Item) (viaSuper : Bool) (site : Ty) (m : MemberRef)
    (flags : Access) : Gen Item := do
  let accessor := ctx.method.isSuperAccessor
  let m := if accessor then m else ctx.qualify m flags site
  if flags.has Access.staticBit then
    dropQualifier base viaSuper
    return .static m
  else
    let _ ← base.load
    return .member m (flags.has Access.privateBit || viaSuper || accessor)

/-- What a selection denotes. A constant field takes no code beyond that of its
qualifier. -/
def select (ctx : Context) (target : ExprCode) (viaSuper : Bool) (sym : Symbol) : Gen Item := do
  let base ← if viaSuper then pure (.self true) else target.value target.info.ty
  match sym with
  | .length =>
    let _ ← base.load
    Emit.plain .arraylength
    return .stack .int
  | .field f =>
    match f.const with
    | some c =>
      if f.flags.has Access.staticBit then dropQualifier base viaSuper
      else
        let _ ← base.load
        ctx.nullCheck
      return .const f.ty.kind c
    | none => ctx.selectMember base viaSuper target.info.ty (.ofField f) f.flags
  | .method m => ctx.selectMember base viaSuper target.info.ty (.ofMethod m) m.flags
  | .var _ | .type _ => throw (.internal (.notAMember target.info.span.firstLine))

/-- A cast; one that cannot fail is not checked. -/
def cast (ctx : Context) (info : ExprInfo) (target : Ty) (arg : ExprCode) : Gen Item := do
  let v ← arg.push target
  if target.isReference && !ctx.resolver.subtype arg.info.ty target then
    Emit.short .checkcast (← typeIndex info.span target)
  return v

end Context

end StackCode
