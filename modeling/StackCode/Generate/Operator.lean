import StackCode.Generate.Expression
import StackCode.Opcode.Select

/-!
# Operators

Binary and unary operators, compound assignment and the conditions they yield.
Comparisons and logical operators are left as conditions, so that a branch on
them needs no value; whoever wants the value loads the condition.
-/

namespace StackCode

namespace Gen

/-- A conditional expression whose branches are conditions themselves. -/
def condCond (test onTrue onFalse : ExprCode) : Gen Cond := do
  let c ← test.test RangeFlag.flowController
  if c.isTrue then
    Emit.resolve c.onTrue
    onTrue.test RangeFlag.flowTarget
  else if c.isFalse then
    Emit.resolve c.onFalse
    onFalse.test RangeFlag.flowTarget
  else
    let second ← c.jumpFalse
    Emit.resolve c.onTrue
    let t ← onTrue.test RangeFlag.flowTarget
    let falseJumps ← t.jumpFalse
    Emit.resolve t.onTrue
    let trueJumps ← Emit.branch .goto
    Emit.resolve second
    let f ← onFalse.test RangeFlag.flowTarget
    let onTrue ← Cond.join trueJumps f.onTrue
    let onFalse ← Cond.join falseJumps f.onFalse
    return ⟨f.op, onTrue, onFalse⟩

/-- Both conditions; the second is skipped if the first fails. -/
def both (lhs rhs : ExprCode) : Gen Cond := do
  let l ← lhs.test RangeFlag.flowController
  if l.isFalse then return l
  let falseJumps ← l.jumpFalse
  Emit.resolve l.onTrue
  let r ← rhs.test RangeFlag.flowTarget
  return ⟨r.op, r.onTrue, ← Cond.join falseJumps r.onFalse⟩

/-- Either condition; the second is skipped if the first holds. -/
def either (lhs rhs : ExprCode) : Gen Cond := do
  let l ← lhs.test RangeFlag.flowController
  if l.isTrue then return l
  let trueJumps ← l.jumpTrue
  Emit.resolve l.onFalse
  let r ← rhs.test RangeFlag.flowTarget
  return ⟨r.op, ← Cond.join trueJumps r.onTrue, r.onFalse⟩

/-- Finishes a binary operation whose left operand is on the stack. Comparing with
the constant 0 or with `null` has branches of its own, and the right operand is
not evaluated. -/
def finishBinary (op : BinaryOp) (operand : Ty) (rhs : ExprCode) (rhsIsNull : Bool) (result : Ty) :
    Gen Item := do
  let s ← op.select operand
  let op : Opcode ←
    if Opcode.ifIcmpeq ≤ s.op ∧ s.op ≤ Opcode.ifIcmple ∧ rhs.info.const = some (.int 0) then
      pure (s.op - Opcode.ifIcmpeq + Opcode.ifeq)
    else if Opcode.ifAcmpeq ≤ s.op ∧ s.op ≤ Opcode.ifAcmpne ∧ rhsIsNull then
      pure (s.op - Opcode.ifAcmpeq + Opcode.ifnull)
    else do
      let _ ← rhs.push (if op.isShift then .int else operand)
      if let some compare := s.compare then Emit.plain compare
      pure s.op
  if op.isConditional then return .cond { op }
  Emit.plain op
  return .ofTy result

/-- The instruction that loads 1 as a value of kind `k`. -/
def one (k : Kind) : Opcode :=
  match k.widen with
  | .long => .lconst1
  | .float => .fconst1
  | .double => .dconst1
  | _ => .iconst1

/-- Cuts an integer on the stack back to the range of a narrow kind. -/
def narrow (k : Kind) : Gen Unit := do
  if k ≠ .int ∧ k.widen = .int then Emit.plain (Opcode.i2b + (k.code - Kind.byte.code))

/-- Adds `delta`, which is 1 or -1, to a place by the instruction `op`; the new
value is the value of the expression. -/
def stepFirst (op : Opcode) (delta : Int32) (place : Item) : Gen Item := do
  place.duplicate
  if place.isVar && (op == Opcode.iadd || op == Opcode.isub) then
    place.increment delta
    return place
  let k := place.kind
  let _ ← place.load
  Emit.plain (one k)
  Emit.plain op
  narrow k
  return .assign place

/-- Adds `delta`, which is 1 or -1, to a place by the instruction `op`; the old
value is the value of the expression. -/
def stepLast (op : Opcode) (delta : Int32) (place : Item) : Gen Item := do
  place.duplicate
  if place.isVar && (op == Opcode.iadd || op == Opcode.isub) then
    let old ← place.load
    place.increment delta
    return old
  let k := place.kind
  let old ← place.load
  place.stash k
  Emit.plain (one k)
  Emit.plain op
  narrow k
  place.store
  return old

end Gen

namespace Context

open Gen

/-- A unary operation. -/
def unary (ctx : Context) (op : UnaryOp) (operand : Ty) (arg : ExprCode) : Gen Item :=
  match op with
  | .not => do return .cond (← arg.cond).negate
  | .pos => do (← arg.value operand).load
  | .neg => do
    let v ← arg.push operand
    Emit.plain (← op.select operand)
    return v
  | .compl => do
    let v ← arg.push operand
    if v.kind = .long then
      let _ ← (Item.const .long (.long (-1))).load
    else
      Emit.plain .iconstM1
    Emit.plain (← op.select operand)
    return v
  | .preInc => do
    let place ← arg.value operand
    stepFirst (← op.select operand) 1 place
  | .preDec => do
    let place ← arg.value operand
    stepFirst (← op.select operand) (-1) place
  | .postInc => do
    let place ← arg.value operand
    stepLast (← op.select operand) 1 place
  | .postDec => do
    let place ← arg.value operand
    stepLast (← op.select operand) (-1) place
  | .nullCheck => do
    let v ← arg.push operand
    Emit.plain .dup
    ctx.nullCheck
    return v

/-- A unary operation as an expression. If nobody uses its value, stepping a place
before and after comes to the same. -/
def unaryCode (ctx : Context) (info : ExprInfo) (op : UnaryOp) (operand : Ty) (arg : ExprCode) :
    ExprCode :=
  let code := ExprCode.ofItem ctx info fun _ => ctx.unary op operand arg
  match op with
  | .postInc => { code with effect := ctx.unary .preInc operand arg }
  | .postDec => { code with effect := ctx.unary .preDec operand arg }
  | _ => code

/-- A binary operation as an expression. A concatenation that is a piece of
another one appends its own pieces to the same builder. -/
def binaryCode (ctx : Context) (info : ExprInfo) (op : BinaryOp) (operand : Ty)
    (lhs rhs : ExprCode) (rhsIsNull : Bool) : ExprCode :=
  if op = .and then .ofItem ctx info fun _ => do return .cond (← both lhs rhs)
  else if op = .or then .ofItem ctx info fun _ => do return .cond (← either lhs rhs)
  else if op = .plus ∧ operand.isString then
    let pieces : Gen Unit := do
      lhs.append
      rhs.append
    let code := ExprCode.ofItem ctx info fun _ => do
      ctx.newBuilder info.span
      pieces
      ctx.builderText
    { code with append := if info.const.isNone then pieces else code.append }
  else
    .ofItem ctx info fun _ => do
      let _ ← lhs.push operand
      finishBinary op operand rhs rhsIsNull info.ty

/-- Assigns to a place what concatenating to its value yields. -/
def concatAssign (ctx : Context) (info : ExprInfo) (lhs rhs : ExprCode) : Gen Item := do
  ctx.newBuilder info.span
  let place ← lhs.value lhs.info.ty
  if 0 < place.width then
    Emit.plain (Opcode.dupX1 + 3 * (.ofNat place.width - 1))
  let _ ← place.load
  ctx.appendPiece lhs.info.ty
  rhs.append
  let _ ← ctx.builderText
  return .assign place

/-- The amount by which a compound assignment changes an integer variable, if that
is known. -/
def knownStep? (op : BinaryOp) (lhs rhs : ExprInfo) : Option Int32 :=
  if lhs.ty.isIntLike && rhs.ty.isIntLike then
    match op with
    | .plus => rhs.const.map (·.toInt32)
    | .minus => rhs.const.map (-·.toInt32)
    | _ => none
  else none

/-- A compound assignment. -/
def assignOp (ctx : Context) (info : ExprInfo) (op : BinaryOp) (operand : Ty)
    (lhs rhs : ExprCode) (rhsIsNull : Bool) : Gen Item := do
  if op = .plus ∧ operand.isString then ctx.concatAssign info lhs rhs
  else
    let place ← lhs.value lhs.info.ty
    match (if place.isVar then knownStep? op lhs.info rhs.info else none) with
    | some delta =>
      place.increment delta
      return place
    | none =>
      place.duplicate
      let _ ← (← place.coerce operand.kind).load
      let v ← finishBinary op operand rhs rhsIsNull operand
      let _ ← v.coerce lhs.info.ty.kind
      return .assign place

end Context

end StackCode
