import StackCode.Generate.Basic

/-!
# Building strings

A concatenation of strings appends its pieces, from left to right, to one
builder object and asks it for its text at the end. The append method depends on
the type of the piece; a method once found is kept, since the answer never
changes.
-/

namespace StackCode

/-- The type under which a piece is appended: strings and primitive values as
themselves, any other reference as a plain object. -/
def Ty.asPiece (t : Ty) : Ty := if t.isReference && !t.isString then .object else t

namespace Context

/-- The append method for a piece of type `t`. -/
def appendMethod (ctx : Context) (t : Ty) : Gen MethodSymbol := do
  match (← get).appends.lookup t with
  | some m => return m
  | none =>
    let m ← ctx.resolver.method .builder "append" [t]
    modify fun s => { s with appends := (t, m) :: s.appends }
    return m

/-- Leaves a new builder on the stack. -/
def newBuilder (ctx : Context) (span : Span) : Gen Unit := do
  Emit.short .newObject (← Gen.typeIndex span .builder)
  Emit.plain .dup
  let _ ← ctx.callLibrary .builder constructorName []

/-- Appends the value on the stack, of type `t`, to the builder below it. -/
def appendPiece (ctx : Context) (t : Ty) : Gen Unit := do
  let m ← ctx.appendMethod t.asPiece
  let _ ← (Item.member (.ofMethod m) false).invoke

/-- Turns the builder on the stack into its text. -/
def builderText (ctx : Context) : Gen Item := do
  let _ ← ctx.callLibrary .builder "toString" []
  return .stack .object

end Context

end StackCode
