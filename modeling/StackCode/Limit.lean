import StackCode.Span

/-!
# Limits of the class format

Legal programs that the target format cannot hold. Going past a limit is
reported against the source and voids the member concerned; it never stops the
pass.
-/

namespace StackCode

/-- A limit of the class format. -/
inductive Limit where
  | dimensions
  | parameters
  | string
  | pool
  | tryRange
  | code
  | stack
  | locals
deriving DecidableEq, Repr, Inhabited

namespace Limit

/-- The most array levels that a type may have. -/
def maxDimensions : Nat := 255

/-- The most argument words that a method may take. -/
def maxParameters : Nat := 255

/-- String constants stay strictly below this many UTF-16 units. -/
def maxString : Nat := 0xFFFF

/-- The most code bytes, stack words, local registers and pool slots. -/
def max16 : Nat := 0xFFFF

/-- The key of the limit in message catalogues. -/
def key : Limit → String
  | dimensions => "limit.dimensions"
  | parameters => "limit.parameters"
  | string => "limit.string"
  | pool => "limit.pool"
  | tryRange => "limit.code.too.large.for.try.stmt"
  | code => "limit.code"
  | stack => "limit.stack"
  | locals => "limit.locals"

def message : Limit → String
  | dimensions => "array type has too many dimensions"
  | parameters => "too many parameters"
  | string => "constant string too long"
  | pool => "too many constants"
  | tryRange => "code too large for try statement"
  | code => "code too large"
  | stack => "code requires too much stack"
  | locals => "too many local variables"

end Limit

/-- A limit exceeded, and where. -/
structure Diagnostic where
  span : Span
  limit : Limit
deriving DecidableEq, Repr, Inhabited

end StackCode
