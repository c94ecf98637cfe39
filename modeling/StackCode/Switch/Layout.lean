import StackCode.Opcode.Basic

/-!
# Layouts of a switch

A switch over `n` keys in `[lo, hi]` is written either as a dense table indexed
by the key or as a sparse list of sorted keys, whichever is cheaper. Cost is
space in words plus three times the time; a table has time 3, a list time `n`.
-/

namespace StackCode

/-- How a switch is written. -/
inductive Layout where
  | dense
  | sparse
deriving DecidableEq, Repr, Inhabited

namespace Layout

def opcode : Layout → Opcode
  | dense => .tableswitch
  | sparse => .lookupswitch

/-- The weight of time against space. -/
def timeWeight : Int := 3

/-- The cost of a dense table over `[lo, hi]`. -/
def denseCost (lo hi : Int) : Int := 4 + (hi - lo + 1) + timeWeight * 3

/-- The cost of a sparse list of `n` keys. -/
def sparseCost (n : Int) : Int := 3 + 2 * n + timeWeight * n

/-- The cheaper layout, dense if they cost the same; without keys there is nothing
to index by. -/
def choose (n lo hi : Int) : Layout :=
  if n = 0 then sparse
  else if denseCost lo hi ≤ sparseCost n then dense
  else sparse

end Layout

end StackCode
