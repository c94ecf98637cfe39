import StackCode.Frame

/-!
# Jump chains

A chain is the list of branches that wait for one target, highest position
first. Each link carries the machine state at its branch, so that the target can
be entered with a known state; `merge` refuses to bring together branches whose
states are not compatible. `positions` is the view of a chain that forgets the
states.
-/

namespace StackCode

/-- A branch without a target: where its opcode stands and the machine state when
it is taken. -/
structure Link where
  pc : Nat
  frame : Frame
deriving DecidableEq, Repr, Inhabited

/-- The branches that wait for one target; none if empty. -/
abbrev Chain := List Link

namespace Chain

/-- The positions of the branches. -/
def positions (c : Chain) : List Nat := c.map Link.pc

/-- The complaint about two links that cannot share a target. -/
def mismatch (a b : Link) : Error :=
  .stateMismatch (max a.pc b.pc)
    (.merge a.frame.depth a.frame.heldLocks b.frame.depth b.frame.heldLocks)

/-- Brings two chains together, highest position first. Of two links at one
position the left one comes first. -/
def merge : Chain → Chain → Except Error Chain
  | [], b => .ok b
  | a, [] => .ok a
  | x :: a, y :: b =>
    if x.frame.compatible y.frame then
      if x.pc < y.pc then (merge (x :: a) b).map (y :: ·)
      else (merge a (y :: b)).map (x :: ·)
    else .error (mismatch x y)
termination_by a b => a.length + b.length

@[simp] theorem positions_nil : positions [] = [] := rfl

@[simp] theorem positions_cons (x : Link) (c : Chain) :
    positions (x :: c) = x.pc :: positions c := rfl

@[simp] theorem merge_nil_left (c : Chain) : merge [] c = .ok c := by
  rw [merge]

@[simp] theorem merge_nil_right (c : Chain) : merge c [] = .ok c := by
  cases c <;> simp [merge]

end Chain

end StackCode
