/-!
# Source positions

A `Span` says where a piece of source stands. Code generation reads only the
lines of a span; columns and offsets travel through to the character-range
table and the diagnostics untouched.
-/

namespace StackCode

/-- A point in the source text. -/
structure Location where
  line : Nat
  column : Nat
  offset : Nat
deriving DecidableEq, Repr, Inhabited

/-- A stretch of source text. -/
structure Span where
  start : Location
  stop : Location
deriving DecidableEq, Repr, Inhabited

namespace Span

/-- The span of a node of which only the line is known. -/
def ofLine (line : Nat) : Span :=
  ⟨⟨line, 1, 0⟩, ⟨line, 1, 0⟩⟩

def firstLine (s : Span) : Nat := s.start.line

def lastLine (s : Span) : Nat := s.stop.line

/-- The span from the start of `a` to the end of `b`. -/
def hull (a b : Span) : Span := ⟨a.start, b.stop⟩

@[simp] theorem firstLine_ofLine (line : Nat) : (ofLine line).firstLine = line := rfl

@[simp] theorem lastLine_ofLine (line : Nat) : (ofLine line).lastLine = line := rfl

end Span

/-- The identity of a statement, by which a jump names the statement it leaves. -/
abbrev NodeId := Nat

/-- The identity of statements that no jump names. -/
def NodeId.synthetic : NodeId := 4294967295

/-- The identity of a local variable within a method. -/
abbrev VarId := Nat

end StackCode
