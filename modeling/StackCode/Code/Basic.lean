import StackCode.Chain
import StackCode.Config
import StackCode.Limit

/-!
# The code of one method

`Code` is the buffer that instructions are written to, together with everything
that is followed along the way: the machine state, whether the next instruction
can be reached, the branches that wait for it, and the tables that go with the
code. Nothing is written while the code is dead, that is after an unconditional
transfer and before the next branch target.

This module holds the buffer, its raw bytes and the line table.
-/

namespace StackCode

/-- A row of the exception table: within `[start, stop)` an exception of type
`type` goes to `handler`; type 0 catches everything. -/
structure CatchRow where
  start : Nat
  stop : Nat
  handler : Nat
  type : UInt16
deriving DecidableEq, Repr, Inhabited

/-- A row of the line table: the code from `pc` on comes from `line`. -/
structure LineRow where
  pc : Nat
  line : Nat
deriving DecidableEq, Repr, Inhabited

/-- A row of the table of local variables. -/
structure VarRow where
  start : Nat
  length : Nat
  name : String
  descriptor : String
  reg : Nat
deriving DecidableEq, Repr, Inhabited

/-- A row of the character-range table: what a stretch of source became. -/
structure RangeRow where
  span : Span
  flags : UInt16
  start : Nat
  stop : Nat
deriving DecidableEq, Repr, Inhabited

/-- A named variable that holds a register; `start` is where it got a value. -/
structure VarSlot where
  name : String
  descriptor : String
  start : Option Nat
deriving DecidableEq, Repr, Inhabited

/-- The finished code of a method. A table that was not asked for is `none`. -/
structure CodeAttr where
  bytes : Array UInt8
  maxStack : Nat
  maxLocals : Nat
  catches : Array CatchRow
  lines : Option (Array LineRow)
  vars : Option (Array VarRow)
  ranges : Option (Array RangeRow)
deriving DecidableEq, Repr, Inhabited

/-- The code of a method while it is written. -/
structure Code where
  bytes : Array UInt8 := #[]
  maxStack : Nat := 0
  maxLocals : Nat := 0
  frame : Frame := {}
  /-- whether control falls into the next instruction -/
  alive : Bool := true
  /-- set once the current position has been seen from outside; a trailing jump
  must then stay, since a recorded position may lie behind it -/
  fixed : Bool := false
  /-- write jumps with 32-bit offsets -/
  wide : Bool := false
  /-- a 16-bit offset was too small -/
  needsWide : Bool := false
  /-- the branches to the next instruction -/
  pending : Chain := []
  /-- the line of a statement of which nothing is written yet -/
  pendingLine : Option Nat := none
  keepLines : Bool := true
  keepVars : Bool := false
  catches : Array CatchRow := #[]
  lines : Array LineRow := #[]
  slots : Array (Option VarSlot) := #[]
  vars : Array VarRow := #[]
  nextReg : Nat := 0
  ranges : Option (Array RangeRow) := none
deriving Repr, Inhabited

/-- Writing code: a step over the buffer that may fail. -/
abbrev Emit := EStateM Error Code

namespace Code

/-- An empty buffer. -/
def new (wide : Bool) (config : Config) : Code :=
  { wide, keepLines := config.lines, keepVars := config.vars
    ranges := if config.ranges then some #[] else none }

/-- The current position: the number of bytes written. -/
def pc (c : Code) : Nat := c.bytes.size

/-- Whether the next instruction can be reached, by falling into it or by a
branch that waits for it. -/
def reachable (c : Code) : Bool := c.alive || !c.pending.isEmpty

/-- Whether a statement may begin here. -/
def atStatement (c : Code) : Bool := !c.alive || c.frame.depth == 0

def kill (c : Code) : Code := { c with alive := false }

/-- Takes registers only above those used so far. -/
def newSegment (c : Code) : Code := { c with nextReg := c.maxLocals }

/-- Lets the greatest depth account for the current one. -/
def noteDepth (c : Code) : Code := { c with maxStack := max c.maxStack c.frame.depth }

/-- Writes a byte, if the code is alive. -/
def put1 (c : Code) (b : UInt8) : Code :=
  if c.alive then { c with bytes := c.bytes.push b } else c

/-- Writes a 16-bit word, high byte first. -/
def put2 (c : Code) (w : UInt16) : Code :=
  (c.put1 (w >>> 8).toUInt8).put1 w.toUInt8

/-- Writes a 32-bit integer, high byte first. -/
def put4 (c : Code) (n : Int32) : Code :=
  (c.put2 (n.toUInt32 >>> 16).toUInt16).put2 n.toUInt32.toUInt16

/-- Writes `n` copies of a 32-bit integer. -/
def fill4 (c : Code) (v : Int32) : Nat → Code
  | 0 => c
  | n + 1 => (c.put4 v).fill4 v n

def get1 (c : Code) (pc : Nat) : UInt8 := c.bytes.getD pc 0

def get2 (c : Code) (pc : Nat) : UInt16 :=
  (c.get1 pc).toUInt16 <<< 8 ||| (c.get1 (pc + 1)).toUInt16

def get4 (c : Code) (pc : Nat) : Int32 :=
  ((c.get2 pc).toUInt32 <<< 16 ||| (c.get2 (pc + 2)).toUInt32).toInt32

def set1 (c : Code) (pc : Nat) (b : UInt8) : Code :=
  { c with bytes := c.bytes.setIfInBounds pc b }

def set2 (c : Code) (pc : Nat) (w : UInt16) : Code :=
  (c.set1 pc (w >>> 8).toUInt8).set1 (pc + 1) w.toUInt8

def set4 (c : Code) (pc : Nat) (n : Int32) : Code :=
  (c.set2 pc (n.toUInt32 >>> 16).toUInt16).set2 (pc + 2) n.toUInt32.toUInt16

/-- Adds a row to the exception table; an empty range protects nothing. -/
def addCatch (c : Code) (row : CatchRow) : Code :=
  if row.start = row.stop then c else { c with catches := c.catches.push row }

/-- Adds a row to the character-range table, if it is kept; a range without code
is left out. -/
def addRange (c : Code) (row : RangeRow) : Code :=
  if row.start < row.stop then { c with ranges := c.ranges.map (·.push row) } else c

/-- Says that the next statement stands on `line`. -/
def beginLine (c : Code) (line : Nat) : Code :=
  if 0 < line then { c with pendingLine := some line } else c

/-- Adds a row to a line table. A row at the same position is replaced, and a row
that repeats the line before it is left out. -/
def addLine (lines : Array LineRow) (row : LineRow) : Array LineRow :=
  let lines := if lines.back?.any (·.pc == row.pc) then lines.pop else lines
  if lines.back?.any (·.line == row.line) then lines else lines.push row

/-- Enters the pending line, if any, at the current position. -/
def markLine (c : Code) : Code :=
  match c.pendingLine with
  | none => c
  | some line =>
    let c := { c with pendingLine := none }
    if c.alive && c.keepLines && c.pc ≤ Limit.max16 && line ≤ Limit.max16 then
      let row := ⟨c.pc, line⟩
      { c with lines := addLine c.lines row }
    else c

/-- The limits that the method exceeds. -/
def exceeded (c : Code) : List Limit :=
  (if Limit.max16 < c.pc then [.code] else []) ++
  (if Limit.max16 < c.maxStack then [.stack] else []) ++
  (if Limit.max16 < c.maxLocals then [.locals] else [])

/-- The finished code. -/
def finish (c : Code) : CodeAttr where
  bytes := c.bytes
  maxStack := min c.maxStack Limit.max16
  maxLocals := min c.maxLocals Limit.max16
  catches := c.catches
  lines := if c.keepLines then some c.lines else none
  vars := if c.keepVars then some c.vars else none
  ranges := c.ranges

end Code

end StackCode
