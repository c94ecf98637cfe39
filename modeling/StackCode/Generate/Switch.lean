import StackCode.Generate.Statement
import StackCode.Switch.Layout
import StackCode.Switch.Sort

/-!
# Switches

A switch is written as one instruction with a table, followed by the cases in
the order of the source. The table is written with every target open; a case
settles its target when its code begins, and what is still open at the end goes
to the default.

Offsets in the table count from the instruction, and the table begins at the
next multiple of four behind its opcode with the offset of the default.
-/

namespace StackCode

/-- The code of a case, with its label and the statements it comes from. -/
structure CaseCode where
  span : Span
  label : Option ExprInfo
  stats : List Stmt
  gen : Env → Gen Unit

namespace Gen

/-- The mark of an open target. -/
def openTarget : Int32 := -1

/-- The keys of the cases, `none` for the default. -/
def caseKeys : List CaseCode → (seenDefault : Bool) → Except Error (List (Option Int32))
  | [], _ => .ok []
  | c :: cs, seenDefault => do
    let key ← match c.label with
      | some info =>
        match info.const with
        | some v => .ok (some v.toInt32)
        | none => .error (.internal (.caseLabel c.span.firstLine))
      | none => if seenDefault then .error (.internal .secondDefault) else .ok none
    return key :: (← caseKeys cs (seenDefault || key.isNone))

/-- Where the table of a switch stands and what it covers. -/
structure SwitchSite where
  layout : Layout
  /-- the position of the instruction -/
  pc : Nat
  /-- the position of the default's offset -/
  table : Nat
  lo : Int32
  hi : Int32

namespace SwitchSite

/-- The number of keys in a dense table. -/
def width (s : SwitchSite) : Nat := (s.hi.toInt - s.lo.toInt + 1).toNat

/-- The position of a key's offset in a dense table. -/
def slot (s : SwitchSite) (key : Int32) : Nat :=
  s.table + 4 * (key.toInt - s.lo.toInt + 3).toNat

/-- The offset of a target from the instruction. -/
def offset (s : SwitchSite) (target : Nat) : Int32 := .ofInt ((target : Int) - s.pc)

end SwitchSite

/-- Writes the instruction of a switch over `keys` with every target open. -/
def openTable (keys : List Int32) : Gen SwitchSite := do
  let lo := keys.foldl min 0x7fffffff
  let hi := keys.foldl max (-0x80000000)
  let layout := Layout.choose keys.length lo.toInt hi.toInt
  let pc ← Emit.curPc
  Emit.plain layout.opcode
  Emit.align 4
  let table ← Emit.curPc
  let site : SwitchSite := { layout, pc, table, lo, hi }
  touch (·.put4 openTarget)
  match layout with
  | .dense => touch fun c => ((c.put4 lo).put4 hi).fill4 openTarget site.width
  | .sparse =>
    touch fun c => (c.put4 (.ofNat keys.length)).fill4 openTarget (2 * keys.length)
  return site

/-- Generates the cases one after the other, each entered in the state `frame`,
and answers with the targets that a sparse table will list. -/
def cases (site : SwitchSite) (frame : Frame) (env : Env) :
    List (CaseCode × Option Int32) → Array KeyTarget → Gen (Array KeyTarget)
  | [], targets => pure targets
  | (c, key) :: rest, targets => do
    let offset := site.offset (← Emit.entryWith frame)
    let targets ← match key, site.layout with
      | none, _ => do
        touch (·.set4 site.table offset)
        pure targets
      | some k, .dense => do
        touch (·.set4 (site.slot k) offset)
        pure targets
      | some k, .sparse => pure (targets.push (k, offset))
    rangedStats c.stats RangeFlag.flowTarget (c.gen env)
    cases site frame env rest targets

/-- Sends `n` open keys of a dense table, from position `pc` on, to the default. -/
def closeSlots (default : Int32) (c : Code) (pc : Nat) : Nat → Code
  | 0 => c
  | n + 1 =>
    let c := if c.get4 pc = openTarget then c.set4 pc default else c
    closeSlots default c (pc + 4) n

/-- Writes the pairs of a sparse table from position `pc` on. -/
def writePairs (c : Code) (pc : Nat) : List KeyTarget → Code
  | [] => c
  | (k, t) :: rest => writePairs ((c.set4 pc k).set4 (pc + 4) t) (pc + 8) rest

/-- Settles every target that is still open. -/
def closeTable (site : SwitchSite) (frame : Frame) (targets : Array KeyTarget) : Gen Unit := do
  if (← peek (·.get4 site.table)) = openTarget then
    let pc ← Emit.entryWith frame
    touch (·.set4 site.table (site.offset pc))
  match site.layout with
  | .dense =>
    touch fun c => closeSlots (c.get4 site.table) c (site.slot site.lo) site.width
  | .sparse => touch fun c => writePairs c (site.table + 8) (sortKeys targets).toList

/-- A switch. -/
def switch (info : StmtInfo) (selector : ExprCode) (codes : List CaseCode) (env : Env) : Gen Unit :=
  freeing do
    if !selector.info.ty.isIntLike then
      throw (.unlowered .nonIntegralSwitch selector.info.span.firstLine)
    let key ← ranged selector.bareSpan RangeFlag.flowController (selector.push .int)
    if codes.isEmpty then key.discard
    else
      withScope .switch info env fun inner => do
        let keys ← caseKeys codes false
        let site ← openTable (keys.filterMap id)
        let frame ← peek (·.frame)
        touch (·.kill)
        let targets ← cases site frame inner (codes.zip keys) #[]
        resolveExit inner.scope
        closeTable site frame targets

end Gen

end StackCode
