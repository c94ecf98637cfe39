import StackCode.Error

/-!
# Options

The switches that shape the generated code, and their reading from the command
line. Later switches win over earlier ones; `-g:` with a list first turns off
everything that the list could turn on.
-/

namespace StackCode

/-- The frame format that the target verifies with. Frames themselves are not
written here; a format only rules out subroutines, which frames cannot describe. -/
inductive StackMaps where
  | none
  | cldc
  | jsr202
deriving DecidableEq, Repr, Inhabited

/-- The switches that shape the generated code. -/
structure Config where
  /-- keep the line table -/
  lines : Bool := true
  /-- keep the table of local variables, and constant locals in their registers -/
  vars : Bool := false
  /-- keep the character-range table -/
  ranges : Bool := false
  /-- trace what is emitted -/
  trace : Bool := false
  stackMaps : StackMaps := .none
  /-- the weight above which a finalizer becomes a subroutine: always if it is not
  positive, never if it is 100 or more -/
  jsrLimit : Int := 50
  /-- refer to members through the type that qualifies them -/
  binaryCompatible : Bool := true
deriving DecidableEq, Repr, Inhabited

namespace Config

/-- The value of a nonempty list of decimal digits. -/
def digits? : List Char → Option Nat
  | [] => none
  | cs => if cs.all Char.isDigit then
      some (cs.foldl (fun n c => 10 * n + (c.toNat - '0'.toNat)) 0)
    else none

/-- A 32-bit integer: an optional sign, then decimal digits. -/
def int32? (s : String) : Option Int :=
  let value : Option Int := match s.toList with
    | '+' :: cs => (digits? cs).map Int.ofNat
    | '-' :: cs => (digits? cs).map fun n => -Int.ofNat n
    | cs => (digits? cs).map Int.ofNat
  value.filter fun n => -0x80000000 ≤ n && n < 0x80000000

/-- The part of `s` after `lead`, if `s` begins with it. -/
def after? (lead s : String) : Option String :=
  if lead.isPrefixOf s then some (String.ofList (s.toList.drop lead.length)) else none

/-- Turns on the debug information that a key names. -/
def enable (c : Config) (key : String) : Except Error Config :=
  if key = "lines" then .ok { c with lines := true }
  else if key = "vars" then .ok { c with vars := true }
  else if key = "source" then .ok c
  else .error (.option (.debugKind key))

/-- Sets the frame format that a name stands for. -/
def setStackMaps (c : Config) (name : String) : Except Error Config :=
  if name = "none" then .ok { c with stackMaps := .none }
  else if name = "cldc" then .ok { c with stackMaps := .cldc }
  else if name = "jsr202" then .ok { c with stackMaps := .jsr202 }
  else .error (.option (.stackMap name))

/-- Applies one switch. -/
def addOption (c : Config) (opt : String) : Except Error Config :=
  if opt = "-g" then .ok { c with lines := true, vars := true }
  else if opt = "-g:none" then .ok { c with lines := false, vars := false }
  else if opt = "-Xjcov" then .ok { c with ranges := true }
  else if opt = "-XDdebugcode" then .ok { c with trace := true }
  else if let some keys := after? "-g:" opt then
    (keys.splitOn ",").foldlM enable { c with lines := false, vars := false }
  else if let some value := after? "-XDjsrlimit=" opt then
    match int32? value with
    | some n => .ok { c with jsrLimit := n }
    | none => .error (.option (.jsrLimit value))
  else if let some name := after? "-stackmap:" opt then c.setStackMaps name
  else .error (.option (.unrecognized opt))

/-- The configuration that a list of switches asks for. -/
def ofOptions (opts : List String) : Except Error Config :=
  opts.foldlM addOption {}

end Config

end StackCode
