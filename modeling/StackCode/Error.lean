import StackCode.Opcode.Basic
import StackCode.ScopeKind
import StackCode.Span

/-!
# Failures

`Error` lists every way in which a pass over a class can stop. All of them but
two say that the tree broke a promise or that the generator contradicts itself:
`codeSizeOverflow` asks for another attempt at the method, and `option` rejects
a command-line switch. `Fault` holds the contradictions that carry no kind of
their own. The wording of a failure is settled here and nowhere else.
-/

namespace StackCode

/-- A list the way messages show it. -/
def showList {α : Type} [ToString α] (xs : List α) : String :=
  "[" ++ ", ".intercalate (xs.map toString) ++ "]"

/-- A byte in hexadecimal, with at least two digits. -/
def showByte (b : UInt8) : String :=
  let digit (n : Nat) : String := String.singleton (Nat.digitChar n)
  "0x" ++ digit (b.toNat / 16) ++ digit (b.toNat % 16)

/-- Contradictions within code generation or within decoded code. -/
inductive Fault where
  | stackUnderflow (words depth : Nat)
  | dupUnderflow
  | swapUnderflow
  | monitorNotHeld (reg : UInt16)
  /-- an instruction emitted with operands it does not have -/
  | wrongOperands (op : Opcode) (given : Operands)
  | noConversion (source target : Kind)
  | noInstruction (operator : String) (ty : Ty)
  | scopeOrder (id depth : Nat)
  | undeclaredVar (id : VarId)
  | stillTooWide (method : String)
  | caseLabel (line : Nat)
  | secondDefault
  | missingGap
  | literalWithoutValue (line : Nat)
  | notAValue (line : Nat)
  | notAMember (line : Nat)
  | notAMethod (line : Nat)
  | argumentCount (given expected : Nat)
  | initializerType (line : Nat)
  | notAnArray (ty : Ty)
  | cutInstruction (pc : Nat)
  | cutOperand (pc : Nat)
  | tableBounds (pc : Nat) (hi lo : Int)
  | pairCount (pc : Nat) (count : Int)
  | undefinedOpcode (op : Opcode) (pc : Nat)
  | overrun (op : Opcode) (pc : Nat)
deriving DecidableEq, Repr, Inhabited

/-- How the complaint about wrong operands ends. -/
def Operands.complaint : Operands → String
  | plain => "is not an operand-free instruction"
  | byte => "takes no byte operand"
  | register => "takes no register operand"
  | short => "takes no short operand"
  | int => "takes no int operand"
  | field => "is not a field instruction"
  | other => "takes no such operand"

def Fault.message : Fault → String
  | stackUnderflow words depth => s!"operand stack underflow: popping {words} of {depth} words"
  | dupUnderflow => "operand stack underflow in dup"
  | swapUnderflow => "operand stack underflow in swap"
  | monitorNotHeld reg => s!"unlocking monitor in register {reg} that is not held"
  | wrongOperands op given => "`" ++ op.mnemonic ++ "` " ++ given.complaint
  | noConversion source target => "cannot convert " ++ source.name ++ " to " ++ target.name
  | noInstruction operator ty => "no instruction for `" ++ operator ++ "` on " ++ ty.display
  | scopeOrder id depth => s!"closing scope {id} while {depth} scopes are open"
  | undeclaredVar id => s!"local variable VarId({id}) used before its declaration"
  | stillTooWide method => s!"method {method} still overflows with wide jumps"
  | caseLabel line => s!"case label on line {line} is not a constant"
  | secondDefault => "switch has more than one default case"
  | missingGap => "catch-all finalizer left no gap to close its range"
  | literalWithoutValue line => s!"literal on line {line} has no value"
  | notAValue line => s!"identifier on line {line} does not name a value"
  | notAMember line => s!"selection on line {line} does not name a member"
  | notAMethod line => s!"call on line {line} has no method"
  | argumentCount given expected => s!"call passes {given} arguments to {expected} parameters"
  | initializerType line => s!"array initializer on line {line} has no array type"
  | notAnArray ty => "allocating non-array type " ++ ty.descriptor
  | cutInstruction pc => s!"code ends inside the instruction at {pc}"
  | cutOperand pc => s!"code ends inside the operand at {pc}"
  | tableBounds pc hi lo => s!"tableswitch at {pc} has high {hi} below low {lo}"
  | pairCount pc count => s!"lookupswitch at {pc} has {count} pairs"
  | undefinedOpcode op pc => "undefined opcode " ++ showByte op ++ s!" at {pc}"
  | overrun op pc => op.mnemonic ++ s!" at {pc} runs past the end of the code"

/-- Constructs that must be gone from a tree before code is generated. -/
inductive Unlowered where
  | foreach
  | assert
  | localClass
  | nonIntegralSwitch
deriving DecidableEq, Repr, Inhabited

def Unlowered.name : Unlowered → String
  | foreach => "enhanced for loop"
  | assert => "assert statement"
  | localClass => "local class declaration"
  | nonIntegralSwitch => "switch on a non-integral selector"

/-- How two machine states that meet disagree; a state shows as its stack depth
and the registers of the monitors it holds, oldest first. -/
inductive Clash where
  | merge (depth₁ : Nat) (locks₁ : List UInt16) (depth₂ : Nat) (locks₂ : List UInt16)
  | branch (pc depth : Nat) (locks : List UInt16) (targetDepth : Nat) (targetLocks : List UInt16)
  | pending (pc depth fallthrough : Nat)
deriving DecidableEq, Repr, Inhabited

def Clash.message : Clash → String
  | merge d₁ l₁ d₂ l₂ =>
    s!"merging chains with stack {d₁} / locks " ++ showList l₁ ++ s!" and stack {d₂} / locks "
      ++ showList l₂
  | branch pc d l td tl =>
    s!"branch at {pc} carries stack {d} / locks " ++ showList l ++
      s!", target has stack {td} / locks "
      ++ showList tl
  | pending pc d f => s!"pending branch at {pc} carries stack {d}, fallthrough has {f}"

/-- Why a command-line switch is refused. -/
inductive OptionFault where
  | debugKind (key : String)
  | jsrLimit (value : String)
  | stackMap (name : String)
  | unrecognized (option : String)
deriving DecidableEq, Repr, Inhabited

def OptionFault.message : OptionFault → String
  | debugKind key => "unknown debug info kind `" ++ key ++ "`"
  | jsrLimit value => "jsrlimit expects an integer, got `" ++ value ++ "`"
  | stackMap name => "unknown stack map format `" ++ name ++ "`"
  | unrecognized option => "unrecognized option `" ++ option ++ "`"

/-- Everything that can stop a pass. -/
inductive Error where
  /-- a statement begins or ends with values on the operand stack -/
  | stackDepth (depth line : Nat)
  | unresolvedChain (scope : ScopeKind)
  | oddGaps
  | stateMismatch (pc : Nat) (clash : Clash)
  | unlowered (what : Unlowered) (line : Nat)
  /-- an item used in a way its kind does not allow -/
  | illegalUse (use item : String)
  | unresolvedMethod (owner name : String)
  | unknownTarget (id : NodeId)
  | codeSizeOverflow
  | option (why : OptionFault)
  | internal (why : Fault)
deriving DecidableEq, Repr, Inhabited

namespace Error

def message : Error → String
  | stackDepth depth line => s!"operand stack depth is {depth} at statement boundary (line {line})"
  | unresolvedChain scope => "jump chain still unresolved when leaving " ++ scope.name ++ " scope"
  | oddGaps => "gap list has odd length when opening a new gap"
  | stateMismatch pc clash => s!"incompatible machine states at pc {pc}: " ++ clash.message
  | unlowered what line =>
    what.name ++ s!" must be lowered before code generation (line {line})"
  | illegalUse use item => s!"illegal operation `{use}` on {item} item"
  | unresolvedMethod owner name => s!"cannot resolve internal method {owner}.{name}"
  | unknownTarget id => s!"jump target #{id} is not an enclosing statement"
  | codeSizeOverflow => "exception range does not fit the narrow encoding"
  | option why => "invalid option: " ++ why.message
  | internal why => "internal code generator error: " ++ why.message

/-- Whether the failure says that a promise was broken. -/
def isInvariantViolation : Error → Bool
  | codeSizeOverflow | option _ => false
  | _ => true

end Error

end StackCode
