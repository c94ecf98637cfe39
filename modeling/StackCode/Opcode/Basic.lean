import StackCode.Kind

/-!
# The instruction set

An opcode is a byte. `rows` gives every defined opcode its mnemonic, its encoded
length, the operands that follow it, and what it does to the operand stack; the
byte itself is the index into the table. Instructions whose effect depends on a
pool entry (field access, calls, pool constants) have the empty effect here: the
emitter works theirs out from the entry.

A length of 0 marks the instructions of variable length. Typed families stand in
the order of the kinds, so arithmetic on bytes picks a family member.
-/

namespace StackCode

/-- The first byte of an instruction. -/
abbrev Opcode := UInt8

/-- The operands that follow an opcode. -/
inductive Operands where
  | plain
  | byte
  | register
  | short
  | int
  | field
  /-- operands that only one instruction has -/
  | other
deriving DecidableEq, Repr, Inhabited

/-- What an instruction does to the operand stack. -/
inductive Effect where
  /-- discards words -/
  | pop (words : Nat)
  /-- replaces words by a value -/
  | trade (words : Nat) (pushed : Kind)
  /-- copies the top `words` words below the `under` words beneath them -/
  | dup (words under : Nat)
  /-- exchanges the two top words -/
  | swap
  /-- discards words and does not fall through -/
  | leave (words : Nat)
deriving DecidableEq, Repr, Inhabited

namespace Effect

/-- The words that must be on the stack. -/
def needs : Effect → Nat
  | pop n | trade n _ | leave n => n
  | dup w u => w + u
  | swap => 2

end Effect

namespace Opcode

/-- What is known of an opcode. -/
structure Row where
  mnemonic : String
  length : Nat
  operands : Operands
  effect : Effect
deriving DecidableEq, Repr, Inhabited

/-- The instruction set, indexed by opcode. -/
def rows : Array (Option Row) := #[
  some ⟨"nop", 1, .plain, .pop 0⟩,
  some ⟨"aconst_null", 1, .plain, .trade 0 .object⟩,
  some ⟨"iconst_m1", 1, .plain, .trade 0 .int⟩,
  some ⟨"iconst_0", 1, .plain, .trade 0 .int⟩,
  some ⟨"iconst_1", 1, .plain, .trade 0 .int⟩,
  some ⟨"iconst_2", 1, .plain, .trade 0 .int⟩,
  some ⟨"iconst_3", 1, .plain, .trade 0 .int⟩,
  some ⟨"iconst_4", 1, .plain, .trade 0 .int⟩,
  some ⟨"iconst_5", 1, .plain, .trade 0 .int⟩,
  some ⟨"lconst_0", 1, .plain, .trade 0 .long⟩,
  some ⟨"lconst_1", 1, .plain, .trade 0 .long⟩,
  some ⟨"fconst_0", 1, .plain, .trade 0 .float⟩,
  some ⟨"fconst_1", 1, .plain, .trade 0 .float⟩,
  some ⟨"fconst_2", 1, .plain, .trade 0 .float⟩,
  some ⟨"dconst_0", 1, .plain, .trade 0 .double⟩,
  some ⟨"dconst_1", 1, .plain, .trade 0 .double⟩,
  some ⟨"bipush", 2, .byte, .trade 0 .int⟩,
  some ⟨"sipush", 3, .short, .trade 0 .int⟩,
  some ⟨"ldc", 2, .other, .pop 0⟩,
  some ⟨"ldc_w", 3, .other, .pop 0⟩,
  some ⟨"ldc2_w", 3, .other, .pop 0⟩,
  some ⟨"iload", 2, .register, .trade 0 .int⟩,
  some ⟨"lload", 2, .register, .trade 0 .long⟩,
  some ⟨"fload", 2, .register, .trade 0 .float⟩,
  some ⟨"dload", 2, .register, .trade 0 .double⟩,
  some ⟨"aload", 2, .register, .trade 0 .object⟩,
  some ⟨"iload_0", 1, .plain, .trade 0 .int⟩,
  some ⟨"iload_1", 1, .plain, .trade 0 .int⟩,
  some ⟨"iload_2", 1, .plain, .trade 0 .int⟩,
  some ⟨"iload_3", 1, .plain, .trade 0 .int⟩,
  some ⟨"lload_0", 1, .plain, .trade 0 .long⟩,
  some ⟨"lload_1", 1, .plain, .trade 0 .long⟩,
  some ⟨"lload_2", 1, .plain, .trade 0 .long⟩,
  some ⟨"lload_3", 1, .plain, .trade 0 .long⟩,
  some ⟨"fload_0", 1, .plain, .trade 0 .float⟩,
  some ⟨"fload_1", 1, .plain, .trade 0 .float⟩,
  some ⟨"fload_2", 1, .plain, .trade 0 .float⟩,
  some ⟨"fload_3", 1, .plain, .trade 0 .float⟩,
  some ⟨"dload_0", 1, .plain, .trade 0 .double⟩,
  some ⟨"dload_1", 1, .plain, .trade 0 .double⟩,
  some ⟨"dload_2", 1, .plain, .trade 0 .double⟩,
  some ⟨"dload_3", 1, .plain, .trade 0 .double⟩,
  some ⟨"aload_0", 1, .plain, .trade 0 .object⟩,
  some ⟨"aload_1", 1, .plain, .trade 0 .object⟩,
  some ⟨"aload_2", 1, .plain, .trade 0 .object⟩,
  some ⟨"aload_3", 1, .plain, .trade 0 .object⟩,
  some ⟨"iaload", 1, .plain, .trade 2 .int⟩,
  some ⟨"laload", 1, .plain, .trade 2 .long⟩,
  some ⟨"faload", 1, .plain, .trade 2 .float⟩,
  some ⟨"daload", 1, .plain, .trade 2 .double⟩,
  some ⟨"aaload", 1, .plain, .trade 2 .object⟩,
  some ⟨"baload", 1, .plain, .trade 2 .int⟩,
  some ⟨"caload", 1, .plain, .trade 2 .int⟩,
  some ⟨"saload", 1, .plain, .trade 2 .int⟩,
  some ⟨"istore", 2, .register, .pop 1⟩,
  some ⟨"lstore", 2, .register, .pop 2⟩,
  some ⟨"fstore", 2, .register, .pop 1⟩,
  some ⟨"dstore", 2, .register, .pop 2⟩,
  some ⟨"astore", 2, .register, .pop 1⟩,
  some ⟨"istore_0", 1, .plain, .pop 1⟩,
  some ⟨"istore_1", 1, .plain, .pop 1⟩,
  some ⟨"istore_2", 1, .plain, .pop 1⟩,
  some ⟨"istore_3", 1, .plain, .pop 1⟩,
  some ⟨"lstore_0", 1, .plain, .pop 2⟩,
  some ⟨"lstore_1", 1, .plain, .pop 2⟩,
  some ⟨"lstore_2", 1, .plain, .pop 2⟩,
  some ⟨"lstore_3", 1, .plain, .pop 2⟩,
  some ⟨"fstore_0", 1, .plain, .pop 1⟩,
  some ⟨"fstore_1", 1, .plain, .pop 1⟩,
  some ⟨"fstore_2", 1, .plain, .pop 1⟩,
  some ⟨"fstore_3", 1, .plain, .pop 1⟩,
  some ⟨"dstore_0", 1, .plain, .pop 2⟩,
  some ⟨"dstore_1", 1, .plain, .pop 2⟩,
  some ⟨"dstore_2", 1, .plain, .pop 2⟩,
  some ⟨"dstore_3", 1, .plain, .pop 2⟩,
  some ⟨"astore_0", 1, .plain, .pop 1⟩,
  some ⟨"astore_1", 1, .plain, .pop 1⟩,
  some ⟨"astore_2", 1, .plain, .pop 1⟩,
  some ⟨"astore_3", 1, .plain, .pop 1⟩,
  some ⟨"iastore", 1, .plain, .pop 3⟩,
  some ⟨"lastore", 1, .plain, .pop 4⟩,
  some ⟨"fastore", 1, .plain, .pop 3⟩,
  some ⟨"dastore", 1, .plain, .pop 4⟩,
  some ⟨"aastore", 1, .plain, .pop 3⟩,
  some ⟨"bastore", 1, .plain, .pop 3⟩,
  some ⟨"castore", 1, .plain, .pop 3⟩,
  some ⟨"sastore", 1, .plain, .pop 3⟩,
  some ⟨"pop", 1, .plain, .pop 1⟩,
  some ⟨"pop2", 1, .plain, .pop 2⟩,
  some ⟨"dup", 1, .plain, .dup 1 0⟩,
  some ⟨"dup_x1", 1, .plain, .dup 1 1⟩,
  some ⟨"dup_x2", 1, .plain, .dup 1 2⟩,
  some ⟨"dup2", 1, .plain, .dup 2 0⟩,
  some ⟨"dup2_x1", 1, .plain, .dup 2 1⟩,
  some ⟨"dup2_x2", 1, .plain, .dup 2 2⟩,
  some ⟨"swap", 1, .plain, .swap⟩,
  some ⟨"iadd", 1, .plain, .trade 2 .int⟩,
  some ⟨"ladd", 1, .plain, .trade 4 .long⟩,
  some ⟨"fadd", 1, .plain, .trade 2 .float⟩,
  some ⟨"dadd", 1, .plain, .trade 4 .double⟩,
  some ⟨"isub", 1, .plain, .trade 2 .int⟩,
  some ⟨"lsub", 1, .plain, .trade 4 .long⟩,
  some ⟨"fsub", 1, .plain, .trade 2 .float⟩,
  some ⟨"dsub", 1, .plain, .trade 4 .double⟩,
  some ⟨"imul", 1, .plain, .trade 2 .int⟩,
  some ⟨"lmul", 1, .plain, .trade 4 .long⟩,
  some ⟨"fmul", 1, .plain, .trade 2 .float⟩,
  some ⟨"dmul", 1, .plain, .trade 4 .double⟩,
  some ⟨"idiv", 1, .plain, .trade 2 .int⟩,
  some ⟨"ldiv", 1, .plain, .trade 4 .long⟩,
  some ⟨"fdiv", 1, .plain, .trade 2 .float⟩,
  some ⟨"ddiv", 1, .plain, .trade 4 .double⟩,
  some ⟨"irem", 1, .plain, .trade 2 .int⟩,
  some ⟨"lrem", 1, .plain, .trade 4 .long⟩,
  some ⟨"frem", 1, .plain, .trade 2 .float⟩,
  some ⟨"drem", 1, .plain, .trade 4 .double⟩,
  some ⟨"ineg", 1, .plain, .trade 1 .int⟩,
  some ⟨"lneg", 1, .plain, .trade 2 .long⟩,
  some ⟨"fneg", 1, .plain, .trade 1 .float⟩,
  some ⟨"dneg", 1, .plain, .trade 2 .double⟩,
  some ⟨"ishl", 1, .plain, .trade 2 .int⟩,
  some ⟨"lshl", 1, .plain, .trade 3 .long⟩,
  some ⟨"ishr", 1, .plain, .trade 2 .int⟩,
  some ⟨"lshr", 1, .plain, .trade 3 .long⟩,
  some ⟨"iushr", 1, .plain, .trade 2 .int⟩,
  some ⟨"lushr", 1, .plain, .trade 3 .long⟩,
  some ⟨"iand", 1, .plain, .trade 2 .int⟩,
  some ⟨"land", 1, .plain, .trade 4 .long⟩,
  some ⟨"ior", 1, .plain, .trade 2 .int⟩,
  some ⟨"lor", 1, .plain, .trade 4 .long⟩,
  some ⟨"ixor", 1, .plain, .trade 2 .int⟩,
  some ⟨"lxor", 1, .plain, .trade 4 .long⟩,
  some ⟨"iinc", 3, .other, .pop 0⟩,
  some ⟨"i2l", 1, .plain, .trade 1 .long⟩,
  some ⟨"i2f", 1, .plain, .trade 1 .float⟩,
  some ⟨"i2d", 1, .plain, .trade 1 .double⟩,
  some ⟨"l2i", 1, .plain, .trade 2 .int⟩,
  some ⟨"l2f", 1, .plain, .trade 2 .float⟩,
  some ⟨"l2d", 1, .plain, .trade 2 .double⟩,
  some ⟨"f2i", 1, .plain, .trade 1 .int⟩,
  some ⟨"f2l", 1, .plain, .trade 1 .long⟩,
  some ⟨"f2d", 1, .plain, .trade 1 .double⟩,
  some ⟨"d2i", 1, .plain, .trade 2 .int⟩,
  some ⟨"d2l", 1, .plain, .trade 2 .long⟩,
  some ⟨"d2f", 1, .plain, .trade 2 .float⟩,
  some ⟨"i2b", 1, .plain, .trade 1 .int⟩,
  some ⟨"i2c", 1, .plain, .trade 1 .int⟩,
  some ⟨"i2s", 1, .plain, .trade 1 .int⟩,
  some ⟨"lcmp", 1, .plain, .trade 4 .int⟩,
  some ⟨"fcmpl", 1, .plain, .trade 2 .int⟩,
  some ⟨"fcmpg", 1, .plain, .trade 2 .int⟩,
  some ⟨"dcmpl", 1, .plain, .trade 4 .int⟩,
  some ⟨"dcmpg", 1, .plain, .trade 4 .int⟩,
  some ⟨"ifeq", 3, .short, .pop 1⟩,
  some ⟨"ifne", 3, .short, .pop 1⟩,
  some ⟨"iflt", 3, .short, .pop 1⟩,
  some ⟨"ifge", 3, .short, .pop 1⟩,
  some ⟨"ifgt", 3, .short, .pop 1⟩,
  some ⟨"ifle", 3, .short, .pop 1⟩,
  some ⟨"if_icmpeq", 3, .short, .pop 2⟩,
  some ⟨"if_icmpne", 3, .short, .pop 2⟩,
  some ⟨"if_icmplt", 3, .short, .pop 2⟩,
  some ⟨"if_icmpge", 3, .short, .pop 2⟩,
  some ⟨"if_icmpgt", 3, .short, .pop 2⟩,
  some ⟨"if_icmple", 3, .short, .pop 2⟩,
  some ⟨"if_acmpeq", 3, .short, .pop 2⟩,
  some ⟨"if_acmpne", 3, .short, .pop 2⟩,
  some ⟨"goto", 3, .short, .leave 0⟩,
  some ⟨"jsr", 3, .short, .pop 0⟩,
  some ⟨"ret", 2, .register, .leave 0⟩,
  some ⟨"tableswitch", 0, .plain, .pop 1⟩,
  some ⟨"lookupswitch", 0, .plain, .pop 1⟩,
  some ⟨"ireturn", 1, .plain, .leave 1⟩,
  some ⟨"lreturn", 1, .plain, .leave 2⟩,
  some ⟨"freturn", 1, .plain, .leave 1⟩,
  some ⟨"dreturn", 1, .plain, .leave 2⟩,
  some ⟨"areturn", 1, .plain, .leave 1⟩,
  some ⟨"return", 1, .plain, .leave 0⟩,
  some ⟨"getstatic", 3, .field, .pop 0⟩,
  some ⟨"putstatic", 3, .field, .pop 0⟩,
  some ⟨"getfield", 3, .field, .pop 0⟩,
  some ⟨"putfield", 3, .field, .pop 0⟩,
  some ⟨"invokevirtual", 3, .other, .pop 0⟩,
  some ⟨"invokespecial", 3, .other, .pop 0⟩,
  some ⟨"invokestatic", 3, .other, .pop 0⟩,
  some ⟨"invokeinterface", 5, .other, .pop 0⟩,
  none,
  some ⟨"new", 3, .short, .trade 0 .object⟩,
  some ⟨"newarray", 2, .byte, .trade 1 .object⟩,
  some ⟨"anewarray", 3, .short, .trade 1 .object⟩,
  some ⟨"arraylength", 1, .plain, .trade 1 .int⟩,
  some ⟨"athrow", 1, .plain, .leave 1⟩,
  some ⟨"checkcast", 3, .short, .trade 1 .object⟩,
  some ⟨"instanceof", 3, .short, .trade 1 .int⟩,
  some ⟨"monitorenter", 1, .plain, .pop 1⟩,
  some ⟨"monitorexit", 1, .plain, .pop 1⟩,
  some ⟨"wide", 0, .other, .pop 0⟩,
  some ⟨"multianewarray", 4, .other, .pop 0⟩,
  some ⟨"ifnull", 3, .short, .pop 1⟩,
  some ⟨"ifnonnull", 3, .short, .pop 1⟩,
  some ⟨"goto_w", 5, .int, .leave 0⟩,
  some ⟨"jsr_w", 5, .int, .pop 0⟩]

def row? (op : Opcode) : Option Row := (rows[op.toNat]?).join

/-- The mnemonic of an opcode, question marks for an undefined one. -/
def mnemonic (op : Opcode) : String := (op.row?.map Row.mnemonic).getD "???"

/-- The encoded length of an opcode, 0 where it varies. -/
def length? (op : Opcode) : Option Nat := op.row?.map Row.length

/-- The opcode with a mnemonic. -/
def ofMnemonic? (name : String) : Option Opcode :=
  (rows.findIdx? fun r => r.any (·.mnemonic == name)).map UInt8.ofNat

def nop : Opcode := 0x00
def aconstNull : Opcode := 0x01
def iconstM1 : Opcode := 0x02
def iconst0 : Opcode := 0x03
def iconst1 : Opcode := 0x04
def iconst2 : Opcode := 0x05
def iconst3 : Opcode := 0x06
def iconst4 : Opcode := 0x07
def iconst5 : Opcode := 0x08
def lconst0 : Opcode := 0x09
def lconst1 : Opcode := 0x0a
def fconst0 : Opcode := 0x0b
def fconst1 : Opcode := 0x0c
def fconst2 : Opcode := 0x0d
def dconst0 : Opcode := 0x0e
def dconst1 : Opcode := 0x0f
def bipush : Opcode := 0x10
def sipush : Opcode := 0x11
def ldc : Opcode := 0x12
def ldcW : Opcode := 0x13
def ldc2W : Opcode := 0x14
def iload : Opcode := 0x15
def lload : Opcode := 0x16
def fload : Opcode := 0x17
def dload : Opcode := 0x18
def aload : Opcode := 0x19
def iload0 : Opcode := 0x1a
def iload1 : Opcode := 0x1b
def iload2 : Opcode := 0x1c
def iload3 : Opcode := 0x1d
def lload0 : Opcode := 0x1e
def lload1 : Opcode := 0x1f
def lload2 : Opcode := 0x20
def lload3 : Opcode := 0x21
def fload0 : Opcode := 0x22
def fload1 : Opcode := 0x23
def fload2 : Opcode := 0x24
def fload3 : Opcode := 0x25
def dload0 : Opcode := 0x26
def dload1 : Opcode := 0x27
def dload2 : Opcode := 0x28
def dload3 : Opcode := 0x29
def aload0 : Opcode := 0x2a
def aload1 : Opcode := 0x2b
def aload2 : Opcode := 0x2c
def aload3 : Opcode := 0x2d
def iaload : Opcode := 0x2e
def laload : Opcode := 0x2f
def faload : Opcode := 0x30
def daload : Opcode := 0x31
def aaload : Opcode := 0x32
def baload : Opcode := 0x33
def caload : Opcode := 0x34
def saload : Opcode := 0x35
def istore : Opcode := 0x36
def lstore : Opcode := 0x37
def fstore : Opcode := 0x38
def dstore : Opcode := 0x39
def astore : Opcode := 0x3a
def istore0 : Opcode := 0x3b
def istore1 : Opcode := 0x3c
def istore2 : Opcode := 0x3d
def istore3 : Opcode := 0x3e
def lstore0 : Opcode := 0x3f
def lstore1 : Opcode := 0x40
def lstore2 : Opcode := 0x41
def lstore3 : Opcode := 0x42
def fstore0 : Opcode := 0x43
def fstore1 : Opcode := 0x44
def fstore2 : Opcode := 0x45
def fstore3 : Opcode := 0x46
def dstore0 : Opcode := 0x47
def dstore1 : Opcode := 0x48
def dstore2 : Opcode := 0x49
def dstore3 : Opcode := 0x4a
def astore0 : Opcode := 0x4b
def astore1 : Opcode := 0x4c
def astore2 : Opcode := 0x4d
def astore3 : Opcode := 0x4e
def iastore : Opcode := 0x4f
def lastore : Opcode := 0x50
def fastore : Opcode := 0x51
def dastore : Opcode := 0x52
def aastore : Opcode := 0x53
def bastore : Opcode := 0x54
def castore : Opcode := 0x55
def sastore : Opcode := 0x56
def pop : Opcode := 0x57
def pop2 : Opcode := 0x58
def dup : Opcode := 0x59
def dupX1 : Opcode := 0x5a
def dupX2 : Opcode := 0x5b
def dup2 : Opcode := 0x5c
def dup2X1 : Opcode := 0x5d
def dup2X2 : Opcode := 0x5e
def swap : Opcode := 0x5f
def iadd : Opcode := 0x60
def ladd : Opcode := 0x61
def fadd : Opcode := 0x62
def dadd : Opcode := 0x63
def isub : Opcode := 0x64
def lsub : Opcode := 0x65
def fsub : Opcode := 0x66
def dsub : Opcode := 0x67
def imul : Opcode := 0x68
def lmul : Opcode := 0x69
def fmul : Opcode := 0x6a
def dmul : Opcode := 0x6b
def idiv : Opcode := 0x6c
def ldiv : Opcode := 0x6d
def fdiv : Opcode := 0x6e
def ddiv : Opcode := 0x6f
def irem : Opcode := 0x70
def lrem : Opcode := 0x71
def frem : Opcode := 0x72
def drem : Opcode := 0x73
def ineg : Opcode := 0x74
def lneg : Opcode := 0x75
def fneg : Opcode := 0x76
def dneg : Opcode := 0x77
def ishl : Opcode := 0x78
def lshl : Opcode := 0x79
def ishr : Opcode := 0x7a
def lshr : Opcode := 0x7b
def iushr : Opcode := 0x7c
def lushr : Opcode := 0x7d
def iand : Opcode := 0x7e
def land : Opcode := 0x7f
def ior : Opcode := 0x80
def lor : Opcode := 0x81
def ixor : Opcode := 0x82
def lxor : Opcode := 0x83
def iinc : Opcode := 0x84
def i2l : Opcode := 0x85
def i2f : Opcode := 0x86
def i2d : Opcode := 0x87
def l2i : Opcode := 0x88
def l2f : Opcode := 0x89
def l2d : Opcode := 0x8a
def f2i : Opcode := 0x8b
def f2l : Opcode := 0x8c
def f2d : Opcode := 0x8d
def d2i : Opcode := 0x8e
def d2l : Opcode := 0x8f
def d2f : Opcode := 0x90
def i2b : Opcode := 0x91
def i2c : Opcode := 0x92
def i2s : Opcode := 0x93
def lcmp : Opcode := 0x94
def fcmpl : Opcode := 0x95
def fcmpg : Opcode := 0x96
def dcmpl : Opcode := 0x97
def dcmpg : Opcode := 0x98
def ifeq : Opcode := 0x99
def ifne : Opcode := 0x9a
def iflt : Opcode := 0x9b
def ifge : Opcode := 0x9c
def ifgt : Opcode := 0x9d
def ifle : Opcode := 0x9e
def ifIcmpeq : Opcode := 0x9f
def ifIcmpne : Opcode := 0xa0
def ifIcmplt : Opcode := 0xa1
def ifIcmpge : Opcode := 0xa2
def ifIcmpgt : Opcode := 0xa3
def ifIcmple : Opcode := 0xa4
def ifAcmpeq : Opcode := 0xa5
def ifAcmpne : Opcode := 0xa6
def goto : Opcode := 0xa7
def jsr : Opcode := 0xa8
def ret : Opcode := 0xa9
def tableswitch : Opcode := 0xaa
def lookupswitch : Opcode := 0xab
def ireturn : Opcode := 0xac
def lreturn : Opcode := 0xad
def freturn : Opcode := 0xae
def dreturn : Opcode := 0xaf
def areturn : Opcode := 0xb0
def vreturn : Opcode := 0xb1
def getstatic : Opcode := 0xb2
def putstatic : Opcode := 0xb3
def getfield : Opcode := 0xb4
def putfield : Opcode := 0xb5
def invokevirtual : Opcode := 0xb6
def invokespecial : Opcode := 0xb7
def invokestatic : Opcode := 0xb8
def invokeinterface : Opcode := 0xb9
def newObject : Opcode := 0xbb
def newarray : Opcode := 0xbc
def anewarray : Opcode := 0xbd
def arraylength : Opcode := 0xbe
def athrow : Opcode := 0xbf
def checkcast : Opcode := 0xc0
def instanceOf : Opcode := 0xc1
def monitorenter : Opcode := 0xc2
def monitorexit : Opcode := 0xc3
def wide : Opcode := 0xc4
def multianewarray : Opcode := 0xc5
def ifnull : Opcode := 0xc6
def ifnonnull : Opcode := 0xc7
def gotoW : Opcode := 0xc8
def jsrW : Opcode := 0xc9

/-- The opcode of a condition that never holds. It shares the byte of a
subroutine call, which is never a condition. -/
def never : Opcode := jsr

/-- The branch that is taken exactly when `op` is not. Opposite branches are
neighbours, the lower one odd. -/
def negate (op : Opcode) : Opcode :=
  if op = ifnull then ifnonnull
  else if op = ifnonnull then ifnull
  else ((op + 1) ^^^ 1) - 1

/-- Whether the instruction branches on a condition. -/
def isConditional (op : Opcode) : Bool :=
  (ifeq ≤ op && op ≤ ifAcmpne) || op == ifnull || op == ifnonnull

/-- Whether the instruction has a branch offset. -/
def isBranch (op : Opcode) : Bool :=
  (ifeq ≤ op && op ≤ jsr) || op == ifnull || op == ifnonnull || op == gotoW || op == jsrW

end Opcode

end StackCode
