import Mathlib.Data.List.Forall2
import StackCode.Item.Access
import StackCode.Proofs.Jumps

/-!
# Reading back what was written

The writers of the buffer and `Instruction.decode` know the forms of instructions
independently of each other. They agree (`Emit.decode_performed`): after any calls of the
writers that succeed on a live buffer, decoding gives back the instructions that were asked
for, one after the other from the start of the code to its end, each with its opcode, its
length, its wide mark and its register. Switches are left out, since they are not written by
one call.

`Call.forms` says what a call asks for. Both sides meet in the bytes: `Encodes enc fs` says
that wherever the bytes `enc` stand, decoding reads the instructions `fs`.
-/

namespace StackCode

open Instruction

/-- An instruction that is asked for, with the register that is passed, if one is. -/
structure Form where
  op : Opcode
  length : Nat
  wide : Bool := false
  reg : Option UInt16 := none

namespace Form

/-- The instruction at `pc`. -/
def ins (f : Form) (pc : Nat) : Instruction := ⟨pc, f.op, f.length, f.wide⟩

/-- The instructions one behind the other, from `pc` on. -/
def row : Nat → List Form → List Instruction
  | _, [] => []
  | pc, f :: fs => f.ins pc :: row (pc + f.length) fs

/-- Where the last of the instructions ends. -/
def stop : Nat → List Form → Nat
  | pc, [] => pc
  | pc, f :: fs => stop (pc + f.length) fs

/-- An instruction on a register, which needs the wide prefix above 255. -/
def onRegister (op : Opcode) (reg : UInt16) : Form :=
  if 0xFF < reg then ⟨op, 4, true, some reg⟩ else ⟨op, 2, false, some reg⟩

/-- An instruction on a local variable: one byte for the first four registers. -/
def onLocal (family short : Opcode) (k : Kind) (reg : UInt16) : Form :=
  if reg ≤ 3 then ⟨short + k.widen.code * 4 + reg.toUInt8, 1, false, some reg⟩
  else onRegister (family + k.widen.code) reg

end Form

/-- A call that writes instructions. -/
inductive Call where
  | plain (op : Opcode)
  | byte (op : Opcode) (b : UInt8)
  | register (op : Opcode) (reg : UInt16)
  | iinc (reg : UInt16) (delta : Int16)
  | short (op : Opcode) (w : UInt16)
  | ldc (index : UInt16) (k : Kind)
  | field (op : Opcode) (index : UInt16) (k : Kind)
  | invoke (op : Opcode) (index : UInt16) (words : Nat) (k : Kind)
  | multiarray (dims : UInt8) (index : UInt16)
  | branch (op : Opcode)
  | load (k : Kind) (reg : UInt16)
  | store (k : Kind) (reg : UInt16)

namespace Call

/-- What the call does. -/
def run : Call → Asm Unit
  | plain op => Emit.plain op
  | byte op b => Emit.byte op b
  | register op reg => Emit.register op reg
  | iinc reg delta => Emit.iinc reg delta
  | short op w => Emit.short op w
  | ldc index k => Emit.ldc index k
  | field op index k => Emit.field op index k
  | invoke op index words k => Emit.invoke op index words k
  | multiarray dims index => Emit.multiarray dims index
  | branch op => do let _ ← Emit.branch op
  | load k reg => do let _ ← (Item.var k reg).load
  | store k reg => (Item.var k reg).store

/-- Which calls are meant: plain instructions other than switches, calls of methods, branches
with `goto` or on a condition, and variables that hold a value. -/
def Meant : Call → Prop
  | plain op => op ≠ .tableswitch ∧ op ≠ .lookupswitch
  | invoke op _ _ _ =>
    op = .invokevirtual ∨ op = .invokespecial ∨ op = .invokestatic ∨ op = .invokeinterface
  | branch op => op = .goto ∨ op.isConditional = true
  | load k _ | store k _ => k ≠ .void
  | _ => True

/-- The instructions that the call asks for. With wide jumps, a branch on a condition is the
opposite branch and a wide `goto`. -/
def forms (far : Bool) : Call → List Form
  | plain op => [{ op, length := 1 }]
  | byte op _ => [{ op, length := 2 }]
  | register op reg => [.onRegister op reg]
  | iinc reg delta =>
    if 0xFF < reg ∨ delta < -128 ∨ 127 < delta then [⟨.iinc, 6, true, some reg⟩]
    else [⟨.iinc, 3, false, some reg⟩]
  | short op _ => [{ op, length := 3 }]
  | ldc index k =>
    if k = .long ∨ k = .double then [{ op := .ldc2W, length := 3 }]
    else if index ≤ 0xFF then [{ op := .ldc, length := 2 }]
    else [{ op := .ldcW, length := 3 }]
  | field op _ _ => [{ op, length := 3 }]
  | invoke op _ _ _ => [{ op, length := if op = .invokeinterface then 5 else 3 }]
  | multiarray _ _ => [{ op := .multianewarray, length := 4 }]
  | branch op =>
    if far then
      if op = .goto then [{ op := .gotoW, length := 5 }]
      else [{ op := op.negate, length := 3 }, { op := .gotoW, length := 5 }]
    else [{ op, length := 3 }]
  | load k reg => [.onLocal .iload .iload0 k reg]
  | store k reg => [.onLocal .istore .istore0 k reg]

end Call

/-- The calls succeed one after the other, each on a buffer that is live. -/
inductive Performed : Assembly → List Call → Assembly → Prop
  | nil {s : Assembly} : Performed s [] s
  | cons {s s₁ s₂ : Assembly} {call : Call} {calls : List Call}
      (live : s.code.reachable = true) (first : call.run s = .ok () s₁)
      (later : Performed s₁ calls s₂) : Performed s (call :: calls) s₂

/-! ### Bytes and instructions -/

/-- The bytes `enc` stand at `pc`. -/
def Holds (a : Array UInt8) (pc : Nat) (enc : Array UInt8) : Prop :=
  ∀ i < enc.size, a[pc + i]? = enc[i]?

theorem holds_append_iff {a enc enc' : Array UInt8} {pc : Nat} :
    Holds a pc (enc ++ enc') ↔ Holds a pc enc ∧ Holds a (pc + enc.size) enc' := by
  constructor
  · intro h
    refine ⟨fun i hi => ?_, fun i hi => ?_⟩
    · rw [h i (by rw [Array.size_append]; omega), Array.getElem?_append_left hi]
    · rw [Nat.add_assoc, h _ (by rw [Array.size_append]; omega),
        Array.getElem?_append_right (Nat.le_add_right _ _), Nat.add_sub_cancel_left]
  · rintro ⟨h, h'⟩ i hi
    rw [Array.size_append] at hi
    by_cases hlt : i < enc.size
    · rw [h i hlt, Array.getElem?_append_left hlt]
    · rw [Array.getElem?_append_right (by omega), ← h' (i - enc.size) (by omega)]
      congr 1
      omega

theorem Instruction.register?_narrow {i : Instruction} {a : Array UInt8} {b : UInt8}
    (hop : hasRegister i.op = true) (hwide : i.wide = false) (hb : a[i.pc + 1]? = some b) :
    i.register? a = .ok (some b.toNat) := by
  unfold register?
  rw [if_pos hop, hwide, if_neg Bool.false_ne_true, byteAt_eq_ok.mpr hb]
  rfl

theorem Instruction.register?_wide {i : Instruction} {a : Array UInt8} {hi lo : UInt8}
    (hop : hasRegister i.op = true) (hwide : i.wide = true) (hhi : a[i.pc + 2]? = some hi)
    (hlo : a[i.pc + 3]? = some lo) :
    i.register? a = .ok (some (hi.toNat * 0x100 + lo.toNat)) := by
  unfold register?
  rw [if_pos hop, if_pos hwide, byteAt_eq_ok.mpr hhi, byteAt_eq_ok.mpr hlo]
  rfl

namespace Opcode

theorem hasRegister_of_takes :
    ∀ op, ∀ row ∈ row? op, row.operands = .register → hasRegister op = true := by
  apply forall_row
  decide +kernel

/-- The opcode of a variable in one of the first four registers names the register. -/
def Names (op : Opcode) (r : Nat) : Prop :=
  op.length? = some 1 ∧ hasRegister op = false ∧
    ((iload0 ≤ op && op ≤ aload3) = true ∧ (op - iload0).toNat % 4 = r ∨
      (iload0 ≤ op && op ≤ aload3) = false ∧ (istore0 ≤ op && op ≤ astore3) = true ∧
        (op - istore0).toNat % 4 = r)

instance (op : Opcode) (r : Nat) : Decidable (op.Names r) := inferInstanceAs (Decidable (_ ∧ _))

theorem names_load {k : Kind} (hk : k ≠ .void) {r : Nat} (hr : r < 4) :
    (iload0 + k.widen.code * 4 + UInt8.ofNat r).Names r := by
  have hall : k ≠ .void → ∀ r < 4, (iload0 + k.widen.code * 4 + UInt8.ofNat r).Names r := by
    cases k <;> decide +kernel
  exact hall hk r hr

theorem names_store {k : Kind} (hk : k ≠ .void) {r : Nat} (hr : r < 4) :
    (istore0 + k.widen.code * 4 + UInt8.ofNat r).Names r := by
  have hall : k ≠ .void → ∀ r < 4, (istore0 + k.widen.code * 4 + UInt8.ofNat r).Names r := by
    cases k <;> decide +kernel
  exact hall hk r hr

theorem Names.register {op : Opcode} {r : Nat} (h : op.Names r) {i : Instruction} (hop : i.op = op)
    (a : Array UInt8) : i.register? a = .ok (some r) := by
  obtain ⟨-, hno, hrange⟩ := h
  unfold register?
  rw [hop, if_neg (by rw [hno]; exact Bool.false_ne_true)]
  rcases hrange with ⟨hload, hr⟩ | ⟨hload, hstore, hr⟩
  · rw [if_pos hload, hr]
    rfl
  · rw [if_neg (by rw [hload]; exact Bool.false_ne_true), if_pos hstore, hr]
    rfl

end Opcode

/-- The instruction is read at `pc`, with its register. -/
structure Form.Reads (a : Array UInt8) (pc : Nat) (f : Form) : Prop where
  decodes : decodeAt a pc = .ok (f.ins pc)
  register : ∀ reg, f.reg = some reg → (f.ins pc).register? a = .ok (some reg.toNat)

/-- The instructions are read one behind the other, from `pc` up to `stop`. -/
def Reads (a : Array UInt8) : Nat → List Form → Nat → Prop
  | pc, [], stop => pc = stop
  | pc, f :: fs, stop => f.Reads a pc ∧ Reads a (pc + f.length) fs stop

namespace Reads

variable {a : Array UInt8} {lo mid hi : Nat} {fs gs : List Form}

theorem append (h : Reads a lo fs mid) (h' : Reads a mid gs hi) : Reads a lo (fs ++ gs) hi := by
  induction fs generalizing lo with
  | nil =>
      cases h
      exact h'
  | cons f fs ih => exact ⟨h.1, ih h.2⟩

theorem stop_eq (h : Reads a lo fs hi) : Form.stop lo fs = hi := by
  induction fs generalizing lo with
  | nil => exact h
  | cons f fs ih => exact ih h.2

/-- The bytes left are enough fuel for the instructions left. -/
theorem decodeFrom_eq (h : Reads a lo fs a.size) {left : Nat} (hleft : a.size ≤ lo + left)
    (read : List Instruction) :
    decodeFrom a left lo read = .ok (read.reverse ++ Form.row lo fs) := by
  induction fs generalizing lo left read with
  | nil =>
      obtain rfl : lo = a.size := h
      rw [Form.row, List.append_nil]
      cases left with
      | zero => rfl
      | succ left => rw [decodeFrom, if_neg (Nat.lt_irrefl _)]
  | cons f fs ih =>
      have hpos : 0 < f.length := length_pos_of_decodeAt h.1.decodes
      have hle : lo + f.length ≤ a.size := le_size_of_decodeAt h.1.decodes
      cases left with
      | zero => omega
      | succ left =>
          rw [decodeFrom, if_pos (by omega), h.1.decodes]
          refine (ih h.2 (by omega) _).trans ?_
          rw [List.reverse_cons, List.append_assoc]
          rfl

theorem registers (h : Reads a lo fs hi) :
    List.Forall₂ (fun f i => ∀ reg, f.reg = some reg → i.register? a = .ok (some reg.toNat))
      fs (Form.row lo fs) := by
  induction fs generalizing lo with
  | nil => exact .nil
  | cons f fs ih => exact .cons h.1.register (ih h.2)

theorem decode_eq (h : Reads a 0 fs a.size) : decode a = .ok (Form.row 0 fs) :=
  h.decodeFrom_eq (Nat.le_add_left _ _) []

end Reads

/-- Wherever the bytes `enc` stand, the instructions `fs` are read. -/
def Encodes (enc : Array UInt8) (fs : List Form) : Prop :=
  ∀ a pc, Holds a pc enc → Reads a pc fs (pc + enc.size)

namespace Encodes

theorem append {enc enc' : Array UInt8} {fs gs : List Form} (h : Encodes enc fs)
    (h' : Encodes enc' gs) : Encodes (enc ++ enc') (fs ++ gs) := by
  intro a pc hold
  obtain ⟨hfirst, hrest⟩ := holds_append_iff.mp hold
  have hreads := (h a pc hfirst).append (h' a _ hrest)
  rwa [Nat.add_assoc, ← Array.size_append] at hreads

/-- One instruction, by its shape and its register. -/
theorem one {enc : Array UInt8} {f : Form} (hsize : f.length = enc.size)
    (hshape : ∀ a pc, Holds a pc enc → shapeAt a pc = .ok (f.op, f.length, f.wide))
    (hreg : ∀ a pc, Holds a pc enc → ∀ reg, f.reg = some reg →
      (f.ins pc).register? a = .ok (some reg.toNat)) : Encodes enc [f] := by
  intro a pc hold
  have hfits : pc + f.length ≤ a.size := by
    have hpos := shapeAt_pos (hshape a pc hold)
    have hlast := hold (enc.size - 1) (by omega)
    rw [Array.getElem?_eq_getElem (by omega : enc.size - 1 < enc.size)] at hlast
    have := (Array.getElem?_eq_some_iff.mp hlast).1
    omega
  exact ⟨⟨decodeAt_eq_ok.mpr ⟨_, _, _, hshape a pc hold, hfits, rfl⟩, hreg a pc hold⟩,
    congrArg (pc + ·) hsize⟩

/-- An instruction whose length its opcode tells. -/
theorem fixed {op : Opcode} {operands : Array UInt8} {n : Nat} (hn : n = operands.size + 1)
    (hlen : op.length? = some n) : Encodes (#[op] ++ operands) [{ op, length := n }] := by
  subst hn
  refine one (by simp [Nat.add_comm]) (fun a pc hold => ?_) fun _ _ _ _ h => nomatch h
  exact shapeAt_of_length ((holds_append_iff.mp hold).1 0 Nat.one_pos) hlen

/-- The register in the byte behind the opcode. -/
theorem narrow {op : Opcode} {reg : UInt16} {rest : Array UInt8} {n : Nat}
    (hn : n = rest.size + 2) (hlen : op.length? = some n) (hop : hasRegister op = true)
    (hreg : ¬ 0xFF < reg) :
    Encodes (#[op] ++ (#[reg.toUInt8] ++ rest)) [⟨op, n, false, some reg⟩] := by
  subst hn
  refine one (by simp [Nat.add_comm]) (fun a pc hold => ?_) ?_
  · exact shapeAt_of_length ((holds_append_iff.mp hold).1 0 Nat.one_pos) hlen
  · rintro a pc hold _ ⟨⟩
    have hbyte : a[pc + 1]? = some reg.toUInt8 :=
      (holds_append_iff.mp (holds_append_iff.mp hold).2).1 0 Nat.one_pos
    have hval : reg.toUInt8.toNat = reg.toNat := by
      rw [UInt16.toNat_toUInt8]
      exact Nat.mod_eq_of_lt (Nat.lt_succ_of_le (by simpa [UInt16.lt_iff_toNat_lt] using hreg))
    exact (register?_narrow (i := ⟨pc, op, _, false⟩) hop rfl hbyte).trans (by rw [hval])

/-- The register in the two bytes behind the opcode, which has the wide prefix. -/
theorem wide {op : Opcode} {reg : UInt16} {rest : Array UInt8} {n : Nat}
    (hn : n = rest.size + 4) (hlen : (if op = .iinc then 6 else 4) = n)
    (hop : hasRegister op = true) :
    Encodes (#[Opcode.wide] ++ (#[op] ++ (wordBytes reg ++ rest))) [⟨op, n, true, some reg⟩] := by
  subst hn
  refine one (by simp [wordBytes]; omega) (fun a pc hold => ?_) ?_
  · obtain ⟨hwide, hrest⟩ := holds_append_iff.mp hold
    rw [← hlen]
    exact shapeAt_of_wide (hwide 0 Nat.one_pos) ((holds_append_iff.mp hrest).1 0 Nat.one_pos)
  · rintro a pc hold _ ⟨⟩
    have hword := (holds_append_iff.mp (holds_append_iff.mp (holds_append_iff.mp hold).2).2).1
    have hhi : a[pc + 2]? = some (reg >>> 8).toUInt8 := hword 0 Nat.two_pos
    have hlo : a[pc + 3]? = some reg.toUInt8 := hword 1 Nat.one_lt_two
    exact (register?_wide (i := ⟨pc, op, _, true⟩) hop rfl hhi hlo).trans
      (by rw [toNat_wordBytes])

/-- The register in the opcode itself. -/
theorem single {op : Opcode} {reg : UInt16} (h : op.Names reg.toNat) :
    Encodes #[op] [⟨op, 1, false, some reg⟩] := by
  refine one rfl (fun a pc hold => ?_) ?_
  · exact shapeAt_of_length (hold 0 Nat.one_pos) h.1
  · rintro a pc - _ ⟨⟩
    exact h.register rfl a

end Encodes

/-! ### Calls -/

/-- The second buffer holds the instructions behind the code of the first, and nothing
waits for what comes next. -/
structure Code.Appends (c : Code) (fs : List Form) (c' : Code) : Prop where
  bytes : ∃ enc, Encodes enc fs ∧ c'.bytes = c.bytes ++ enc
  pending : c'.pending = []
  wide : c'.wide = c.wide

namespace Emit

variable {c c' : Code}

theorem Writes.appends {x : Emit Unit} {enc : Array UInt8} {e : Effect} {P : Prop} {fs : List Form}
    (hx : Writes x enc e P) (halive : c.alive = true) (hpending : c.pending = [])
    (hrun : x c = .ok () c') (henc : P → Encodes enc fs) : c.Appends fs c' := by
  obtain ⟨c₁, hpend, hcase⟩ := hx c c' hrun
  obtain rfl := resolvePending_nil hpending hpend
  rcases hcase with ⟨hdead, -⟩ | ⟨-, hP, -, rfl⟩
  · rw [halive] at hdead
    cases hdead
  · obtain ⟨line, lines, hline, -⟩ := c₁.markLine_eq
    rw [hline]
    refine ⟨⟨enc, henc hP, ?_⟩, ?_, ?_⟩
    · rw [Code.bytes_applyEffect]
      rfl
    · rw [Code.pending_applyEffect]
      exact hpending
    · rw [Code.wide_applyEffect]
      rfl

theorem appends_plain {op : Opcode} (halive : c.alive = true) (hpending : c.pending = [])
    (hrun : plain op c = .ok () c') (ht : op ≠ .tableswitch) (hl : op ≠ .lookupswitch) :
    c.Appends [{ op, length := 1 }] c' := by
  refine (writes_plain op).appends halive hpending hrun fun ⟨row, hrow, hoperands⟩ => ?_
  obtain ⟨hlen, -⟩ := Opcode.of_takes_plain op row hrow hoperands ht hl
  have hencodes : Encodes (#[op] ++ #[]) [{ op, length := 1 }] :=
    .fixed rfl (by rw [Opcode.length_of_row hrow, hlen])
  simpa using hencodes

/-- An instruction on a register, with the wide prefix or without it. -/
theorem encodes_registerBytes {op : Opcode} (htakes : op.Takes .register) (reg : UInt16) :
    Encodes (registerBytes op reg) [.onRegister op reg] := by
  obtain ⟨row, hrow, hoperands⟩ := htakes
  obtain ⟨hlen, -, -, hiinc⟩ := Opcode.of_takes_register op row hrow hoperands
  have hop := Opcode.hasRegister_of_takes op row hrow hoperands
  unfold registerBytes Form.onRegister
  split
  · have h : Encodes (#[Opcode.wide] ++ (#[op] ++ (wordBytes reg ++ #[])))
        [⟨op, 4, true, some reg⟩] :=
      .wide rfl (if_neg hiinc) hop
    rwa [Array.append_empty] at h
  · rename_i hreg
    have h : Encodes (#[op] ++ (#[reg.toUInt8] ++ #[])) [⟨op, 2, false, some reg⟩] :=
      .narrow rfl (by rw [Opcode.length_of_row hrow, hlen]) hop hreg
    rwa [Array.append_empty] at h

theorem appends_register {op : Opcode} {reg : UInt16} (halive : c.alive = true)
    (hpending : c.pending = []) (hrun : register op reg c = .ok () c') :
    c.Appends [.onRegister op reg] c' :=
  (writes_register op reg).appends halive hpending hrun fun htakes =>
    encodes_registerBytes htakes reg

theorem appends_iinc {reg : UInt16} {delta : Int16} (halive : c.alive = true)
    (hpending : c.pending = []) (hrun : iinc reg delta c = .ok () c') (far : Bool) :
    c.Appends ((Call.iinc reg delta).forms far) c' := by
  refine (writes_iinc reg delta).appends halive hpending hrun fun _ => ?_
  have hwide : iincWide reg delta = true ↔ 0xFF < reg ∨ delta < -128 ∨ 127 < delta := by
    simp [iincWide, or_assoc]
  unfold iincBytes
  dsimp only [Call.forms]
  by_cases h : iincWide reg delta = true
  · rw [if_pos h, if_pos (hwide.mp h)]
    exact .wide rfl rfl rfl
  · rw [if_neg h, if_neg (mt hwide.mpr h)]
    exact .narrow rfl (by decide +kernel) rfl fun hreg => h (hwide.mpr (.inl hreg))

theorem appends_short {op : Opcode} {w : UInt16} (halive : c.alive = true)
    (hpending : c.pending = []) (hrun : short op w c = .ok () c') :
    c.Appends [{ op, length := 3 }] c' := by
  refine (writes_short op w).appends halive hpending hrun fun ⟨row, hrow, hoperands⟩ => ?_
  obtain ⟨hlen, -⟩ := Opcode.of_takes_short op row hrow hoperands
  exact .fixed rfl (by rw [Opcode.length_of_row hrow, hlen])

theorem appends_ldc {index : UInt16} {k : Kind} (halive : c.alive = true)
    (hpending : c.pending = []) (hrun : ldc index k c = .ok () c') (far : Bool) :
    c.Appends ((Call.ldc index k).forms far) c' := by
  refine (writes_ldc index k).appends halive hpending hrun fun _ => ?_
  unfold ldcOp ldcBytes
  dsimp only [Call.forms]
  split
  · exact .fixed rfl (by decide +kernel)
  · split
    · exact .fixed rfl (by decide +kernel)
    · exact .fixed rfl (by decide +kernel)

theorem appends_field {op : Opcode} {index : UInt16} {k : Kind} (halive : c.alive = true)
    (hpending : c.pending = []) (hrun : field op index k c = .ok () c') :
    c.Appends [{ op, length := 3 }] c' := by
  refine (writes_field op index k).appends halive hpending hrun fun hsome => .fixed rfl ?_
  have hop : op = .getstatic ∨ op = .putstatic ∨ op = .getfield ∨ op = .putfield := by
    unfold fieldEffect? at hsome
    grind
  rcases hop with rfl | rfl | rfl | rfl <;> decide +kernel

theorem appends_invoke {op : Opcode} {index : UInt16} {words : Nat} {k : Kind}
    (hmeant : (Call.invoke op index words k).Meant) (halive : c.alive = true)
    (hpending : c.pending = []) (hrun : invoke op index words k c = .ok () c') (far : Bool) :
    c.Appends ((Call.invoke op index words k).forms far) c' := by
  refine (writes_invoke op index words k).appends halive hpending hrun fun _ => ?_
  unfold callBytes
  dsimp only [Call.forms]
  rcases hmeant with rfl | rfl | rfl | rfl <;> exact .fixed rfl (by decide +kernel)

/-- A branch, by what writing one does to the bytes. -/
theorem encodes_jumpBytes {op : Opcode} (hmeant : (Call.branch op).Meant) (far : Bool) :
    Encodes (jumpBytes far op) ((Call.branch op).forms far) := by
  have hrows : ∀ op ∈ Opcode.conditionals,
      op.length? = some 3 ∧ op.negate.length? = some 3 ∧ op ≠ .goto := by
    decide +kernel
  unfold jumpBytes
  dsimp only [Call.forms]
  rcases hmeant with rfl | hcond
  · cases far <;> exact .fixed rfl (by decide +kernel)
  · obtain ⟨hlen, hneg, hgoto⟩ := hrows op (Opcode.mem_conditionals hcond)
    cases far with
    | false => exact .fixed rfl hlen
    | true =>
        rw [if_pos rfl, if_pos rfl, if_pos hcond, if_neg hgoto]
        exact .append (.fixed rfl hneg) (.fixed rfl (by decide +kernel))

theorem appends_branch {op : Opcode} {chain : Chain} (hmeant : (Call.branch op).Meant)
    (halive : c.alive = true) (hpending : c.pending = []) (hrun : branch op c = .ok chain c') :
    c.Appends ((Call.branch op).forms c.wide) c' := by
  have hnone : { c with pending := [] } = c := by
    cases c
    cases hpending
    rfl
  have hsame : c = if op = .goto then { c with pending := [] } else c := by rw [hnone, ite_self]
  have hlive : c.reachable = true := by rw [Code.reachable, halive, Bool.true_or]
  have hop : op.isConditional = true ∨ op = .goto ∨ op = .jsr := hmeant.symm.imp_right .inl
  have hnever : op ≠ .never := by
    rintro rfl
    rcases hmeant with h | h <;> exact absurd h (by decide)
  rcases branch_ok hsame rfl hrun with ⟨hskip, -⟩ | ⟨-, -, p, c₁, hjump, -, rfl⟩
  · rw [hlive] at hskip
    rcases hskip with hskip | hskip
    · exact absurd hskip hnever
    · cases hskip
  · obtain ⟨c₂, hpend, hc₁⟩ := jump_ok hop hjump
    obtain rfl := resolvePending_nil hpending hpend
    obtain ⟨line, lines, hline, -⟩ := c₂.markLine_eq
    have hc₁ := (hc₁ halive).1
    rw [hline] at hc₁
    have hbytes : c₁.bytes = c₂.bytes ++ jumpBytes c₂.wide op := by
      rw [hc₁, Code.bytes_applyEffect]
      rfl
    have hpending₁ : c₁.pending = [] := by
      rw [hc₁, Code.pending_applyEffect]
      exact hpending
    have hwide : c₁.wide = c₂.wide := by
      rw [hc₁, Code.wide_applyEffect]
      rfl
    exact ⟨⟨_, encodes_jumpBytes hmeant c₂.wide, hbytes⟩, hpending₁, hwide⟩

theorem appends_onRegister {family short : Opcode} {k : Kind} {reg : UInt16}
    (hshort : ∀ r < 4, (short + k.widen.code * 4 + UInt8.ofNat r).Names r)
    (halive : c.alive = true) (hpending : c.pending = [])
    (hrun : Item.onRegister family short k reg c = .ok () c') :
    c.Appends [.onLocal family short k reg] c' := by
  unfold Item.onRegister at hrun
  unfold Form.onLocal
  split at hrun
  · rename_i hreg
    have hlt : reg.toNat < 4 := Nat.lt_succ_of_le (UInt16.le_iff_toNat_le.mp hreg)
    rw [if_pos hreg]
    exact (writes_plain _).appends halive hpending hrun fun _ => .single (hshort _ hlt)
  · rename_i hreg
    rw [if_neg hreg]
    exact appends_register halive hpending hrun

end Emit

theorem Asm.onCode_eq_ok {α : Type} {x : Emit α} {s s' : Assembly} {a : α}
    (h : Asm.onCode x s = .ok a s') : x s.code = .ok a s'.code := by
  unfold Asm.onCode at h
  split at h
  rename_i code pool
  dsimp only
  cases hx : x code with
  | ok b c =>
      rw [hx] at h
      cases h
      rfl
  | error e c =>
      rw [hx] at h
      cases h

/-- A call on a live buffer adds the instructions that it asks for. -/
theorem Call.appends {call : Call} (hmeant : call.Meant) {s s' : Assembly}
    (halive : s.code.alive = true) (hpending : s.code.pending = [])
    (hrun : call.run s = .ok () s') :
    s.code.Appends (call.forms s.code.wide) s'.code := by
  cases call with
  | plain op =>
      exact Emit.appends_plain halive hpending (Asm.onCode_eq_ok hrun) hmeant.1 hmeant.2
  | byte op b =>
      refine (Emit.writes_byte op b).appends halive hpending (Asm.onCode_eq_ok hrun)
        fun ⟨row, hrow, hoperands⟩ => ?_
      obtain ⟨hlen, -⟩ := Opcode.of_takes_byte op row hrow hoperands
      exact .fixed rfl (by rw [Opcode.length_of_row hrow, hlen])
  | register op reg => exact Emit.appends_register halive hpending (Asm.onCode_eq_ok hrun)
  | iinc reg delta => exact Emit.appends_iinc halive hpending (Asm.onCode_eq_ok hrun) _
  | short op w => exact Emit.appends_short halive hpending (Asm.onCode_eq_ok hrun)
  | ldc index k => exact Emit.appends_ldc halive hpending (Asm.onCode_eq_ok hrun) _
  | field op index k => exact Emit.appends_field halive hpending (Asm.onCode_eq_ok hrun)
  | invoke op index words k =>
      exact Emit.appends_invoke hmeant halive hpending (Asm.onCode_eq_ok hrun) _
  | multiarray dims index =>
      exact (Emit.writes_multiarray dims index).appends halive hpending (Asm.onCode_eq_ok hrun)
        fun _ => .fixed rfl (by decide +kernel)
  | branch op =>
      obtain ⟨chain, s₁, hbranch, hrun⟩ := EStateM.bind_eq_ok.mp hrun
      cases hrun
      exact Emit.appends_branch hmeant halive hpending (Asm.onCode_eq_ok hbranch)
  | load k reg =>
      obtain ⟨item, s₁, hload, hrun⟩ := EStateM.bind_eq_ok.mp hrun
      cases hrun
      obtain ⟨⟨⟩, s₂, hreg, hload⟩ := EStateM.bind_eq_ok.mp hload
      cases hload
      exact Emit.appends_onRegister (fun r => Opcode.names_load hmeant) halive hpending
        (Asm.onCode_eq_ok hreg)
  | store k reg =>
      obtain ⟨⟨⟩, s₁, hreg, hrun⟩ := EStateM.bind_eq_ok.mp hrun
      cases hrun
      -- the register is now known to hold a value, which is beside the bytes
      have h := Emit.appends_onRegister (fun r => Opcode.names_store hmeant) halive hpending
        (Asm.onCode_eq_ok hreg)
      exact ⟨h.bytes, h.pending, h.wide⟩

theorem Performed.appends {s s' : Assembly} {calls : List Call} (h : Performed s calls s')
    (hmeant : ∀ call ∈ calls, call.Meant) (hpending : s.code.pending = []) :
    s.code.Appends (calls.flatMap (Call.forms s.code.wide)) s'.code := by
  induction h with
  | nil => exact ⟨⟨#[], fun _ _ _ => rfl, Array.append_empty.symm⟩, hpending, rfl⟩
  | @cons s s₁ s₂ call calls live first _ ih =>
      have halive : s.code.alive = true := by
        rwa [Code.reachable, hpending, List.isEmpty_nil, Bool.not_true, Bool.or_false] at live
      have hcall := Call.appends (hmeant call (List.mem_cons_self ..)) halive hpending first
      have hrest := ih (fun c hc => hmeant c (List.mem_cons_of_mem _ hc)) hcall.pending
      obtain ⟨⟨enc, henc, hbytes⟩, -, hwide⟩ := hcall
      obtain ⟨⟨enc', henc', hbytes'⟩, hpending', hwide'⟩ := hrest
      rw [hwide] at henc' hwide'
      refine ⟨⟨enc ++ enc', henc.append henc', ?_⟩, hpending', hwide'⟩
      rw [hbytes', hbytes, Array.append_assoc]

/-- Decoding inverts writing. Calls of the writers succeed one after the other on a buffer
that starts empty and is live before each of them. Then decoding the bytes gives back exactly
the instructions that the calls ask for, in order: they begin at position 0, each begins where
the one before it ends, and they end with the bytes. Every instruction that was given a
register is read as having this register. -/
theorem Emit.decode_performed (wide : Bool) (config : Config) (pool : Pool) (calls : List Call)
    (s : Assembly) (hmeant : ∀ call ∈ calls, call.Meant)
    (h : Performed ⟨.new wide config, pool⟩ calls s) :
    let forms := calls.flatMap (Call.forms wide)
    decode s.code.bytes = .ok (Form.row 0 forms) ∧
      Form.stop 0 forms = s.code.bytes.size ∧
      List.Forall₂ (fun f i => ∀ reg, f.reg = some reg →
        i.register? s.code.bytes = .ok (some reg.toNat)) forms (Form.row 0 forms) := by
  obtain ⟨⟨enc, henc, hbytes⟩, -, -⟩ := h.appends hmeant rfl
  have hbytes : s.code.bytes = enc := hbytes.trans Array.empty_append
  have hreads := henc enc 0 fun i _ => by rw [Nat.zero_add]
  rw [Nat.zero_add] at hreads
  rw [hbytes]
  exact ⟨hreads.decode_eq, hreads.stop_eq, hreads.registers⟩

/-- Calls with registers and numbers at the edges of their forms. -/
def Call.edges : List Call :=
  [.load .int 256, .load .long 255, .store .long 3, .branch .ifeq, .iinc 255 (-128), .iinc 0 (-129),
    .ldc 255 .int, .ldc 256 .object, .invoke .invokeinterface 7 1 .void, .plain .vreturn]

set_option maxRecDepth 10000 in
theorem Emit.decode_edges :
    ∃ s, (∀ call ∈ Call.edges, call.Meant) ∧ Performed ⟨.new true {}, {}⟩ Call.edges s ∧
      decode s.code.bytes = .ok
        [⟨0, .iload, 4, true⟩, ⟨4, .lload, 2, false⟩, ⟨6, .lstore3, 1, false⟩,
        ⟨7, .ifne, 3, false⟩, ⟨10, .gotoW, 5, false⟩, ⟨15, .iinc, 3, false⟩, ⟨18, .iinc, 6, true⟩,
        ⟨24, .ldc, 2, false⟩, ⟨26, .ldcW, 3, false⟩, ⟨29, .invokeinterface, 5, false⟩,
        ⟨34, .vreturn, 1, false⟩] := by
  have hmeant : ∀ call ∈ Call.edges, call.Meant := by
    simp [Call.edges, Call.Meant]
    decide
  have hrun : ∃ s, Performed ⟨.new true {}, {}⟩ Call.edges s :=
    ⟨_, .cons rfl rfl <| .cons rfl rfl <| .cons rfl rfl <| .cons rfl rfl <| .cons rfl rfl <|
      .cons rfl rfl <| .cons rfl rfl <| .cons rfl rfl <| .cons rfl rfl <| .cons rfl rfl .nil⟩
  obtain ⟨s, hs⟩ := hrun
  exact ⟨s, hmeant, hs, (Emit.decode_performed true {} {} Call.edges s hmeant hs).1⟩

end StackCode
