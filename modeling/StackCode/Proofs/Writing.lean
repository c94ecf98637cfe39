import StackCode.Code.Emit
import StackCode.Proofs.Landing
import StackCode.Proofs.Opcodes

/-!
# Writing instructions

An instruction is written in three moves: the branches that wait for it land, the
line at hand is entered, and its bytes and its effect follow. `Emit.Writes` says so of
a step, with the bytes and the effect, and every operation that writes one instruction
has its `writes_` lemma; in dead code such a step does nothing.
-/

set_option maxRecDepth 4000

namespace StackCode

/-! ### Effects -/

namespace Code

variable (c : Code) (e : Effect)

@[simp] theorem bytes_applyEffect : (c.applyEffect e).bytes = c.bytes := by cases e <;> rfl

@[simp] theorem pc_applyEffect : (c.applyEffect e).pc = c.pc := by cases e <;> rfl

@[simp] theorem fixed_applyEffect : (c.applyEffect e).fixed = c.fixed := by cases e <;> rfl

@[simp] theorem wide_applyEffect : (c.applyEffect e).wide = c.wide := by cases e <;> rfl

@[simp] theorem needsWide_applyEffect : (c.applyEffect e).needsWide = c.needsWide := by
  cases e <;> rfl

@[simp] theorem pending_applyEffect : (c.applyEffect e).pending = c.pending := by cases e <;> rfl

@[simp] theorem catches_applyEffect : (c.applyEffect e).catches = c.catches := by cases e <;> rfl

@[simp] theorem lines_applyEffect : (c.applyEffect e).lines = c.lines := by cases e <;> rfl

theorem alive_applyEffect : (c.applyEffect e).alive = (c.alive && e.goesOn) := by
  cases e <;> simp [applyEffect, noteDepth, Effect.goesOn]

theorem depth_applyEffect (h : e.needs ≤ c.frame.depth) :
    (c.applyEffect e).frame.depth = c.frame.depth - e.needs + e.puts := by
  cases e with
  | pop n => simp [applyEffect, Effect.needs, Effect.puts]
  | leave n => simp [applyEffect, Effect.needs, Effect.puts]
  | trade n k => simp [applyEffect, noteDepth, Effect.needs, Effect.puts]
  | swap =>
      simp only [Effect.needs] at h
      simp only [applyEffect, Frame.swap, Frame.depth, Array.size_swapIfInBounds, Effect.needs,
        Effect.puts] at h ⊢
      omega
  | dup words under =>
      simp only [Effect.needs, Frame.depth] at h
      simp only [applyEffect, noteDepth, Frame.dup, Frame.depth, Array.size_append,
        Array.size_extract, Array.size_shrink, Effect.needs, Effect.puts]
      omega

theorem depth_le_applyEffect (h : c.frame.depth ≤ c.maxStack) :
    (c.applyEffect e).frame.depth ≤ (c.applyEffect e).maxStack := by
  cases e with
  | pop n => simp [applyEffect]; omega
  | leave n => simp [applyEffect]; omega
  | trade n k => exact Nat.le_max_right _ _
  | dup words under => exact Nat.le_max_right _ _
  | swap => simpa [applyEffect, Frame.swap, Frame.depth] using h

theorem applyEffect_pop_zero (c : Code) : c.applyEffect (.pop 0) = c := by
  have hdrop : c.frame.drop 0 = c.frame := by
    simp [Frame.drop]
  rw [applyEffect, hdrop]

end Code

/-! ### Entering a line -/

namespace Code

theorem mem_addLine {lines : Array LineRow} {row r : LineRow} (h : r ∈ addLine lines row) :
    r ∈ lines ∨ r = row := by
  unfold addLine at h
  dsimp only at h
  generalize hkept : (if lines.back?.any (·.pc == row.pc) then lines.pop else lines) = kept at h
  have hsub : r ∈ kept → r ∈ lines := by
    rw [← hkept]
    split
    · rw [← Array.mem_toList_iff, Array.toList_pop, ← Array.mem_toList_iff]
      exact fun h => (List.dropLast_sublist _).mem h
    · exact id
  split at h
  · exact .inl (hsub h)
  · exact (Array.mem_push.mp h).imp hsub id

/-- Entering a line adds at most a row at the end of live code. -/
theorem markLine_eq (c : Code) : ∃ line lines,
    c.markLine = { c with pendingLine := line, lines } ∧
      ∀ r ∈ lines, r ∈ c.lines ∨ (r.pc = c.pc ∧ c.alive = true) := by
  unfold markLine
  split
  · exact ⟨c.pendingLine, c.lines, rfl, fun _ => .inl⟩
  · rename_i line _
    dsimp only
    split
    · rename_i h
      simp only [Bool.and_eq_true] at h
      refine ⟨none, _, rfl, fun r hr => (mem_addLine hr).imp id ?_⟩
      rintro rfl
      exact ⟨rfl, h.1.1.1⟩
    · exact ⟨none, c.lines, rfl, fun _ => .inl⟩

end Code

/-! ### The operations that write -/

namespace Code

theorem alive_markLine (c : Code) : c.markLine.alive = c.alive := by
  obtain ⟨line, lines, heq, -⟩ := c.markLine_eq
  rw [heq]

theorem frame_markLine (c : Code) : c.markLine.frame = c.frame := by
  obtain ⟨line, lines, heq, -⟩ := c.markLine_eq
  rw [heq]

theorem pending_markLine (c : Code) : c.markLine.pending = c.pending := by
  obtain ⟨line, lines, heq, -⟩ := c.markLine_eq
  rw [heq]

theorem pendingLine_markLine (c : Code) : c.markLine.pendingLine = none := by
  unfold markLine
  split
  · assumption
  · dsimp only
    split <;> rfl

/-- A line is entered once. -/
theorem markLine_of_none {c : Code} (h : c.pendingLine = none) : c.markLine = c := by
  unfold markLine
  rw [h]

end Code

namespace Emit

/-- A step that finishes an instruction: in live code it has the effect `e`, and
`P` holds. -/
def Finishes (x : Emit Unit) (e : Effect) (P : Prop) : Prop :=
  ∀ c c', x c = .ok () c' → (c.alive = false ∧ c' = c) ∨
    (c.alive = true ∧ P ∧ e.needs ≤ c.frame.depth ∧ c' = c.applyEffect e)

/-- A step that writes an instruction as `enc` with the effect `e`; where it does,
`P` holds. -/
def Writes (x : Emit Unit) (enc : Array UInt8) (e : Effect) (P : Prop) : Prop :=
  ∀ c c', x c = .ok () c' → ∃ c₁, resolvePending c = .ok () c₁ ∧
    ((c₁.alive = false ∧ c' = c₁) ∨
      (c₁.alive = true ∧ P ∧ e.needs ≤ c₁.frame.depth ∧
        c' = (c₁.markLine.written enc).applyEffect e))

theorem effect_ok {e : Effect} {c c' : Code} (h : effect e c = .ok () c') :
    e.needs ≤ c.frame.depth ∧ c' = c.applyEffect e := by
  unfold effect at h
  obtain ⟨c₀, c₀', hget, h⟩ := EStateM.bind_eq_ok.mp h
  cases hget
  dsimp only at h
  split at h
  · cases h
  · cases h
    exact ⟨by omega, rfl⟩

theorem finishes_effect (e : Effect) :
    Finishes (do if (← get).alive then effect e) e True := by
  intro c c' h
  obtain ⟨c₀, c₀', hget, h⟩ := EStateM.bind_eq_ok.mp h
  cases hget
  split at h
  · rename_i halive
    obtain ⟨hneeds, rfl⟩ := effect_ok h
    exact .inr ⟨halive, trivial, hneeds, rfl⟩
  · rename_i hdead
    cases h
    exact .inl ⟨by simpa using hdead, rfl⟩

theorem finishes_finishOp (op : Opcode) (operands : Operands) :
    Finishes (finishOp op operands) op.effect (op.Takes operands) := by
  intro c c' h
  unfold finishOp at h
  obtain ⟨c₀, c₀', hget, h⟩ := EStateM.bind_eq_ok.mp h
  cases hget
  split at h
  · rename_i halive
    cases hrow : op.row? with
    | none =>
        rw [hrow] at h
        cases h
    | some row =>
        rw [hrow] at h
        dsimp only at h
        split at h
        · rename_i hoperands
          obtain ⟨hneeds, rfl⟩ := effect_ok h
          rw [Opcode.effect_of_row hrow]
          exact .inr ⟨halive, ⟨row, hrow, hoperands⟩, hneeds, rfl⟩
        · cases h
  · rename_i hdead
    cases h
    exact .inl ⟨by simpa using hdead, rfl⟩

theorem opcode_ok {op : Opcode} {c c' : Code} (h : opcode op c = .ok () c') :
    ∃ c₁, resolvePending c = .ok () c₁ ∧
      ((c₁.alive = false ∧ c' = c₁) ∨ (c₁.alive = true ∧ c' = c₁.markLine.written #[op])) := by
  unfold opcode at h
  obtain ⟨⟨⟩, c₁, hflush, h⟩ := EStateM.bind_eq_ok.mp h
  obtain ⟨c₀, c₀', hget, h⟩ := EStateM.bind_eq_ok.mp h
  cases hget
  refine ⟨c₁, hflush, ?_⟩
  split at h
  · rename_i halive
    cases h
    exact .inr ⟨halive, Code.put1_alive (by rw [Code.alive_markLine, halive]) _⟩
  · rename_i hdead
    cases h
    exact .inl ⟨by simpa using hdead, rfl⟩

/-- An opcode, its operands, its effect. -/
theorem writes_of {op : Opcode} {f : Code → Code} {enc : Array UInt8} {fin : Emit Unit} {e : Effect}
    {P : Prop} (hdead : ∀ c : Code, c.alive = false → f c = c)
    (halive : ∀ c : Code, c.alive = true → f c = c.written enc) (hfin : Finishes fin e P) :
    Writes (do opcode op; modify f; fin) (#[op] ++ enc) e P := by
  intro c c' h
  obtain ⟨⟨⟩, c₁, hop, h⟩ := EStateM.bind_eq_ok.mp h
  obtain ⟨⟨⟩, c₂, hmod, h⟩ := EStateM.bind_eq_ok.mp h
  cases hmod
  obtain ⟨c₀, hflush, ⟨hc₀, rfl⟩ | ⟨hc₀, rfl⟩⟩ := opcode_ok hop
  · refine ⟨c₁, hflush, .inl ⟨hc₀, ?_⟩⟩
    rw [hdead c₁ hc₀] at h
    rcases hfin _ _ h with ⟨-, rfl⟩ | ⟨hlive, -⟩
    · rfl
    · rw [hc₀] at hlive
      cases hlive
  · have hlive : (c₀.markLine.written #[op]).alive = true := by
      rw [← hc₀, ← c₀.alive_markLine]
      rfl
    rw [halive _ hlive, Code.written_written] at h
    refine ⟨c₀, hflush, .inr ?_⟩
    rcases hfin _ _ h with ⟨hd, -⟩ | ⟨-, hP, hneeds, rfl⟩
    · have hd : c₀.markLine.alive = false := hd
      rw [c₀.alive_markLine, hc₀] at hd
      cases hd
    · have hneeds : e.needs ≤ c₀.markLine.frame.depth := hneeds
      rw [c₀.frame_markLine] at hneeds
      exact ⟨hc₀, hP, hneeds, rfl⟩

theorem writes_plain (op : Opcode) : Writes (plain op) #[op] op.effect (op.Takes .plain) :=
  @writes_of _ id #[] _ _ _ (fun _ _ => rfl) (fun c _ => (c.written_empty).symm)
    (finishes_finishOp op .plain)

theorem writes_byte (op : Opcode) (b : UInt8) :
    Writes (byte op b) (#[op] ++ #[b]) op.effect (op.Takes .byte) :=
  writes_of (fun _ h => Code.put1_dead h b) (fun _ h => Code.put1_alive h b)
    (finishes_finishOp op .byte)

theorem writes_short (op : Opcode) (v : UInt16) :
    Writes (short op v) (#[op] ++ wordBytes v) op.effect (op.Takes .short) :=
  writes_of (fun _ h => Code.put2_dead h v) (fun _ h => Code.put2_alive h v)
    (finishes_finishOp op .short)

theorem writes_int (op : Opcode) (n : Int32) :
    Writes (int op n) (#[op] ++ intBytes n) op.effect (op.Takes .int) :=
  writes_of (fun _ h => Code.put4_dead h n) (fun _ h => Code.put4_alive h n)
    (finishes_finishOp op .int)

/-- The effect of an access to a field. -/
def fieldEffect (op : Opcode) (k : Kind) : Effect := (fieldEffect? op k).getD (.pop 0)

theorem writes_field (op : Opcode) (index : UInt16) (k : Kind) :
    Writes (field op index k) (#[op] ++ wordBytes index) (fieldEffect op k)
      ((fieldEffect? op k).isSome = true) := by
  refine writes_of (fun _ h => Code.put2_dead h index) (fun _ h => Code.put2_alive h index) ?_
  intro c c' h
  obtain ⟨c₀, c₀', hget, h⟩ := EStateM.bind_eq_ok.mp h
  cases hget
  split at h
  · rename_i halive
    unfold fieldEffect
    cases he : fieldEffect? op k with
    | none =>
        rw [he] at h
        cases h
    | some e =>
        rw [he] at h
        obtain ⟨hneeds, rfl⟩ := effect_ok h
        exact .inr ⟨halive, rfl, hneeds, rfl⟩
  · rename_i hdead
    cases h
    exact .inl ⟨by simpa using hdead, rfl⟩

/-- The effect of a call. -/
def callEffect (op : Opcode) (words : Nat) (k : Kind) : Effect :=
  .trade (words + if op = .invokestatic then 0 else 1) k

/-- What follows the opcode of a call. -/
def callBytes (op : Opcode) (index : UInt16) (words : Nat) : Array UInt8 :=
  wordBytes index ++ if op = .invokeinterface then #[.ofNat (words + 1), 0] else #[]

theorem writes_invoke (op : Opcode) (index : UInt16) (words : Nat) (k : Kind) :
    Writes (invoke op index words k) (#[op] ++ callBytes op index words) (callEffect op words k)
      True := by
  by_cases hop : op = .invokeinterface
  · have heq : invoke op index words k = (do
        opcode op
        modify fun c => ((c.put2 index).put1 (.ofNat (words + 1))).put1 0
        if (← get).alive then effect (callEffect op words k)) := by
      unfold invoke
      simp only [hop, if_true]
      rfl
    rw [heq]
    refine writes_of (fun c h => ?_) (fun c h => ?_) (finishes_effect _)
    · rw [Code.put2_dead h, Code.put1_dead h, Code.put1_dead h]
    · rw [Code.put2_alive h, Code.put1_alive (c := c.written _) h,
        Code.put1_alive (c := (c.written _).written _) h, Code.written_written,
        Code.written_written, callBytes, if_pos hop]
      rfl
  · have heq : invoke op index words k = (do
        opcode op
        modify (·.put2 index)
        if (← get).alive then effect (callEffect op words k)) := by
      unfold invoke
      simp only [hop, if_false]
      rfl
    rw [heq]
    refine writes_of (fun c h => Code.put2_dead h index) (fun c h => ?_) (finishes_effect _)
    rw [Code.put2_alive h, callBytes, if_neg hop, Array.append_empty]

theorem writes_multiarray (dims : UInt8) (index : UInt16) :
    Writes (multiarray dims index) (#[Opcode.multianewarray] ++ (wordBytes index ++ #[dims]))
      (.trade dims.toNat .object) True := by
  refine writes_of (fun c h => ?_) (fun c h => ?_) (finishes_effect _)
  · rw [Code.put2_dead h, Code.put1_dead h]
  · rw [Code.put2_alive h, Code.put1_alive (c := c.written _) h, Code.written_written]

/-- How a constant of the pool is loaded. -/
def ldcOp (index : UInt16) (k : Kind) : Opcode :=
  if k = .long ∨ k = .double then .ldc2W else if index ≤ 0xFF then .ldc else .ldcW

def ldcBytes (index : UInt16) (k : Kind) : Array UInt8 :=
  if k = .long ∨ k = .double then wordBytes index
  else if index ≤ 0xFF then #[index.toUInt8] else wordBytes index

theorem writes_ldc (index : UInt16) (k : Kind) :
    Writes (ldc index k) (#[ldcOp index k] ++ ldcBytes index k) (.trade 0 k) True := by
  unfold ldc ldcOp ldcBytes
  by_cases hk : k = .long ∨ k = .double
  · simp only [hk, if_true]
    exact writes_of (fun _ h => Code.put2_dead h index) (fun _ h => Code.put2_alive h index)
      (finishes_effect _)
  · simp only [hk, if_false]
    by_cases hi : index ≤ 0xFF
    · simp only [hi, if_true]
      exact writes_of (fun _ h => Code.put1_dead h _) (fun _ h => Code.put1_alive h _)
        (finishes_effect _)
    · simp only [hi, if_false]
      exact writes_of (fun _ h => Code.put2_dead h index) (fun _ h => Code.put2_alive h index)
        (finishes_effect _)

/-- The same behind the wide prefix. -/
theorem writes_wide {op : Opcode} {f : Code → Code} {enc : Array UInt8} {fin : Emit Unit}
    {e : Effect} {P : Prop} (hdead : ∀ c : Code, c.alive = false → f c = c)
    (halive : ∀ c : Code, c.alive = true → f c = c.written enc) (hfin : Finishes fin e P) :
    Writes (do opcode .wide; opcode op; modify f; fin) (#[Opcode.wide] ++ (#[op] ++ enc)) e P := by
  intro c c' h
  obtain ⟨⟨⟩, c₁, hop, h⟩ := EStateM.bind_eq_ok.mp h
  obtain ⟨c₂, hflush₂, hrest⟩ := writes_of hdead halive hfin c₁ c' h
  obtain ⟨c₀, hflush, hc₁⟩ := opcode_ok hop
  have hpending : c₁.pending = [] := by
    have hnil := (pending_resolvePending hflush).1
    rcases hc₁ with ⟨-, rfl⟩ | ⟨-, rfl⟩
    · exact hnil
    · rw [← hnil, ← c₀.pending_markLine]
      rfl
  obtain rfl : c₁ = c₂ := by
    unfold resolvePending at hflush₂
    obtain ⟨c₃, c₃', hget, hflush₂⟩ := EStateM.bind_eq_ok.mp hflush₂
    cases hget
    rw [hpending] at hflush₂
    cases hflush₂
    rfl
  refine ⟨c₀, hflush, ?_⟩
  rcases hc₁ with ⟨hc₀, heq⟩ | ⟨hc₀, heq⟩
  · rcases hrest with ⟨-, rfl⟩ | ⟨hlive, -⟩
    · exact .inl ⟨hc₀, heq⟩
    · rw [heq, hc₀] at hlive
      cases hlive
  · have hlive : c₁.alive = true := by
      rw [heq, ← hc₀, ← c₀.alive_markLine]
      rfl
    rcases hrest with ⟨hd, -⟩ | ⟨-, hP, hneeds, rfl⟩
    · rw [hlive] at hd
      cases hd
    · refine .inr ⟨hc₀, hP, ?_, ?_⟩
      · rw [heq] at hneeds
        rw [← c₀.frame_markLine]
        exact hneeds
      · have hline : c₁.pendingLine = none := by
          rw [heq, ← c₀.pendingLine_markLine]
          rfl
        rw [Code.markLine_of_none hline, heq, Code.written_written]

/-- What an instruction on a register is written as. -/
def registerBytes (op : Opcode) (reg : UInt16) : Array UInt8 :=
  if 0xFF < reg then #[Opcode.wide] ++ (#[op] ++ wordBytes reg) else #[op] ++ #[reg.toUInt8]

theorem writes_register (op : Opcode) (reg : UInt16) :
    Writes (register op reg) (registerBytes op reg) op.effect (op.Takes .register) := by
  unfold register registerBytes
  by_cases hreg : 0xFF < reg
  · simp only [hreg, if_true]
    exact writes_wide (fun _ h => Code.put2_dead h reg) (fun _ h => Code.put2_alive h reg)
      (finishes_finishOp op .register)
  · simp only [hreg, if_false]
    exact writes_of (fun _ h => Code.put1_dead h _) (fun _ h => Code.put1_alive h _)
      (finishes_finishOp op .register)

/-- Whether an increment needs the wide form. -/
def iincWide (reg : UInt16) (delta : Int16) : Bool := 0xFF < reg || delta < -128 || 127 < delta

/-- What an increment is written as. -/
def iincBytes (reg : UInt16) (delta : Int16) : Array UInt8 :=
  if iincWide reg delta then
    #[Opcode.wide] ++ (#[Opcode.iinc] ++ (wordBytes reg ++ wordBytes delta.toUInt16))
  else #[Opcode.iinc] ++ (#[reg.toUInt8] ++ #[delta.toInt8.toUInt8])

theorem finishes_pure : Finishes (pure ()) (.pop 0) True := by
  intro c c' h
  cases h
  rw [Code.applyEffect_pop_zero]
  cases hc : c.alive with
  | true => exact .inr ⟨rfl, trivial, Nat.zero_le _, rfl⟩
  | false => exact .inl ⟨rfl, rfl⟩

theorem writes_iinc (reg : UInt16) (delta : Int16) :
    Writes (iinc reg delta) (iincBytes reg delta) (.pop 0) True := by
  unfold iinc iincBytes iincWide
  split
  · refine @writes_wide _ _ _ (pure ()) _ _ (fun c h => ?_) (fun c h => ?_) finishes_pure
    · rw [Code.put2_dead h, Code.put2_dead h]
    · rw [Code.put2_alive h, Code.put2_alive (c := c.written _) h, Code.written_written]
  · refine @writes_of _ _ _ (pure ()) _ _ (fun c h => ?_) (fun c h => ?_) finishes_pure
    · rw [Code.put1_dead h, Code.put1_dead h]
    · rw [Code.put1_alive h, Code.put1_alive (c := c.written _) h, Code.written_written]

end Emit

end StackCode
