import StackCode.Proofs.Opcodes
import StackCode.Proofs.SwitchTable

/-!
# Writing a branch

A branch is written with its offset open. With wide jumps, a branch on a condition is the
opposite branch around a wide `goto`; either way it is one stretch of bytes with the effect of
the branch (`jump_ok`).
-/

namespace StackCode

/-- The wide form of an unconditional branch, also the one that a wide conditional branch
ends with. -/
def Opcode.widened (op : Opcode) : Opcode := if op = jsr then jsrW else gotoW

namespace Emit

/-- What a branch is written as, with its offset open. -/
def jumpBytes (far : Bool) (op : Opcode) : Array UInt8 :=
  if far then
    if op.isConditional then (#[op.negate] ++ wordBytes 8) ++ (#[Opcode.gotoW] ++ intBytes 0)
    else #[op.widened] ++ intBytes 0
  else #[op] ++ wordBytes 0

/-- A branch on a condition takes as much as its opposite. -/
theorem effect_negate {op : Opcode} (h : op.isConditional = true) :
    op.negate.effect = op.effect ∧ ∃ n, op.effect = .pop n := by
  have hall : ∀ op ∈ Opcode.conditionals,
      op.negate.effect = op.effect ∧ op.effect = .pop op.effect.needs := by
    decide +kernel
  obtain ⟨hneg, hpop⟩ := hall op (Opcode.mem_conditionals h)
  exact ⟨hneg, _, hpop⟩

/-- Where control is, an instruction is written as `enc` with the effect `e`. -/
def Extends (x : Emit Unit) (enc : Array UInt8) (e : Effect) : Prop :=
  ∀ c c', x c = .ok () c' → ∃ c₁, resolvePending c = .ok () c₁ ∧
    (c₁.alive = true → c' = (c₁.markLine.written enc).applyEffect e)

theorem Writes.extends {x : Emit Unit} {enc : Array UInt8} {e : Effect} {P : Prop}
    (hx : Writes x enc e P) : Extends x enc e := by
  intro c c' h
  obtain ⟨c₁, hpend, hcase⟩ := hx c c' h
  refine ⟨c₁, hpend, fun halive => ?_⟩
  rcases hcase with ⟨hdead, -⟩ | ⟨-, -, -, hc'⟩
  · rw [hdead] at halive
    cases halive
  · exact hc'

theorem Extends.back {x : Emit Unit} {enc : Array UInt8} {e : Effect} (hx : Extends x enc e)
    {n p : Nat} {c c' : Code} (h : (do x; return (← get).pc - n : Emit Nat) c = .ok p c') :
    ∃ c₁, resolvePending c = .ok () c₁ ∧
      (c₁.alive = true → c' = (c₁.markLine.written enc).applyEffect e ∧ p = c'.pc - n) := by
  obtain ⟨⟨⟩, c₂, hrun, h⟩ := EStateM.bind_eq_ok.mp h
  obtain ⟨hp, rfl⟩ := EStateM.Result.ok.inj h
  obtain ⟨c₁, hpend, hc'⟩ := hx c c₂ hrun
  exact ⟨c₁, hpend, fun halive => ⟨hc' halive, hp.symm⟩⟩

/-- The opposite of a branch on a condition, around a wide `goto`. -/
theorem extends_around {op : Opcode} (h : op.isConditional = true) :
    Extends (do
      short op.negate 8
      int .gotoW 0
      modify fun c => { c with alive := true })
      ((#[op.negate] ++ wordBytes 8) ++ (#[Opcode.gotoW] ++ intBytes 0)) op.effect := by
  intro c c' hrun
  obtain ⟨⟨⟩, c₂, hshort, hrun⟩ := EStateM.bind_eq_ok.mp hrun
  obtain ⟨⟨⟩, c₃, hint, hrun⟩ := EStateM.bind_eq_ok.mp hrun
  cases hrun
  obtain ⟨c₁, hpend, hc₂⟩ := (writes_short op.negate 8).extends c c₂ hshort
  refine ⟨c₁, hpend, fun halive => ?_⟩
  have hc₂ := hc₂ halive
  obtain ⟨hneg, n, hpop⟩ := effect_negate h
  rw [hneg, hpop] at hc₂
  have hpending : c₂.pending = [] := by
    rw [hc₂, Code.pending_applyEffect]
    show c₁.markLine.pending = []
    rw [Code.pending_markLine, (pending_resolvePending hpend).1]
  have hline : c₂.pendingLine = none := by
    rw [hc₂]
    exact c₁.pendingLine_markLine
  have halive₂ : c₂.alive = true := by
    rw [hc₂, Code.alive_applyEffect]
    show (c₁.markLine.alive && true) = true
    rw [Code.alive_markLine, halive]
    rfl
  obtain ⟨c₂', hpend₂, hc₃⟩ := (writes_int .gotoW 0).extends c₂ c₃ hint
  obtain rfl := resolvePending_nil hpending hpend₂
  have hc₃ := hc₃ halive₂
  rw [Code.markLine_of_none hline, show Opcode.gotoW.effect = .leave 0 by decide +kernel] at hc₃
  have halive₁ : c₁.markLine.alive = true := by rw [Code.alive_markLine, halive]
  have hdrop (f : Frame) : f.drop 0 = f := by simp [Frame.drop]
  rw [hc₃, hc₂, hpop]
  simp only [Code.applyEffect, Code.written, hdrop, Array.append_assoc, ← halive₁]

/-- What writing a branch does to code that can be reached. -/
theorem jump_ok {op : Opcode} (hop : op.isConditional = true ∨ op = .goto ∨ op = .jsr)
    {c c' : Code} {p : Nat} (h : jump op c = .ok p c') :
    ∃ c₁, resolvePending c = .ok () c₁ ∧ (c₁.alive = true →
      c' = (c₁.markLine.written (jumpBytes c.wide op)).applyEffect op.effect ∧
      p = c'.pc - if c.wide then 5 else 3) := by
  unfold jump at h
  obtain ⟨c₀, c₀', hget, h⟩ := EStateM.bind_eq_ok.mp h
  cases hget
  unfold jumpBytes
  cases hwide : c.wide with
  | false =>
      rw [hwide, if_neg (by decide)] at h
      simpa using (writes_short op 0).extends.back h
  | true =>
      rw [hwide, if_pos rfl] at h
      rcases hop with hcond | rfl | rfl
      · obtain ⟨-, -, -, hgoto, hjsr, -⟩ := Opcode.of_isConditional hcond
        rw [if_neg hgoto, if_neg hjsr] at h
        rw [if_pos rfl, if_pos hcond, if_pos rfl]
        exact (extends_around hcond).back (by simpa only [bind_assoc] using h)
      · rw [if_pos rfl] at h
        have hrun := (writes_int .gotoW 0).extends.back h
        rw [show Opcode.gotoW.effect = Opcode.goto.effect by decide +kernel] at hrun
        exact hrun
      · rw [if_neg (by decide), if_pos rfl] at h
        have hrun := (writes_int .jsrW 0).extends.back h
        rw [show Opcode.jsrW.effect = Opcode.jsr.effect by decide +kernel] at hrun
        exact hrun

/-- How a branch comes about. -/
theorem branch_ok {op : Opcode} {c₀ c' : Code} {rest a : Chain} {c : Code}
    (hc₀ : c₀ = if op = .goto then { c with pending := [] } else c)
    (hrest : rest = if op = .goto then c.pending else []) (h : branch op c = .ok a c') :
    ((op = .never ∨ c₀.reachable = false) ∧ a = rest ∧ c' = c₀) ∨
      (op ≠ .never ∧ c₀.reachable = true ∧ ∃ p c₁, jump op c₀ = .ok p c₁ ∧
        a = ⟨p, c₁.frame⟩ :: rest ∧
        c' = { c₁ with fixed := c₁.wide, alive := c₁.alive && op != .goto }) := by
  unfold branch at h
  obtain ⟨_, _, hget, h⟩ := EStateM.bind_eq_ok.mp h
  cases hget
  have hrun : (do
      let c ← get
      if op = .never || !c.reachable then return rest
      let pc ← jump op
      let c ← get
      modify fun c => { c with fixed := c.wide, alive := c.alive && op != .goto }
      return ⟨pc, c.frame⟩ :: rest : Emit Chain) c₀ = .ok a c' := by
    by_cases hop : op = .goto
    · simp only [hop, if_true] at h hrest hc₀
      subst hrest hc₀
      rw [hop]
      exact h
    · simp only [hop, if_false] at h hrest hc₀
      subst hrest hc₀
      exact h
  obtain ⟨_, _, hget, hrun⟩ := EStateM.bind_eq_ok.mp hrun
  cases hget
  split at hrun
  · rename_i hskip
    obtain ⟨rfl, rfl⟩ := EStateM.Result.ok.inj hrun
    simp only [Bool.or_eq_true, decide_eq_true_eq, Bool.not_eq_true'] at hskip
    exact .inl ⟨hskip, rfl, rfl⟩
  · rename_i hskip
    simp only [Bool.or_eq_true, decide_eq_true_eq, Bool.not_eq_true', not_or,
      Bool.not_eq_false] at hskip
    obtain ⟨p, c₁, hjump, hrun⟩ := EStateM.bind_eq_ok.mp hrun
    obtain ⟨rfl, rfl⟩ := EStateM.Result.ok.inj hrun
    exact .inr ⟨hskip.1, hskip.2, p, c₁, hjump, rfl, rfl⟩

end Emit

end StackCode
