import StackCode.Proofs.Performing

/-!
# Branches are taken

A branch is written with its offset open, and where it leads is settled later. `Code.Sends` says
what a `goto` does: control leaves by the branches of a chain, among which are those that waited
for the place of the `goto`, since they need not come there first. `Code.Forks` says what a branch
on a condition does: control leaves by it or goes on, as the words on the stack decide. In wide
code such a branch is an opposite branch around a `goto_w`; `Program.reaches_jump` covers both
forms.
-/

set_option maxRecDepth 4000

namespace StackCode

open Instruction

/-- A branch has come to stand at the end, with its offset open. -/
theorem Fits.appendOpen {wide : Bool} {L : Plan} {bs enc : Array UInt8} {p : Program} {l : Link}
    {t : ℕ} (h : Fits wide (insert (l, t) L) (bs ++ enc) (bs.size + enc.size) p)
    (hlow : bs.size ≤ l.pc) (hhigh : l.pc + branchSize wide = bs.size + enc.size)
    (hbefore : ∀ o ∈ L, o.1.pc + branchSize wide ≤ bs.size) :
    Fits wide L bs bs.size p ∧ (∀ i, bs.size + i ≤ l.pc → p.bytes[bs.size + i]? = enc[i]?) ∧
      Leads wide p.bytes l.pc t := by
  have hthree := three_le_branchSize wide
  refine ⟨⟨?_, ?_, ?_⟩, ?_, h.leads (l, t) (.inl rfl) (by show l.pc < _; omega)⟩
  · have := h.size
    omega
  · intro i hi hout
    rw [h.same i (by omega) ?_, Array.getElem?_append_left hi]
    rintro o (rfl | ho)
    · exact .inl (by show i ≤ l.pc; omega)
    · exact hout o ho
  · exact fun o ho hlt => h.leads o (.inr ho) (by omega)
  · intro i hi
    rw [h.same _ (by omega) ?_, Array.getElem?_append_right (Nat.le_add_right _ _),
      Nat.add_sub_cancel_left]
    rintro o (rfl | ho)
    · exact .inl hi
    · exact .inr ((hbefore o ho).trans (Nat.le_add_right _ _))

theorem Chain.toward_cons (l : Link) (c : Chain) (t : ℕ) (H : Plan) :
    Chain.toward (l :: c) t ∪ H = insert (l, t) (c.toward t ∪ H) := by
  ext ⟨m, u⟩
  simp only [Set.mem_union, Chain.mem_toward, List.mem_cons, Set.mem_insert_iff, Prod.mk.injEq]
  tauto

namespace Code

/-- Control has been sent to where the branches of `chain` will lead, and the code is dead. -/
structure Sends (c c' : Code) (chain : Chain) (O : List Link) (d : ℕ)
    (locks : List UInt16) : Prop where
  onward : Onward c c'
  pending : c'.pending = []
  dead : c'.alive = false
  ready : ∀ d', c'.Ready (chain ++ O) d' locks
  arrives : chain.Arrives d locks
  isEmpty : chain.isEmpty = !c.reachable
  frame : c'.frame.Has d locks ∨ c.alive = false ∧ c'.frame = c.frame
  back : ∀ {H : Plan} {p : Program} {g t : ℕ}, H.Over O → c'.Becomes (chain.toward t ∪ H) p g →
    c.Becomes H p t ∧ ∀ e S R, c.Arrival t e → p.Reaches ⟨e, S, R⟩ ⟨t, S, R⟩

/-- Code that is dead is left to the branches that wait for its end. -/
theorem Ready.sends_dead {c : Code} {O : List Link} {d : ℕ} {locks : List UInt16}
    (h : c.Ready O d locks) (hdead : c.alive = false) :
    c.Sends { c with pending := [] } c.pending O d locks where
  onward := ⟨rfl, rfl, rfl, fun _ => rfl⟩
  pending := rfl
  dead := hdead
  ready := fun d' => {
    apart := h.apart
    within := h.within
    firm := fun halive => by rw [hdead] at halive; cases halive
    loose := fun l hl hloose => h.loose l hl ⟨hloose.ends, hloose.opcode, hloose.unseen⟩
    level := fun halive => by rw [hdead] at halive; cases halive
    joins := fun _ hl => by cases hl }
  arrives := h.joins
  isEmpty := by simp [reachable, hdead]
  frame := .inr ⟨hdead, rfl⟩
  back := by
    rintro H p g t - ⟨⟨n, hstays, hfits⟩, hnarrow, hshort⟩
    rw [Chain.toward_nil, Set.empty_union] at hstays hfits
    refine ⟨⟨⟨n, ?_, hfits⟩, hnarrow, hshort⟩, ?_⟩
    · refine hstays.imp id ?_
      rintro ⟨hloose, ho⟩
      exact ⟨⟨hloose.ends, hloose.opcode, hloose.unseen⟩, ho⟩
    · rintro e S R (⟨halive, -⟩ | ⟨-, rfl⟩)
      · rw [hdead] at halive
        cases halive
      · exact .refl p _

end Code

namespace Emit

/-- What a `goto` is written as. -/
def gotoBytes (wide : Bool) : Array UInt8 :=
  if wide then #[Opcode.gotoW] ++ intBytes 0 else #[Opcode.goto] ++ wordBytes 0

theorem size_gotoBytes (wide : Bool) : (gotoBytes wide).size = branchSize wide := by
  cases wide <;> rfl

theorem resolvePending_of_nil {c : Code} (h : c.pending = []) : resolvePending c = .ok () c := by
  rw [resolvePending]
  refine EStateM.bind_eq_ok.mpr ⟨c, c, rfl, ?_⟩
  rw [h]
  rfl

theorem jump_goto {c : Code} (hpending : c.pending = []) (halive : c.alive = true) :
    jump .goto c = .ok c.pc ((c.markLine.written (gotoBytes c.wide)).applyEffect (.leave 0)) := by
  have hflush := resolvePending_of_nil hpending
  have hpc (enc : Array UInt8) :
      ((c.markLine.written enc).applyEffect (.leave 0)).pc = c.pc + enc.size := by
    unfold Code.pc
    rw [Code.bytes_write, Array.size_append]
  unfold jump gotoBytes
  refine EStateM.bind_eq_ok.mpr ⟨c, c, rfl, ?_⟩
  cases hwide : c.wide with
  | true =>
      have hrun := delivers_int (show Opcode.gotoW.Takes .int from ⟨_, rfl, rfl⟩) 0 c c hflush
        halive (Nat.zero_le _)
      rw [show Opcode.gotoW.effect = .leave 0 by decide] at hrun
      refine EStateM.bind_eq_ok.mpr ⟨(), _, hrun, ?_⟩
      refine EStateM.bind_eq_ok.mpr ⟨_, _, rfl, ?_⟩
      show EStateM.Result.ok (Code.pc _ - 5) _ = _
      rw [hpc]
      rfl
  | false =>
      have hrun := delivers_short (show Opcode.goto.Takes .short from ⟨_, rfl, rfl⟩) 0 c c hflush
        halive (Nat.zero_le _)
      rw [show Opcode.goto.effect = .leave 0 by decide] at hrun
      refine EStateM.bind_eq_ok.mpr ⟨(), _, hrun, ?_⟩
      refine EStateM.bind_eq_ok.mpr ⟨_, _, rfl, ?_⟩
      show EStateM.Result.ok (Code.pc _ - 3) _ = _
      rw [hpc]
      rfl

end Emit

namespace Code

/-- A `goto` has been written where control was. It takes the waiting branches over. -/
theorem Ready.sends_goto {c c' : Code} {O : List Link} {d : ℕ} {locks : List UInt16} {l : Link}
    (h : c.Ready O d locks) (halive : c.alive = true) (hl : l.pc = c.pc) (honward : Onward c c')
    (hpending : c'.pending = []) (hdead : c'.alive = false)
    (hbytes : c'.bytes = c.bytes ++ Emit.gotoBytes c.wide) (hneeds : c'.needsWide = c.needsWide)
    (hframe : c'.frame = l.frame) (hhas : l.frame.Has d locks) :
    c.Sends c' (l :: c.pending) O d locks := by
  have hsize : c'.pc = c.pc + branchSize c.wide := by
    unfold pc
    rw [hbytes, Array.size_append, Emit.size_gotoBytes]
  have hthree := three_le_branchSize c.wide
  have hbefore (m : Link) (hm : m ∈ c.pending ++ O) : m.pc + branchSize c.wide ≤ l.pc :=
    hl ▸ h.within m hm
  have hloose (m : Link) (hm : m ∈ c.pending ++ O) : ¬ c'.Dangling m.pc := by
    intro hloose
    have := hbefore m hm
    have := hloose.ends
    omega
  constructor
  case onward => exact honward
  case pending => exact hpending
  case dead => exact hdead
  case arrives =>
    rintro m (_ | ⟨_, hm⟩)
    · exact hhas
    · exact h.joins m hm
  case isEmpty => simp [reachable, halive]
  case frame => exact .inl (hframe ▸ hhas)
  case ready =>
    intro d'
    constructor
    case apart =>
      rw [hpending, honward.wide]
      exact List.pairwise_cons.mpr ⟨fun m hm => .inr (hbefore m hm), h.apart⟩
    case within =>
      rw [hpending, honward.wide, hsize]
      rintro m (_ | ⟨_, hm⟩)
      · rw [hl]
      · have := hbefore m hm
        omega
    case firm => intro hc; rw [hdead] at hc; cases hc
    case loose =>
      rw [hpending]
      rintro m (_ | ⟨_, hm⟩) hm'
      · rw [hframe]; exact ⟨rfl, rfl⟩
      · exact absurd hm' (hloose m hm)
    case level => intro hc; rw [hdead] at hc; cases hc
    case joins => rw [hpending]; exact fun m hm => by cases hm
  case back =>
    rintro H p g t hover ⟨⟨n, hstays, hfits⟩, hnarrow, hshort⟩
    rw [hpending, Chain.toward_nil, Set.empty_union, Chain.toward_cons] at hstays hfits
    rw [honward.wide, hbytes] at hfits
    rw [hneeds] at hnarrow
    have hover' : ∀ o ∈ c.pending.toward t ∪ H, o.1 ∈ c.pending ++ O := by
      rintro o (⟨ho, -⟩ | ho)
      · exact List.mem_append_left _ ho
      · exact List.mem_append_right _ (hover o ho)
    have hplan : ∀ o ∈ c.pending.toward t ∪ H, o.1.pc + branchSize c.wide ≤ c.bytes.size :=
      fun o ho => h.within o.1 (hover' o ho)
    rcases hstays with hn | ⟨hl', o, ho, hpc, htarget⟩
    · -- the `goto` stays and is performed
      have hn' : n = c.bytes.size + (Emit.gotoBytes c.wide).size := by
        rw [hn, hsize, Emit.size_gotoBytes]
        rfl
      have hsize' := hfits.size
      rw [hn'] at hfits hsize'
      obtain ⟨hfits, hop, hlead⟩ := hfits.appendOpen (Nat.le_of_eq hl.symm)
        (by rw [hl, Emit.size_gotoBytes]; rfl) hplan
      refine ⟨⟨⟨c.pc, .inl rfl, hfits⟩, hnarrow, hshort⟩, ?_⟩
      rintro e S R (⟨-, rfl⟩ | ⟨-, rfl⟩)
      · have hop := hop 0 (Nat.le_of_eq hl.symm)
        rw [Emit.size_gotoBytes] at hsize'
        rw [hl] at hlead
        have hread : p.read c.pc = some (.jump t, c.pc + branchSize c.wide) := by
          cases hwide : c.wide with
          | true => rw [hwide] at hop hlead hsize'; exact Program.read_gotoW hop hlead hsize' hshort
          | false => rw [hwide] at hop hlead hsize'; exact Program.read_goto hop hlead hsize' hshort
        exact Program.reaches_of_read hread rfl
      · exact .refl p _
    · -- the `goto` was taken back, so it would have led to where it stood
      have hends := hl'.ends
      obtain rfl | ho : o = (l, t) ∨ o ∈ c.pending.toward t ∪ H := ho
      · have htn : t = n := htarget
        have hnc : n = c.pc := hpc.symm.trans hl
        subst htn
        rw [hnc] at hfits ⊢
        refine ⟨⟨⟨c.pc, .inl rfl, ?_⟩, hnarrow, hshort⟩, ?_⟩
        · refine ⟨hfits.size, fun i hi hout => ?_, fun o ho hlt => hfits.leads o (.inr ho) hlt⟩
          rw [hfits.same i hi ?_, Array.getElem?_append_left hi]
          rintro o (rfl | ho)
          · exact .inl (by show i ≤ l.pc; omega)
          · exact hout o ho
        · rintro e S R (⟨-, rfl⟩ | ⟨-, rfl⟩) <;> exact .refl p _
      · have := hplan o ho
        have : c.bytes.size = c.pc := rfl
        omega

end Code

namespace Emit

/-- A `goto` sends control to where its chain will lead. -/
theorem goto_sends {c : Code} {O : List Link} {d : ℕ} {locks : List UInt16}
    (h : c.Ready O d locks) :
    ∃ chain c', branch .goto c = .ok chain c' ∧ c.Sends c' chain O d locks := by
  obtain ⟨b, hb⟩ : ∃ b : Code, b = { c with pending := [] } := ⟨_, rfl⟩
  have hstart : branch .goto c = (do
      let c₀ ← get
      if Opcode.goto = .never || !c₀.reachable then return c.pending
      let pc ← jump .goto
      let c₁ ← get
      modify fun c => { c with fixed := c.wide, alive := c.alive && Opcode.goto != .goto }
      return ⟨pc, c₁.frame⟩ :: c.pending : Emit Chain) b := by
    rw [hb]
    rfl
  have hreach : b.reachable = c.alive := by rw [hb]; simp [Code.reachable]
  cases halive : c.alive with
  | false =>
      refine ⟨c.pending, b, ?_, by rw [hb]; exact h.sends_dead halive⟩
      rw [hstart]
      refine EStateM.bind_eq_ok.mpr ⟨b, b, rfl, ?_⟩
      rw [if_pos (by rw [hreach, halive]; rfl)]
      rfl
  | true =>
      have hpending : b.pending = [] := by rw [hb]
      have halive' : b.alive = true := by rw [hb]; exact halive
      have hjump := jump_goto hpending halive'
      have hpc : b.pc = c.pc := by rw [hb]; rfl
      have hwide : b.wide = c.wide := by rw [hb]
      rw [hpc, hwide] at hjump
      obtain ⟨c₁, hc₁⟩ : ∃ c₁, c₁ = (b.markLine.written (gotoBytes c.wide)).applyEffect
          (.leave 0) := ⟨_, rfl⟩
      rw [← hc₁] at hjump
      have honward : c.Onward c₁ := by
        have hfirst : c.Onward b := by rw [hb]; exact ⟨rfl, rfl, rfl, fun _ => rfl⟩
        rw [hc₁]
        exact hfirst.trans (b.onward_write _ _)
      have hframe : c₁.frame.Has d locks := by
        have hlevel := h.level halive
        have hb' : b.frame.Has d locks := by rw [hb]; exact hlevel
        have := Code.frame_write (e := .leave 0) (gotoBytes c.wide) hb' (Nat.zero_le _)
        rw [hc₁]
        simpa [Effect.needs, Effect.puts] using this
      refine ⟨⟨c.pc, c₁.frame⟩ :: c.pending,
        { c₁ with fixed := c₁.wide, alive := c₁.alive && Opcode.goto != .goto },
        ?_, ?_⟩
      · rw [hstart]
        refine EStateM.bind_eq_ok.mpr ⟨b, b, rfl, ?_⟩
        rw [if_neg (by rw [hreach, halive]; decide)]
        refine EStateM.bind_eq_ok.mpr ⟨c.pc, c₁, hjump, ?_⟩
        rfl
      · refine h.sends_goto halive rfl ⟨honward.wide, honward.nextReg, honward.ranges, honward.far⟩
          ?_ ?_ ?_ ?_ rfl hframe
        · show c₁.pending = []
          rw [hc₁, b.pending_write, hpending]
        · show (c₁.alive && false) = false
          exact Bool.and_false _
        · show c₁.bytes = _
          rw [hc₁, b.bytes_write, hb]
        · show c₁.needsWide = _
          rw [hc₁, b.needsWide_write, hb]

end Emit

/-! ### Branches on a condition -/

namespace Opcode

theorem Compares.row {op : Opcode} (h : op.Compares) :
    op.Takes .short ∧ op.negate.Takes .short ∧ op ≠ goto ∧ op ≠ jsr ∧
    op ≠ never := by
  have hall : ∀ op ∈ zeroTests ++ pairTests, op.Takes .short ∧ op.negate.Takes .short ∧
      op ≠ goto ∧ op ≠ jsr ∧
      op ≠ never := by
    decide
  exact hall op (List.mem_append.mpr h)

end Opcode

namespace Emit

theorem size_jumpBytes {op : Opcode} (h : op.isConditional = true) (wide : Bool) :
    (jumpBytes wide op).size = branchSize wide + if wide then 3 else 0 := by
  cases wide with
  | true => simp [jumpBytes, h, wordBytes, intBytes, branchSize]
  | false => rfl

/-- A branch that compares integers is written. -/
theorem jump_test {op : Opcode} (hop : op.Compares) {c c₁ : Code}
    (hflush : resolvePending c = .ok () c₁) (halive : c₁.alive = true)
    (hneeds : op.effect.needs ≤ c₁.frame.depth) :
    ∃ c', jump op c = .ok (c'.pc - branchSize c.wide) c' ∧
      c' = (c₁.markLine.written (jumpBytes c.wide op)).applyEffect op.effect := by
  obtain ⟨htakes, htakes', hgoto, hjsr, hnever⟩ := hop.row
  have hcond := hop.isConditional
  obtain ⟨hneg, n, hpop⟩ := effect_negate hcond
  obtain ⟨pc, c', hjump⟩ : ∃ pc c', jump op c = .ok pc c' := by
    unfold jump
    cases hwide : c.wide with
    | false =>
        have hwrite := delivers_short htakes 0 c c₁ hflush halive hneeds
        obtain ⟨c₂, hc₂⟩ : ∃ c₂, c₂ = (c₁.markLine.written (#[op] ++ wordBytes 0)).applyEffect
            op.effect := ⟨_, rfl⟩
        rw [← hc₂] at hwrite
        refine ⟨c₂.pc - 3, c₂, EStateM.bind_eq_ok.mpr ⟨c, c, rfl, ?_⟩⟩
        rw [hwide, if_neg Bool.false_ne_true]
        refine EStateM.bind_eq_ok.mpr ⟨(), c₂, hwrite, ?_⟩
        exact EStateM.bind_eq_ok.mpr ⟨c₂, c₂, rfl, rfl⟩
    | true =>
        have hfirst := delivers_short htakes' 8 c c₁ hflush halive (by rw [hneg]; exact hneeds)
        obtain ⟨c₂, hc₂⟩ : ∃ c₂, c₂ =
            (c₁.markLine.written (#[op.negate] ++ wordBytes 8)).applyEffect op.negate.effect :=
          ⟨_, rfl⟩
        rw [← hc₂] at hfirst
        have halive₂ : c₂.alive = true := by
          rw [hc₂, Code.alive_write halive, hneg, hpop]
          rfl
        have hflush₂ : resolvePending c₂ = .ok () c₂ := by
          apply resolvePending_of_nil
          rw [hc₂, c₁.pending_write, (pending_resolvePending hflush).1]
        have hsecond := delivers_int (show Opcode.gotoW.Takes .int from ⟨_, rfl, rfl⟩) 0 c₂ c₂
          hflush₂ halive₂ (Nat.zero_le _)
        obtain ⟨c₃, hc₃⟩ : ∃ c₃, c₃ =
            (c₂.markLine.written (#[Opcode.gotoW] ++ intBytes 0)).applyEffect Opcode.gotoW.effect :=
          ⟨_, rfl⟩
        rw [← hc₃] at hsecond
        refine ⟨c₃.pc - 5, { c₃ with alive := true }, EStateM.bind_eq_ok.mpr ⟨c, c, rfl, ?_⟩⟩
        rw [hwide, if_pos rfl, if_neg hgoto, if_neg hjsr]
        refine EStateM.bind_eq_ok.mpr ⟨(), c₂, hfirst, ?_⟩
        refine EStateM.bind_eq_ok.mpr ⟨(), c₃, hsecond, ?_⟩
        refine EStateM.bind_eq_ok.mpr ⟨(), { c₃ with alive := true }, rfl, ?_⟩
        exact EStateM.bind_eq_ok.mpr
          ⟨{ c₃ with alive := true }, { c₃ with alive := true }, rfl, rfl⟩
  obtain ⟨c₁', hflush', hform⟩ := jump_ok (.inl hcond) hjump
  obtain ⟨-, rfl⟩ := EStateM.Result.ok.inj (hflush.symm.trans hflush')
  obtain ⟨hc', rfl⟩ := hform halive
  exact ⟨c', hjump, hc'⟩

end Emit

namespace Program

/-- A branch on a condition that stands in a program is taken if the condition holds. -/
theorem reaches_jump {p : Program} {op : Opcode} (hop : op.Compares) {wide : Bool} {q t : ℕ}
    {l : Link} (hl : l.pc + branchSize wide = q + (Emit.jumpBytes wide op).size)
    (hsize : q + (Emit.jumpBytes wide op).size ≤ p.bytes.size)
    (hbytes : ∀ i, q + i ≤ l.pc → p.bytes[q + i]? = (Emit.jumpBytes wide op)[i]?)
    (hlead : Leads wide p.bytes l.pc t) (hshort : p.bytes.size ≤ 0xFFFF) {S S' : List Int32}
    {b : Bool} (hcompare : op.compare? S = some (b, S')) (R : ℕ → Int32) :
    p.Reaches ⟨q, S, R⟩ ⟨if b then t else q + (Emit.jumpBytes wide op).size, S', R⟩ := by
  have hcond := hop.isConditional
  rw [Emit.size_jumpBytes hcond] at hl hsize ⊢
  cases wide with
  | false =>
      have hl : l.pc = q := by simpa using hl
      rw [hl] at hlead hbytes
      have hread := read_test hop (hbytes 0 (Nat.le_refl _)) hlead hsize hshort
      refine reaches_of_read hread ?_
      show (op.compare? S).map _ = _
      rw [hcompare]
      rfl
  | true =>
      have hl : l.pc = q + 3 := by simpa [branchSize] using hl
      rw [hl] at hlead hbytes
      have hjb : Emit.jumpBytes true op = (#[op.negate] ++ wordBytes 8) ++
          (#[Opcode.gotoW] ++ intBytes 0) := by
        simp [Emit.jumpBytes, hcond]
      rw [hjb] at hbytes
      have hfirst : p.bytes[q]? = some op.negate := hbytes 0 (by omega)
      have hhi : p.bytes[q + 1]? = some ((8 : UInt16) >>> 8).toUInt8 := hbytes 1 (by omega)
      have hlo : p.bytes[q + 1 + 1]? = some (8 : UInt16).toUInt8 := hbytes 2 (by omega)
      have hgoto : p.bytes[q + 3]? = some Opcode.gotoW := hbytes 3 (by omega)
      have hsize : q + 8 ≤ p.bytes.size := hsize
      have haround : Leads false p.bytes q (q + 8) := by
        show shortAt p.bytes (q + 1) = _
        rw [shortAt_wordBytes (w := 8) hhi hlo, show Int.bmod (8 : UInt16).toNat 0x10000 =
          8 by decide,
          show ((q + 8 : ℕ) : Int) - q = 8 by omega]
      have hread := read_test hop.negate hfirst haround (by omega) hshort
      have hread' := read_gotoW hgoto hlead (by omega) hshort
      have hstep : p.Reaches ⟨q, S, R⟩ ⟨if !b then q + 8 else q + 3, S', R⟩ := by
        refine reaches_of_read hread ?_
        show (op.negate.compare? S).map _ = _
        rw [Opcode.compare?_negate hop, hcompare]
        rfl
      cases b with
      | false => exact hstep
      | true => exact hstep.trans (reaches_of_read hread' rfl)

end Program

/-- A branch on a condition has been written: control leaves it to where `l` will lead, or goes
on. -/
structure Code.Forks (c c' : Code) (op : Opcode) (l : Link) (O : List Link) (d : ℕ)
    (locks : List UInt16) : Prop where
  onward : Onward c c'
  pending : c'.pending = []
  alive : c'.alive = true
  ready : c'.Ready (l :: O) d locks
  arrives : l.frame.Has d locks
  back : ∀ {H : Plan} {p : Program} {g t : ℕ}, H.Over O →
    c'.Becomes (Chain.toward [l] t ∪ H) p g → ∃ q,
    c.Becomes H p q ∧ ∀ e S S' b R, c.Arrival q e → op.compare? S = some (b, S') →
      p.Reaches ⟨e, S, R⟩ ⟨if b then t else c'.pc, S', R⟩

theorem Emit.test_forks {op : Opcode} (hop : op.Compares) {c : Code} {O : List Link} {d : ℕ}
    {locks : List UInt16} (h : c.Ready O (d + op.effect.needs) locks) (hlive : c.reachable = true) :
    ∃ l c', branch op c = .ok [l] c' ∧ c.Forks c' op l O d locks := by
  obtain ⟨htakes, htakes', hgoto, hjsr, hnever⟩ := hop.row
  have hcond := hop.isConditional
  obtain ⟨hneg, n, hpop⟩ := effect_negate hcond
  obtain ⟨c₁, hflush, hf⟩ := resolvePending_flushed h
  have halive : c₁.alive = true := hf.alive.trans hlive
  have hframe := hf.level halive
  obtain ⟨c₂, hjump, hc₂⟩ := jump_test hop hflush halive (by rw [hframe.1]; omega)
  obtain ⟨c', hc'⟩ : ∃ c' : Code,
      c' = { c₂ with fixed := c₂.wide, alive := c₂.alive && op != .goto } := ⟨_, rfl⟩
  have honward : c.Onward c' := by
    have h₂ : c.Onward c₂ := hf.onward.trans (by rw [hc₂]; exact c₁.onward_write _ _)
    rw [hc']
    exact ⟨h₂.wide, h₂.nextReg, h₂.ranges, h₂.far⟩
  have hbytes : c'.bytes = c₁.bytes ++ jumpBytes c.wide op := by
    rw [hc']
    show c₂.bytes = _
    rw [hc₂, c₁.bytes_write]
  have hsize : c'.pc = c₁.pc + (jumpBytes c.wide op).size := by
    unfold Code.pc
    rw [hbytes, Array.size_append]
  have hpending : c'.pending = [] := by
    rw [hc']
    show c₂.pending = []
    rw [hc₂, c₁.pending_write, hf.pending]
  have halive' : c'.alive = true := by
    rw [hc']
    show (c₂.alive && op != .goto) = true
    rw [hc₂, Code.alive_write halive, hpop]
    simpa [Effect.goesOn] using hgoto
  have hframe₂ : c₂.frame.Has d locks := by
    have hhas := Code.frame_write (e := op.effect) (jumpBytes c.wide op) hframe (by omega)
    rw [← hc₂, hpop] at hhas
    simpa [Effect.needs, Effect.puts] using hhas
  have hframe' : c'.frame.Has d locks := by rw [hc']; exact hframe₂
  have hneeds : c'.needsWide = c₁.needsWide := by
    rw [hc']
    show c₂.needsWide = _
    rw [hc₂, c₁.needsWide_write]
  obtain ⟨l, hl⟩ : ∃ l : Link, l = ⟨c₂.pc - branchSize c.wide, c₂.frame⟩ := ⟨_, rfl⟩
  have hthree := three_le_branchSize c.wide
  have hlpc : l.pc + branchSize c.wide = c₁.pc + (jumpBytes c.wide op).size := by
    have hpc₂ : c₂.pc = c'.pc := by rw [hc']; rfl
    rw [hl, ← hsize, ← hpc₂]
    show c₂.pc - _ + _ = _
    have := size_jumpBytes hcond c.wide
    omega
  have hlow : c₁.pc ≤ l.pc := by
    have := size_jumpBytes hcond c.wide
    omega
  -- the branch itself is no `goto` that could be taken back, and the others end before it
  have hfirm : ∀ m ∈ l :: O, ¬ c'.Dangling m.pc := by
    rintro m (_ | ⟨_, hm⟩) hloose
    · have hends := hloose.ends
      have hop' := hloose.opcode
      have hunseen := hloose.unseen
      have hnarrow : c.wide = false := by
        rw [← honward.wide, ← hunseen, hc']
      rw [hnarrow] at hlpc hsize
      have hpc : l.pc = c₁.bytes.size := by
        have hs := size_jumpBytes hcond false
        have : branchSize false = 3 := rfl
        have : c₁.pc = c₁.bytes.size := rfl
        simp only [Bool.false_eq_true, if_false] at hs
        omega
      have hget : c'.get1 l.pc = op := by
        unfold Code.get1
        rw [hbytes, hnarrow, hpc, Array.getD_eq_getD_getElem?,
          Array.getElem?_append_right (Nat.le_refl _),
          Nat.sub_self]
        rfl
      exact hgoto (hget.symm.trans hop')
    · have := hf.within m hm
      have := hloose.ends
      omega
  refine ⟨l, c', ?_, ?_⟩
  · unfold branch
    refine EStateM.bind_eq_ok.mpr ⟨c, c, rfl, ?_⟩
    simp only [hgoto, if_false]
    refine EStateM.bind_eq_ok.mpr ⟨c, c, rfl, ?_⟩
    rw [if_neg (by simp [hnever, hlive])]
    refine EStateM.bind_eq_ok.mpr ⟨_, c₂, hjump, ?_⟩
    rw [hl, hc']
    rfl
  · constructor
    case onward => exact honward
    case pending => exact hpending
    case alive => exact halive'
    case arrives => rw [hl]; exact hframe₂
    case ready =>
      constructor
      case apart =>
        rw [hpending, honward.wide]
        exact List.pairwise_cons.mpr ⟨fun m hm => .inr ((hf.within m hm).trans hlow), h.held⟩
      case within =>
        rw [hpending, honward.wide, hsize]
        rintro m (_ | ⟨_, hm⟩)
        · exact Nat.le_of_eq hlpc
        · have := hf.within m hm
          omega
      case firm => rw [hpending]; exact fun _ => hfirm
      case loose => rw [hpending]; exact fun m hm hloose => absurd hloose (hfirm m hm)
      case level => exact fun _ => hframe'
      case joins => rw [hpending]; exact fun m hm => by cases hm
    case back =>
      rintro H p g t hover ⟨⟨n, hstays, hfits⟩, hnarrow, hshort⟩
      rw [hpending, Chain.toward_nil, Set.empty_union, Chain.toward_cons, Chain.toward_nil,
        Set.empty_union] at hstays hfits
      rw [honward.wide, hbytes] at hfits
      have hn : n = c₁.bytes.size + (jumpBytes c.wide op).size := by
        rcases hstays with hn | ⟨hloose, o, ho, hpc, -⟩
        · exact hn.trans hsize
        · refine absurd (hpc ▸ hloose) (hfirm o.1 ?_)
          rcases ho with rfl | ho
          · exact List.mem_cons_self
          · exact List.mem_cons_of_mem _ (hover o ho)
      rw [hn] at hfits
      have hsize' := hfits.size
      obtain ⟨hfits, hop', hlead⟩ := hfits.appendOpen hlow hlpc fun o ho =>
        hf.within o.1 (hover o ho)
      refine ⟨c₁.pc, hf.back hover hfits (hneeds ▸ hnarrow) hshort, ?_⟩
      intro e S S' b R harrival hcompare
      obtain rfl : e = c₁.pc := by
        rcases harrival with ⟨hc, rfl⟩ | ⟨-, rfl⟩
        · exact (hf.stays hc).symm
        · rfl
      rw [hsize]
      exact Program.reaches_jump hop hlpc hsize' hop' hlead hshort hcompare R

end StackCode
