import StackCode.Generate.Tree
import StackCode.Proofs.Deciding

/-!
# Expressions are evaluated

What the code of an expression comes to. As in `Deciding` a condition is a `Test`, a function of the
variables that may change them, and a value that is put on the stack is a `Fetch`.

An expression is used in more than one way: it is asked for an item, which may be loaded now or
later, for a value on the stack, or for a condition. `ExprCode.YieldsValue` says that the code
yields the value in each of the ways that ask for one, `ExprCode.YieldsTest` the same of a truth
value, which may also be asked for as a condition. Each form of expression has its lemma from the
parts that it has to the whole: literals, variables, assignments and parentheses, the operators,
and `?:`, both ways of which are put together with `TestPending.fork` and
`TrueBranchWritten.fork`.

Some steps leave no trace in what the machine does, such as noting a character range; these are
`Idles`.
-/

set_option maxRecDepth 4000

namespace StackCode

/-! ### Steps that the machine does not see -/

namespace MethodState

/-- Nothing that the machine could see has changed. -/
structure Idles (ζ : Seating) (s s' : MethodState) (O : List Link) (d : ℕ) : Prop where
  controlFlow : s.ControlFlow ζ s' O d (Spot.To id)
  live : s'.Live ↔ s.Live
  flat : s.Flat d → s'.Flat d

variable {ζ : Seating} {s s₁ s₂ : MethodState} {k : Cond} {O : List Link} {d d' : ℕ} {E : Test}
  {T : Spot → Outcome → Prop}

theorem Idles.refl (h : s.Ready ζ O d) : s.Idles ζ s O d := ⟨.refl h, Iff.rfl, id⟩

theorem Idles.of_code (h : s.Ready ζ O d) {c : Code} (hc : s.asm.code.Idles c O d []) :
    s.Idles ζ (Part.put c s) O d :=
  ⟨.of_idles h hc, Bool.coe_iff_coe.mpr hc.reachable, hc.frame⟩

theorem Idles.before (h : s.Idles ζ s₁ O d) (h' : s₁.ControlFlow ζ s₂ O d' T) :
    s.ControlFlow ζ s₂ O d' T :=
  h.controlFlow.after h'

theorem Idles.trans (h : s.Idles ζ s₁ O d) (h' : s₁.Idles ζ s₂ O d) : s.Idles ζ s₂ O d :=
  ⟨h.before h'.controlFlow, h'.live.trans h.live, fun hflat => h'.flat (h.flat hflat)⟩

theorem Idles.after (h : s.ControlFlow ζ s₁ O d T) (h' : s₁.Idles ζ s₂ O d) :
    s.ControlFlow ζ s₂ O d T where
  onward := h.onward.trans h'.controlFlow.onward
  ready := h'.controlFlow.ready
  back := fun hover hF => by
    obtain ⟨g₁, hg₁, hback₁⟩ := h'.controlFlow.back hover hF
    obtain ⟨g, hg, hback⟩ := h.back hover hg₁
    refine ⟨g, hg, fun m a o ho hm => ?_⟩
    have hmeets := hback m a o ho hm
    cases o with
    | here b => exact hback₁ m b _ rfl hmeets
    | answer v ν => exact hmeets

theorem Idles.testPending (h : s.Idles ζ s₁ O d) (h' : s₁.TestPending ζ s₂ k O d E) :
    s.TestPending ζ s₂ k O d E where
  onward := h.controlFlow.onward.trans h'.onward
  op := h'.op
  ready := h'.ready
  live := h'.live
  flat := fun hop hflat => h'.flat hop (h.flat hflat)
  onTrue := h'.onTrue
  onFalse := h'.onFalse
  back := fun hover hF => by
    obtain ⟨g₁, hg₁, hback₁⟩ := h'.back hover hF
    obtain ⟨g, hg, hback⟩ := h.controlFlow.back hover hg₁
    exact ⟨g, hg, fun m a hm => hback₁ m a (hback m a _ rfl hm)⟩

theorem TestPending.idles (h : s.TestPending ζ s₁ k O d E)
    (h' : s₁.Idles ζ s₂ (k.onTrue ++ (k.onFalse ++ O)) (d + k.op.effect.needs)) :
    s.TestPending ζ s₂ k O d E where
  onward := h.onward.trans h'.controlFlow.onward
  op := h.op
  ready := h'.controlFlow.ready
  live := h'.live.mpr h.live
  flat := fun hop hflat => by
    have hneeds : k.op.effect.needs = 0 := by
      rcases h.op with hop' | hop' | hop'
      · rw [hop']; decide
      · rw [hop']; decide
      · exact absurd hop' hop
    have hflat' := h'.flat
    rw [hneeds] at hflat'
    exact hflat' (h.flat hop hflat)
  onTrue := h.onTrue
  onFalse := h.onFalse
  back := fun hover hF => by
    obtain ⟨g₁, hg₁, hback₁⟩ := h'.controlFlow.back ((hover.toward _ _).toward _ _) hF
    obtain ⟨g, hg, hback⟩ := h.back hover hg₁
    refine ⟨g, hg, fun m a hm => ?_⟩
    refine (hback m a hm).imp id (.imp id ?_)
    exact fun ⟨S, hsettles, hmeets⟩ => ⟨S, hsettles, hback₁ m _ _ rfl hmeets⟩

end MethodState

section

variable {ζ : Seating} {s : MethodState} {O : List Link} {d d' : ℕ} {E : Test}
  {T : Spot → Outcome → Prop}

theorem Emit.curPc_succeeds (h : s.Ready ζ O d) :
    SucceedsWith curPc s fun _ s' => s.Idles ζ s' O d := by
  obtain ⟨pc, c', hrun, hc, -⟩ := curPc_idles h.code
  exact ⟨pc, c', hrun, .of_code h hc⟩

theorem Gen.touch_succeeds {f : Code → Code} (h : s.Ready ζ O d)
    (hf : s.asm.code.Idles (f s.asm.code) O d []) :
    SucceedsWith (touch f) s fun _ s' => s.Idles ζ s' O d :=
  .touch (.of_code h hf)

theorem Code.Ready.addRange {c : Code} {locks : List UInt16} (h : c.Ready O d locks)
    (row : RangeRow) :
    c.Idles (c.addRange row) O d locks := by
  unfold Code.addRange
  split
  · exact h.idles ⟨rfl, rfl, by simp, fun _ => rfl⟩ rfl rfl rfl rfl rfl ⟨rfl, rfl⟩
  · exact h.idles (.refl c) rfl rfl rfl rfl rfl ⟨rfl, rfl⟩

/-- Entering a step into the table of character ranges does not show. -/
theorem Gen.ranged_succeeds {α : Type} {x : Gen α} {Q : α → MethodState → Prop} {span : Span}
    {flags : UInt16} (h : s.Ready ζ O d)
    (hx : ∀ s₁, s.Idles ζ s₁ O d → SucceedsWith x s₁ fun a s₂ => ∃ O' d', s₂.Ready ζ O' d' ∧
      ∀ s₃, s₂.Idles ζ s₃ O' d' → Q a s₃) :
    SucceedsWith (ranged span flags x) s Q := by
  unfold ranged
  refine SucceedsWith.bind (P := fun _ s' => s = s') (.peek rfl) ?_
  rintro none _ rfl
  split
  · refine (hx s (.refl h)).mono fun a s₂ ⟨O', d', hready, hQ⟩ => hQ s₂ (.refl hready)
  · refine (SucceedsWith.emit (Emit.curPc_succeeds h)).bind fun start s₁ hs₁ => ?_
    refine (hx s₁ hs₁).bind fun a s₂ ⟨O', d', hready, hQ⟩ => ?_
    refine (SucceedsWith.emit (Emit.curPc_succeeds hready)).bind fun stop s₃ hs₃ => ?_
    refine (touch_succeeds hs₃.controlFlow.ready (hs₃.controlFlow.ready.code.addRange _)).bind
      fun _ s₄ hs₄ => .pure (hQ s₄ ?_)
    exact hs₃.trans hs₄

end

/-! ### Conditions -/

/-- The step evaluates a condition up to its last test. -/
def Tests (ζ : Seating) (x : Gen Cond) (d : ℕ) (E : Test) : Prop :=
  ∀ ⦃s : MethodState⦄ ⦃O : List Link⦄, s.Ready ζ O d → s.Live → SucceedsWith x s fun k s' =>
    s.TestPending ζ s' k O d E

section

variable {ζ : Seating} {d d' : ℕ} {E A B : Test} {T : Spot → Outcome → Prop}

theorem Tests.ranged {x : Gen Cond} (h : Tests ζ x d E) (span : Span) (flags : UInt16) :
    Tests ζ (Gen.ranged span flags x) d E := fun _ _ hs hlive =>
  Gen.ranged_succeeds hs fun _ hs₁ =>
    (h hs₁.controlFlow.ready (hs₁.live.mpr hlive)).mono fun _ _ hs₂ =>
    ⟨_, _, hs₂.ready, fun _ hs₃ => hs₁.testPending (hs₂.idles hs₃)⟩

theorem Course.ranged {α : Type} {x : Gen α} (h : Course ζ x d d' T) (span : Span)
    (flags : UInt16) :
    Course ζ (Gen.ranged span flags x) d d' T := fun _ O hs hlive =>
  Gen.ranged_succeeds hs fun _ hs₁ =>
    (h hs₁.controlFlow.ready (hs₁.live.mpr hlive)).mono fun _ _ hs₂ =>
    ⟨O, d', hs₂.1.ready, fun _ hs₃ =>
      ⟨hs₁.before (MethodState.Idles.after hs₂.1 hs₃), hs₃.live.mpr hs₂.2⟩⟩

namespace Gen

theorem both_tests {lhs rhs : ExprCode} (hl : Tests ζ (lhs.test RangeFlag.flowController) d E)
    (hr : Tests ζ (rhs.test RangeFlag.flowTarget) d A) : Tests ζ (both lhs rhs) d (E.and A) := by
  intro s O h hlive
  refine (hl h hlive).bind fun l s₁ hs₁ => ?_
  split
  · rename_i hfalse
    exact .pure (hs₁.congr fun ν _ hno => by simp [Test.and, hno hfalse, Prod.ext_iff])
  · rename_i hfalse
    refine (SucceedsWith.emit hs₁.jumpFalse).bind fun no s₂ hs₂ => ?_
    refine (SucceedsWith.emit hs₂.resolve).bind ?_
    rintro _ s₃ ⟨hs₃, hlive₃⟩
    refine (hr hs₃.ready (hlive₃ (by simpa using hfalse))).bind fun r s₄ hs₄ => ?_
    refine (SucceedsWith.emit (Cond.succeeds_join hs₃.arrives hs₄.onFalse)).bind ?_
    rintro no' _ ⟨rfl, hperm⟩
    exact .pure (hs₃.testPending hs₄ hperm (fun ν hb => by simp [Test.and, hb])
      fun _ ν hb => by simp [Test.and, hb])

theorem either_tests {lhs rhs : ExprCode} (hl : Tests ζ (lhs.test RangeFlag.flowController) d E)
    (hr : Tests ζ (rhs.test RangeFlag.flowTarget) d A) : Tests ζ (either lhs rhs) d (E.or A) := by
  intro s O h hlive
  refine (hl h hlive).bind fun l s₁ hs₁ => ?_
  split
  · rename_i htrue
    exact .pure (hs₁.congr fun ν hyes _ => by simp [Test.or, hyes htrue, Prod.ext_iff])
  · rename_i htrue
    -- seen from the opposite, the second condition is made if the first holds
    rw [Cond.jumpTrue_eq hs₁.op]
    have hfalse : l.negate.isFalse = false := by
      rw [← Cond.isTrue_negate hs₁.negate.op]
      simpa [Cond.negate, Cond.isTrue, hs₁.op.negate_row.1] using htrue
    refine (SucceedsWith.emit hs₁.negate.jumpFalse).bind fun yes s₂ hs₂ => ?_
    refine (SucceedsWith.emit hs₂.resolve).bind ?_
    rintro _ s₃ ⟨hs₃, hlive₃⟩
    refine (hr hs₃.ready (hlive₃ hfalse)).bind fun r s₄ hs₄ => ?_
    refine (SucceedsWith.emit (Cond.succeeds_join hs₃.arrives hs₄.onTrue)).bind ?_
    rintro yes' _ ⟨rfl, hperm⟩
    refine .pure ?_
    have hboth : s.TestPending ζ s₄ ⟨r.op.negate, r.onFalse, yes'⟩ O d (E.negate.and A.negate) :=
      hs₃.testPending hs₄.negate hperm (fun ν hb => by simp [Test.and, hb])
        fun _ ν hb => by simp [Test.and, hb]
    have hback := hboth.negate
    rw [Test.negate_and, Cond.negate, hs₄.op.negate_row.1] at hback
    exact hback

theorem condCond_tests {test onTrue onFalse : ExprCode}
    (htest : Tests ζ (test.test RangeFlag.flowController) d E)
    (honTrue : Tests ζ (onTrue.test RangeFlag.flowTarget) d A)
    (honFalse : Tests ζ (onFalse.test RangeFlag.flowTarget) d B) :
    Tests ζ (condCond test onTrue onFalse) d (E.choose A B) := by
  intro s O h hlive
  refine (htest h hlive).bind fun k s₁ hs₁ => ?_
  split
  · rename_i htrue
    refine (SucceedsWith.emit (hs₁.known htrue)).bind ?_
    rintro _ s₂ ⟨hs₂, hlive₂⟩
    refine (honTrue hs₂.ready hlive₂).mono fun t s₃ hs₃ => ?_
    exact hs₂.testPending hs₃ (.refl _) (fun ν hb => by simp [Test.choose, hb]) fun hno =>
      absurd rfl hno
  split
  · rename_i hfalse
    rw [← Cond.isTrue_negate hs₁.op] at hfalse
    refine (SucceedsWith.emit (hs₁.negate.known hfalse)).bind ?_
    rintro _ s₂ ⟨hs₂, hlive₂⟩
    refine (honFalse hs₂.ready hlive₂).mono fun t s₃ hs₃ => ?_
    rw [← Test.negate_choose]
    exact hs₂.testPending hs₃ (.refl _) (fun ν hb => by simp [Test.choose, hb]) fun hno =>
      absurd rfl hno
  · rename_i htrue hfalse
    refine (SucceedsWith.emit hs₁.jumpFalse).bind fun no s₂ hs₂ => ?_
    have hsome := hs₂.full (by simpa using htrue)
    refine (SucceedsWith.emit hs₂.resolve).bind ?_
    rintro _ s₃ ⟨hs₃, hlive₃⟩
    refine (honTrue hs₃.ready (hlive₃ (by simpa using hfalse))).bind fun t s₄ hs₄ => ?_
    refine (SucceedsWith.emit hs₄.jumpFalse).bind fun no' s₅ hs₅ => ?_
    refine (SucceedsWith.emit hs₅.resolve).bind ?_
    rintro _ s₆ ⟨hs₆, -⟩
    refine (SucceedsWith.emit (Emit.goto_splits hs₆.ready)).bind ?_
    rintro yes s₇ ⟨hs₇, hready₇⟩
    have hready : s₇.Ready ζ (no ++ (yes ++ (no' ++ O))) d := by
      refine (hready₇ d).perm (List.perm_iff_count.mpr fun l => ?_)
      simp only [List.count_append]
      omega
    refine (SucceedsWith.emit (Emit.resolve_waits hready hs₃.arrives)).bind fun _ s₈ hs₈ => ?_
    refine (honFalse hs₈.ready (hs₈.live (.inr hsome))).bind fun f s₉ hs₉ => ?_
    refine (SucceedsWith.emit (Cond.succeeds_join hs₇.arrives hs₉.onTrue)).bind ?_
    rintro yes' _ ⟨rfl, hyes⟩
    refine (SucceedsWith.emit (Cond.succeeds_join hs₆.arrives hs₉.onFalse)).bind ?_
    rintro no'' _ ⟨rfl, hno⟩
    exact .pure (hs₃.choose hs₆ hs₇ hs₈ hs₉ rfl hyes hno)

end Gen

end

/-! ### Both ways of a condition, as they are written -/

namespace MethodState

variable {σ β : Type} [Part σ] {ζ : Seating} {s s₁ : MethodState} {k : Cond} {O : List Link}
  {d d' : ℕ} {E : Test}
  {T : Spot → Outcome → Prop} {R : β → MethodState → Prop}

/-- The way of a condition that holds is written, unless it is known not to be taken, and left by
a `goto`. If `live`, control comes behind it; if `flat`, it leaves the depth of the stack as it
was. -/
theorem TestPending.fork (h : s.TestPending ζ s₁ k O d E)
    (up : ∀ {α : Type}, Emit α → EStateM Error σ α)
    (hup : ∀ {α : Type} {x : Emit α} {s : MethodState} {Q : α → MethodState → Prop},
      SucceedsWith x s Q → SucceedsWith (up x) s Q)
    (live flat : Bool) (d' : ℕ) (T : Spot → Outcome → Prop) {x : EStateM Error σ Unit}
    {f : Chain → Chain → EStateM Error σ β} (hflat : flat = true → d = d' ∧ s.Flat d)
    (hx : ∀ s₂ O', s.Onward s₂ → s₂.Ready ζ O' d → s₂.Live → (flat = true → s₂.Flat d) →
      SucceedsWith x s₂ fun _ s₃ => s₂.ControlFlow ζ s₃ O' d' T ∧ (live = true → s₃.Live) ∧
        (flat = true → s₃.Flat d'))
    (hf : ∀ no out s', s.TrueBranchWritten ζ s' no out O d d' E T →
      (live = true → no ≠ [] ∨ out ≠ []) → (flat = true → s'.Flat d') → SucceedsWith
        (f no out) s' R) :
    SucceedsWith (up k.jumpFalse >>= fun no => if k.isFalse = true then pure [] >>= f no else
      up (Emit.resolve k.onTrue) >>= fun _ => x >>= fun _ => up
        (Emit.branch .goto) >>= f no) s₁ R := by
  refine (hup h.jumpFalse).bind fun no s₂ hs₂ => ?_
  split
  · rename_i hfalse
    obtain ⟨hs₂', hdead, hsome⟩ := hs₂.skippedUnless hfalse
    refine hf no [] s₂ (hs₂'.trueBranchWritten hdead hsome) (fun _ => .inl hsome) fun hq => ?_
    obtain ⟨rfl, hs⟩ := hflat hq
    exact hs₂.flat hs
  · rename_i hfalse
    refine (hup hs₂.resolve).bind fun _ s₃ ⟨hs₃, hlive₃⟩ => ?_
    refine (hx s₃ _ hs₃.onward hs₃.ready (hlive₃ (by simpa using hfalse)) fun hq =>
      hs₃.flat (hflat hq).2).bind fun _ s₄ ⟨hs₄, hlive₄, hflat₄⟩ => ?_
    refine (hup (Emit.goto_splits hs₄.ready)).bind fun out s₅ ⟨hs₅, hready₅⟩ => ?_
    exact hf no out s₅ (hs₃.goto hs₄ hs₅ hready₅)
      (fun hl => .inr (hs₅.full (by decide) (hlive₄ hl)))
      fun hq => hs₅.flat (.inr (hflat₄ hq))

/-- The other way of a condition is written if there are branches to it. -/
theorem TrueBranchWritten.fork {no out : Chain} (h : s.TrueBranchWritten ζ s₁ no out O d d' E T)
    (up : ∀ {α : Type}, Emit α → EStateM Error σ α)
    (hup : ∀ {α : Type} {x : Emit α} {s : MethodState} {Q : α → MethodState → Prop},
      SucceedsWith x s Q → SucceedsWith (up x) s Q)
    (live flat : Bool) (W : Spot → Outcome → Prop) {x : EStateM Error σ Unit}
    {r : Unit → EStateM Error σ β} (hlive : live = true → no ≠ [] ∨ out ≠ [])
    (hflat : flat = true → s₁.Flat d')
    (hx : ∀ s₂ O', s.Onward s₂ → s₂.Ready ζ O' d → s₂.Live → (flat = true → s₂.Flat d') →
      SucceedsWith x s₂ fun _ s₃ => s₂.ControlFlow ζ s₃ O' d' W ∧ (live = true → s₃.Live) ∧
        (flat = true → s₃.Flat d'))
    (hr : ∀ s', s.BranchesWritten ζ s' out O d'
      (fun a => if (E a.vals).1 then T (a.tested E) else W (a.tested E)) →
        (live = true → s'.Live ∨ out ≠ []) → (flat = true → s'.Flat d') → SucceedsWith
          (r ()) s' R) :
    SucceedsWith (if List.isEmpty no = true then r () else up (Emit.resolve no) >>= fun _ =>
      x >>= r) s₁ R := by
  split
  · rename_i hempty
    have hnil : no = [] := by simpa using hempty
    exact hr s₁ (h.alone hnil) (fun hl => .inr ((hlive hl).resolve_left fun hno => hno hnil)) hflat
  · rename_i hempty
    refine (hup (Emit.resolve_waits h.ready h.arrives)).bind fun _ s₂ hs₂ => ?_
    refine (hx s₂ _ (h.onward.trans hs₂.onward) hs₂.ready (hs₂.live (.inr (by simpa using hempty)))
      fun hq => hs₂.flat d' (hflat hq)).bind ?_
    exact fun _ s₃ ⟨hs₃, hlive₃, hflat₃⟩ =>
      hr s₃ (h.otherwise hs₂ hs₃) (fun hl => .inl (hlive₃ hl)) hflat₃

end MethodState

/-! ### Values -/

/-- What reading a value comes to: a word, and the variables behind it. -/
abbrev Fetch := Valuation → Int32 × Valuation

/-- A condition as a value. -/
def Test.word (E : Test) : Fetch := fun ν => (bit (E ν).1, (E ν).2)

/-- A value is put on the stack. -/
def Spot.eval (w : Fetch) (a : Spot) : Spot := ⟨(w a.vals).1 :: a.stack, (w a.vals).2⟩

namespace MethodState

variable {ζ : Seating} {s s₁ s₂ : MethodState} {k : Cond} {i : Item} {O : List Link} {d d' : ℕ}
  {E : Test} {w : Fetch}
  {T : Spot → Outcome → Prop}

/-- What is left to do about a condition is one test of what is on the stack. -/
theorem ControlFlow.testPending {op : Opcode} (hop : op.Compares)
    (h : s.ControlFlow ζ s₁ O (d + op.effect.needs) T) (hlive : s₁.Live)
    (hT : ∀ a, ∃ S, T a (.here ⟨S, (E a.vals).2⟩) ∧ op.compare? S = some ((E a.vals).1, a.stack)) :
    s.TestPending ζ s₁ { op } O d E where
  onward := h.onward
  op := .inr (.inr hop)
  ready := h.ready
  live := hlive
  flat := fun hno => absurd hop hno
  onTrue := fun _ hl => by cases hl
  onFalse := fun _ hl => by cases hl
  back := fun hover hF => by
    simp only [Chain.toward_nil, Set.empty_union] at hF
    obtain ⟨g, hg, hback⟩ := h.back hover hF
    refine ⟨g, hg, fun m a hm => .inr (.inr ?_)⟩
    obtain ⟨S, hS, hcompare⟩ := hT a
    exact ⟨S, hop.decidesTest.mpr hcompare, hback m a _ hS hm⟩

/-- A condition that is known needs no code. -/
theorem Ready.testPending (h : s.Ready ζ O d) (hlive : s.Live) (b : Bool) :
    s.TestPending ζ s (.ofBool b) O d fun ν => (b, ν) where
  onward := .refl s
  op := by cases b; exacts [.inr (.inl rfl), .inl rfl]
  ready := by cases b <;> exact h
  live := hlive
  flat := fun _ hflat => hflat
  onTrue := fun _ hl => by cases hl
  onFalse := fun _ hl => by cases hl
  back := fun hover hF => by
    simp only [Cond.ofBool, Chain.toward_nil, Set.empty_union] at hF
    refine ⟨_, hF, fun m a hm => .inr (.inr ⟨a.stack, ?_, hm⟩)⟩
    cases b <;> exact ⟨rfl, rfl⟩

/-- A condition is turned into a value. -/
theorem TestPending.load (h : s.TestPending ζ s₁ k O d E) :
    SucceedsWith k.load s₁ fun _ s₂ => s.ControlFlow ζ s₂ O (d + 1) (Spot.To (Spot.eval E.word)) ∧
      s₂.Live := by
  have hpush (v : Int32) (hv : Int32.between v (-1) 5 = true) :
      Course ζ (Emit.plain (.iconst0 + v.toInt8.toUInt8)) d (d + 1) (Spot.To (Spot.push v)) :=
        .iconst hv
  refine h.fork (fun x => x) id true false (d + 1) (Spot.To (Spot.push 1))
    (fun hflat => by cases hflat) ?_ ?_
  · exact fun s₂ O' _ hs₂ hlive _ => (hpush 1 rfl hs₂ hlive).mono fun _ _ hs₃ =>
      ⟨hs₃.1, fun _ => hs₃.2, fun hflat => by cases hflat⟩
  · intro no out s₂ hs₂ hlive hflat
    refine hs₂.fork (fun x => x) id true false (Spot.To (Spot.push 0)) hlive hflat ?_ ?_
    · exact fun s₃ O' _ hs₃ hlive _ => (hpush 0 rfl hs₃ hlive).mono fun _ _ hs₄ =>
        ⟨hs₄.1, fun _ => hs₄.2, fun hflat => by cases hflat⟩
    · intro s₃ hs₃ hlive _
      refine hs₃.resolve.mono fun _ s₄ hs₄ => ⟨hs₄.1.mono ?_, hs₄.2.1 (hlive rfl)⟩
      rintro a _ rfl
      by_cases hb : (E a.vals).1 = true
      · simp [hb, Spot.To, Spot.push, Spot.tested, Spot.eval, Test.word, bit]
      · simp [hb, Spot.To, Spot.push, Spot.tested, Spot.eval, Test.word, bit]

/-- Loading the item puts the value on the stack. -/
def Offers (ζ : Seating) (s s' : MethodState) (i : Item) (O : List Link) (d : ℕ)
    (w : Fetch) : Prop :=
  SucceedsWith i.load s' fun j s'' => (∃ k, j = .stack k) ∧
    s.ControlFlow ζ s'' O (d + 1) (Spot.To (Spot.eval w)) ∧ s''.Live

/-- The item stands for a condition, as a value and as a test. -/
structure Answers (ζ : Seating) (s s' : MethodState) (i : Item) (O : List Link) (d : ℕ)
    (E : Test) : Prop where
  kind : i.kind = .byte
  load : s.Offers ζ s' i O d E.word
  toCond : SucceedsWith i.toCond s' fun k s'' => s.TestPending ζ s'' k O d E

theorem TestPending.answers (h : s.TestPending ζ s₁ k O d E) : s.Answers ζ s₁ (.cond k) O d E :=
  ⟨rfl, (SucceedsWith.onCode h.load).bind fun _ _ hs => .pure ⟨⟨_, rfl⟩, hs⟩, .pure h⟩

/-- A value is tested by comparing it with 0. -/
theorem Offers.answers (h : s.Offers ζ s₁ i O d E.word) (hkind : i.kind = .byte)
    (hcond : ∀ k, i ≠ .cond k) (hconst : ∀ k c, i ≠ .const k c) : s.Answers ζ s₁ i O d E := by
  refine ⟨hkind, h, ?_⟩
  have htoCond : i.toCond = i.load >>= fun _ => pure { op := .ifne } := by
    cases i with
    | cond k => exact absurd rfl (hcond k)
    | const k c => exact absurd rfl (hconst k c)
    | _ => rfl
  rw [htoCond]
  refine h.bind fun _ s₂ ⟨_, hs₂⟩ =>
    .pure (hs₂.1.testPending (by decide) hs₂.2 fun a => ⟨_, rfl, ?_⟩)
  show some (decide (bit (E a.vals).1 ≠ 0), a.stack) = _
  cases (E a.vals).1 <;> rfl

/-- The value is on the stack. -/
theorem ControlFlow.offers (h : s.ControlFlow ζ s₁ O (d + 1) (Spot.To (Spot.eval w)))
    (hlive : s₁.Live) (k : Kind) :
    s.Offers ζ s₁ (.stack k) O d w := .pure ⟨⟨k, rfl⟩, h, hlive⟩

end MethodState

/-! ### The code of expressions -/

/-- The attributes of an expression of type `t`. If it is noted as a constant, that is its value. -/
structure ExprInfo.Notes (info : ExprInfo) (t : Ty) (w : Fetch) : Prop where
  ty : info.ty = t
  const : ∀ c, info.const = some c → ∃ v, c = .int v ∧ ∀ ν, w ν = (v, ν)

namespace ExprCode

/-- The code yields a value of type `t`. -/
structure YieldsValue (ζ : Seating) (e : ExprCode) (t : Ty) (w : Fetch) : Prop where
  info : e.info.Notes t w
  item : ∀ ⦃s : MethodState⦄ ⦃O : List Link⦄ ⦃d : ℕ⦄, s.Ready ζ O d → s.Live →
    SucceedsWith (e.item t) s fun i s' => i.kind = t.kind ∧ s.Offers ζ s' i O d w

/-- The code evaluates a condition, whatever is wanted of it. -/
structure YieldsTest (ζ : Seating) (e : ExprCode) (E : Test) : Prop where
  info : e.info.Notes .boolean E.word
  item : ∀ ⦃s : MethodState⦄ ⦃O : List Link⦄ ⦃d : ℕ⦄, s.Ready ζ O d → s.Live →
    SucceedsWith (e.item .boolean) s fun i s' => s.Answers ζ s' i O d E
  cond : ∀ d, Tests ζ e.cond d E
  bareCond : ∀ d, Tests ζ e.bareCond d E

variable {ζ : Seating} {e : ExprCode} {t : Ty} {w : Fetch} {E : Test} {d : ℕ} {ctx : Context}
  {info : ExprInfo}
  {visit : Ty → Gen Item}

theorem YieldsTest.yields (h : e.YieldsTest ζ E) : e.YieldsValue ζ .boolean E.word :=
  ⟨h.info, fun _ _ _ hs hlive => (h.item hs hlive).mono fun _ _ hi => ⟨hi.kind, hi.load⟩⟩

theorem YieldsTest.test (h : e.YieldsTest ζ E) (flags : UInt16) : Tests ζ (e.test flags) d E :=
  (h.cond d).ranged _ _

theorem YieldsTest.bareTest (h : e.YieldsTest ζ E) (flags : UInt16) :
    Tests ζ (e.bareTest flags) d E :=
  (h.bareCond d).ranged _ _

theorem coerce_self {i : Item} {k : Kind} (h : i.kind = k) : i.coerce k = pure i := by
  unfold Item.coerce
  exact if_pos h

/-- A value of the type wanted needs no conversion. -/
theorem YieldsValue.value (h : e.YieldsValue ζ t w) {s : MethodState} {O : List Link}
    (hs : s.Ready ζ O d) (hlive : s.Live) :
    SucceedsWith (e.value t) s fun i s' => i.kind = t.kind ∧ s.Offers ζ s' i O d w := by
  refine (h.item hs hlive).bind fun i s₁ hi => ?_
  rw [coerce_self hi.1]
  exact .asm (.pure hi)

theorem YieldsValue.push (h : e.YieldsValue ζ t w) :
    Course ζ (e.push t) d (d + 1) (Spot.To (Spot.eval w)) := fun _ _ hs hlive =>
  (h.value hs hlive).bind fun _ _ hi => .asm (hi.2.mono fun _ _ hj => hj.2)

/-- Constants come as they are noted. -/
theorem itemOf_const {v : Int32} (hty : info.ty = t) (hconst : info.const = some (.int v)) :
    itemOf info visit t =
      (do Gen.checkString info.span (some (.int v)); return .const t.kind (.int v)) := by
  rw [itemOf, hconst, hty]

theorem checkString_int {span : Span} {v : Int32} {s : MethodState} {Q : Unit → MethodState → Prop}
    (h : Q () s) :
    SucceedsWith (Gen.checkString span (some (.int v))) s Q := ⟨(), s, rfl, h⟩

/-- A constant is loaded. -/
theorem const_offers (ht : t.kind = .int ∨ t.kind = .byte) (v : Int32) {s : MethodState}
    {O : List Link} (hs : s.Ready ζ O d) (hlive : s.Live) :
    s.Offers ζ s (.const t.kind (.int v)) O d fun ν => (v, ν) := by
  have hload : Item.loadConst t.kind (.int v) = Item.loadInt v := by
    rcases ht with ht | ht <;> rw [ht] <;> rfl
  refine SucceedsWith.bind (P := fun _ s' => s.ControlFlow ζ s' O (d + 1) (Spot.To (Spot.push v)) ∧
    s'.Live) ?_ fun _ _ hs' => ?_
  · rw [hload]
    exact Course.loadInt v hs hlive
  · exact .pure ⟨by rcases ht with ht | ht <;> rw [ht] <;> exact ⟨_, rfl⟩, hs'⟩

theorem ofItem_yields (ht : t.kind = .int ∨ t.kind = .byte) (hinfo : info.Notes t w)
    (hvisit : info.const = none → ∀ ⦃s : MethodState⦄ ⦃O : List Link⦄ ⦃d : ℕ⦄, s.Ready ζ O d →
      s.Live → SucceedsWith (visit t) s fun i s' => i.kind = t.kind ∧ s.Offers ζ s' i O d w) :
    (ofItem ctx info visit).YieldsValue ζ t w := by
  refine ⟨hinfo, fun s O d hs hlive => ?_⟩
  show SucceedsWith (itemOf info visit t) s _
  cases hconst : info.const with
  | none => rw [itemOf, hconst]; exact hvisit hconst hs hlive
  | some c =>
      obtain ⟨v, rfl, hw⟩ := hinfo.const c hconst
      rw [itemOf_const hinfo.ty hconst]
      refine (checkString_int (Q := fun _ s' => s = s') rfl).bind ?_
      rintro _ _ rfl
      obtain rfl : w = fun ν => (v, ν) := funext hw
      exact .pure ⟨rfl, const_offers ht v hs hlive⟩

theorem ofItem_yieldsTest (hinfo : info.Notes .boolean E.word)
    (hvisit : info.const = none → ∀ ⦃s : MethodState⦄ ⦃O : List Link⦄ ⦃d : ℕ⦄, s.Ready ζ O d →
      s.Live → SucceedsWith (visit .boolean) s fun i s' => s.Answers ζ s' i O d E) :
    (ofItem ctx info visit).YieldsTest ζ E := by
  have hitem : ∀ ⦃s : MethodState⦄ ⦃O : List Link⦄ ⦃d : ℕ⦄, s.Ready ζ O d → s.Live →
      SucceedsWith (itemOf info visit .boolean) s fun i s' => s.Answers ζ s' i O d E := by
    intro s O d hs hlive
    cases hconst : info.const with
    | none => rw [itemOf, hconst]; exact hvisit hconst hs hlive
    | some c =>
        obtain ⟨v, rfl, hw⟩ := hinfo.const c hconst
        rw [itemOf_const hinfo.ty hconst]
        refine (checkString_int (Q := fun _ s' => s = s') rfl).bind ?_
        rintro _ _ rfl
        have hv (ν : Valuation) : bit (E ν).1 = v ∧ (E ν).2 = ν := Prod.ext_iff.mp (hw ν)
        obtain rfl : E = fun ν => (v != 0, ν) := by
          funext ν
          refine Prod.ext ?_ (hv ν).2
          rw [← (hv ν).1]
          cases (E ν).1 <;> rfl
        refine .pure ⟨rfl, ?_, .pure (hs.testPending hlive _)⟩
        rw [show Test.word (fun ν => (v != 0, ν)) = fun ν => (v, ν) from funext hw]
        exact const_offers (.inr rfl) v hs hlive
  have hcond (d : ℕ) : Tests ζ (ofItem ctx info visit).cond d E := by
    intro s O hs hlive
    refine SucceedsWith.bind (P := fun i s' => s.Answers ζ s' i O d E) ?_ fun i _ hi =>
      .asm hi.toCond
    refine (hitem hs hlive).bind fun i _ hi => ?_
    rw [coerce_self (show i.kind = Ty.boolean.kind from hi.kind)]
    exact .asm (.pure hi)
  exact ⟨hinfo, hitem, hcond, hcond⟩

end ExprCode

/-! ### Operators -/

namespace BinaryOp

/-- Whether a comparison holds of two integers. -/
def relate : BinaryOp → Int32 → Int32 → Bool
  | .eq, a, b => a = b
  | .ne, a, b => a ≠ b
  | .lt, a, b => a < b
  | .ge, a, b => b ≤ a
  | .gt, a, b => b < a
  | .le, a, b => a ≤ b
  | _, _, _ => false

/-- What an operator makes of two truth values, both of which it takes in. -/
def merge : BinaryOp → Bool → Bool → Bool
  | .bitAnd, a, b => a && b
  | .bitOr, a, b => a || b
  | .bitXor, a, b => a ^^ b
  | .eq, a, b => a == b
  | .ne, a, b => a != b
  | _, _, _ => false

variable {op : BinaryOp} {t : Ty}

/-- The branch that a comparison of integers ends with. -/
theorem select_comparison (hop : op.isComparison = true) (ht : t.family? = some .int) :
    ∃ o ∈ Opcode.pairTests, op.select t = .ok ⟨none, o⟩ ∧ ∀ a b, Opcode.related
      (o - Opcode.ifIcmpeq) a b = op.relate a b := by
  unfold select
  rw [ht]
  cases op with
  | eq => exact ⟨.ifIcmpeq, by decide, rfl, fun _ _ => rfl⟩
  | ne => exact ⟨.ifIcmpne, by decide, rfl, fun _ _ => rfl⟩
  | lt => exact ⟨.ifIcmplt, by decide, rfl, fun _ _ => rfl⟩
  | ge => exact ⟨.ifIcmpge, by decide, rfl, fun _ _ => rfl⟩
  | gt => exact ⟨.ifIcmpgt, by decide, rfl, fun _ _ => rfl⟩
  | le => exact ⟨.ifIcmple, by decide, rfl, fun _ _ => rfl⟩
  | _ => cases hop

/-- The operators that combine truth values bit by bit. -/
def isBitwise : BinaryOp → Bool
  | bitAnd | bitOr | bitXor => true
  | _ => false

theorem select_bitwise (hop : op.isBitwise = true) :
    ∃ o, (o = .iand ∨ o = .ior ∨ o = .ixor) ∧ op.select .boolean = .ok ⟨none, o⟩ ∧
      ∀ a b, o.combine (bit a) (bit b) = bit (op.merge a b) := by
  cases op with
  | bitAnd => exact ⟨.iand, .inl rfl, rfl, by decide⟩
  | bitOr => exact ⟨.ior, .inr (.inl rfl), rfl, by decide⟩
  | bitXor => exact ⟨.ixor, .inr (.inr rfl), rfl, by decide⟩
  | _ => cases hop

/-- Comparing truth values is comparing the words for them. -/
theorem relate_bit (hop : op = .eq ∨ op = .ne) (a b : Bool) :
    op.relate (bit a) (bit b) = op.merge a b := by
  rcases hop with rfl | rfl <;> cases a <;> cases b <;> decide

end BinaryOp

/-- Two values are read one after the other and compared. -/
def Fetch.compare (w w' : Fetch) (f : Int32 → Int32 → Bool) : Test := fun ν =>
  (f (w ν).1 (w' (w ν).2).1, (w' (w ν).2).2)

/-- Two conditions are evaluated one after the other, whatever the first comes to. -/
def Test.merge (A B : Test) (f : Bool → Bool → Bool) : Test :=
  fun ν => (f (A ν).1 (B (A ν).2).1, (B (A ν).2).2)

/-- A value is read and then stored into a variable. -/
def Fetch.store (w : Fetch) (x : LocalVar) : Fetch := fun ν => ((w ν).1, (w ν).2.set x (w ν).1)

namespace Gen

variable {op : BinaryOp} {t result : Ty} {rhs : ExprCode} {rhsIsNull : Bool} {o : Opcode}

theorem select_bind {s : Selection} (h : op.select t = .ok s) (f : Selection → Gen Item) :
    (liftM (op.select t) >>= f) = f s := by
  rw [h]
  rfl

/-- Comparing with the constant 0 takes no second operand. -/
theorem finishBinary_zero (hsel : op.select t = .ok ⟨none, o⟩) (ho : o ∈ Opcode.pairTests)
    (hconst : rhs.info.const = some (.int 0)) :
    finishBinary op t rhs rhsIsNull result = pure (.cond { op := o - .ifIcmpeq + .ifeq }) := by
  have hrow : ∀ o ∈ Opcode.pairTests, Opcode.ifIcmpeq ≤ o ∧ o ≤ Opcode.ifIcmple ∧
      (o - .ifIcmpeq + .ifeq : Opcode).isConditional = true := by decide
  obtain ⟨hlo, hhi, hcond⟩ := hrow o ho
  unfold finishBinary
  rw [select_bind hsel, if_pos ⟨hlo, hhi, hconst⟩]
  exact if_pos hcond

theorem finishBinary_pair (hsel : op.select t = .ok ⟨none, o⟩) (ho : o ∈ Opcode.pairTests)
    (hshift : op.isShift = false) (hconst : rhs.info.const ≠ some (.int 0)) :
    finishBinary op t rhs rhsIsNull result = rhs.push t >>= fun _ => pure (.cond { op := o }) := by
  have hrow : ∀ o ∈ Opcode.pairTests, ¬ Opcode.ifAcmpeq ≤ o ∧ o.isConditional = true := by decide
  obtain ⟨hno, hcond⟩ := hrow o ho
  unfold finishBinary
  rw [select_bind hsel, if_neg fun h => hconst h.2.2, if_neg fun h => hno h.1, hshift]
  refine congrArg (rhs.push t >>= ·) (funext fun _ => ?_)
  exact if_pos hcond

theorem finishBinary_bitwise (hsel : op.select t = .ok ⟨none, o⟩)
    (ho : o = .iand ∨ o = .ior ∨ o = .ixor) (hshift : op.isShift = false) :
    finishBinary op t rhs rhsIsNull result =
      rhs.push t >>= fun _ => liftM (Emit.plain o) >>= fun _ => pure (.ofTy result) := by
  have hrow : ¬ Opcode.ifIcmpeq ≤ o ∧ ¬ Opcode.ifAcmpeq ≤ o ∧ o.isConditional = false := by
    rcases ho with rfl | rfl | rfl <;> decide
  obtain ⟨hno, hno', hcond⟩ := hrow
  unfold finishBinary
  rw [select_bind hsel, if_neg fun h => hno h.1, if_neg fun h => hno' h.1, hshift]
  refine congrArg (rhs.push t >>= ·) (funext fun _ => ?_)
  exact if_neg (by simp [hcond])

end Gen

namespace ExprCode

variable {ζ : Seating} {lhs rhs : ExprCode} {t result : Ty} {w w' : Fetch} {A B : Test}
  {op : BinaryOp} {rhsIsNull : Bool}
  {s : MethodState} {O : List Link} {d : ℕ}

theorem isShift_of_isComparison (h : op.isComparison = true) : op.isShift = false := by
  cases op <;> first | rfl | cases h

/-- A comparison of integers. With the constant 0 on the right there is nothing more to load. -/
theorem YieldsValue.compares (hl : lhs.YieldsValue ζ t w) (hr : rhs.YieldsValue ζ t w')
    (ht : t.family? = some .int) (hop : op.isComparison = true) (hs : s.Ready ζ O d)
    (hlive : s.Live) :
    SucceedsWith (lhs.push t >>= fun _ => Gen.finishBinary op t rhs rhsIsNull result) s fun i s' =>
      s.Answers ζ s' i O d (w.compare w' op.relate) := by
  obtain ⟨o, ho, hsel, hrel⟩ := op.select_comparison hop ht
  have hrow : ∀ o ∈ Opcode.pairTests, o ∉ Opcode.zeroTests ∧ o.effect.needs = 2 ∧
      (o - .ifIcmpeq + .ifeq : Opcode).Compares ∧ (o - .ifIcmpeq + .ifeq : Opcode).effect.needs =
        1 := by decide
  obtain ⟨hnot, hneeds, hzero, hneeds'⟩ := hrow o ho
  have hcompare (a b : Int32) (S : List Int32) :
      o.compare? (b :: a :: S) = some (op.relate a b, S) := by
    rw [Opcode.compare?, if_neg hnot, if_pos ho, ← hrel]
  refine (hl.push hs hlive).bind fun _ s₁ hs₁ => ?_
  by_cases hconst : rhs.info.const = some (.int 0)
  · obtain ⟨v, hv, hw'⟩ := hr.info.const _ hconst
    obtain rfl := Const.int.inj hv
    rw [Gen.finishBinary_zero hsel ho hconst]
    have hflow := hs₁.1
    rw [← hneeds'] at hflow
    refine .pure (hflow.testPending hzero hs₁.2 fun a => ⟨(w a.vals).1 :: a.stack, ?_, ?_⟩).answers
    · simp [Spot.To, Spot.eval, Fetch.compare, hw']
    · rw [Opcode.compare?_zero ho, hcompare, Fetch.compare, hw']
  · rw [Gen.finishBinary_pair hsel ho (isShift_of_isComparison hop) hconst]
    refine (hr.push hs₁.1.ready hs₁.2).bind fun _ s₂ hs₂ => ?_
    have hflow := hs₁.1.after hs₂.1
    rw [show d + 1 + 1 = d + o.effect.needs by rw [hneeds]] at hflow
    refine .pure (hflow.testPending (E := w.compare w' op.relate) (.inr ho) hs₂.2 fun a =>
      ⟨_, rfl, ?_⟩).answers
    exact hcompare _ _ _

/-- Truth values combined bit by bit. -/
theorem YieldsValue.combines (hl : lhs.YieldsValue ζ .boolean A.word)
    (hr : rhs.YieldsValue ζ .boolean B.word) (hop : op.isBitwise = true) (hs : s.Ready ζ O d)
    (hlive : s.Live) :
    SucceedsWith (lhs.push .boolean >>= fun _ => Gen.finishBinary op .boolean rhs rhsIsNull
      .boolean) s fun i s' =>
      s.Answers ζ s' i O d (A.merge B op.merge) := by
  obtain ⟨o, ho, hsel, hcombine⟩ := op.select_bitwise hop
  have hshift : op.isShift = false := by cases op <;> first | rfl | cases hop
  rw [Gen.finishBinary_bitwise hsel ho hshift]
  refine (hl.push hs hlive).bind fun _ s₁ hs₁ => ?_
  refine (hr.push hs₁.1.ready hs₁.2).bind fun _ s₂ hs₂ => ?_
  refine (SucceedsWith.emit (Course.combine ho hs₂.1.ready hs₂.2)).bind fun _ s₃ hs₃ => .pure ?_
  have hflow : s.ControlFlow ζ s₃ O (d + 1) (Spot.To (Spot.eval (A.merge B op.merge).word)) := by
    refine (hs₁.1.after hs₂.1).trans hs₃.1 ?_
    rintro a _ rfl
    refine ⟨_, rfl, _, _, _, rfl, ?_⟩
    simp only [Spot.eval, Test.word, Test.merge, hcombine]
  exact (hflow.offers hs₃.2 .byte).answers rfl (fun _ h => by cases h) fun _ _ h => by cases h

end ExprCode

/-! ### Expressions -/

namespace ExprCode

variable {ζ : Seating} {ctx : Context} {info : ExprInfo} {e lhs rhs : ExprCode} {t : Ty}
  {w w' : Fetch} {E A B : Test}
  {op : BinaryOp} {rhsIsNull : Bool}

/-- A literal is its constant. -/
theorem literal_yields {visit : Ty → Gen Item} (ht : t.kind = .int ∨ t.kind = .byte)
    (hinfo : info.Notes t w) (hconst : info.const ≠ none) :
    (ofItem ctx info visit).YieldsValue ζ t w :=
  ofItem_yields ht hinfo fun hnone => absurd hnone hconst

theorem literal_yieldsTest {visit : Ty → Gen Item} (hinfo : info.Notes .boolean E.word)
    (hconst : info.const ≠ none) :
    (ofItem ctx info visit).YieldsTest ζ E :=
  ofItem_yieldsTest hinfo fun hnone => absurd hnone hconst

/-- A variable is in its register. -/
theorem ident_succeeds {x : LocalVar} (hx : x ∈ ζ.vars) {s : MethodState}
    (hlocals : s.locals = ζ.locals) :
    SucceedsWith (ctx.ident info (.var x.id)) s fun i s' => s = s' ∧
      ∃ reg, ζ.locals[x.id]? = some reg ∧ i = .var info.ty.kind reg := by
  obtain ⟨reg, hreg⟩ := ζ.seated x hx
  refine SucceedsWith.bind (P := fun r s' => s = s' ∧ reg = r) ⟨reg, s, ?_, rfl, rfl⟩ ?_
  · show Gen.registerOf x.id s = _
    unfold Gen.registerOf
    refine EStateM.bind_eq_ok.mpr ⟨s, s, rfl, ?_⟩
    rw [hlocals, hreg]
    rfl
  · rintro _ _ ⟨rfl, rfl⟩
    exact .pure ⟨rfl, reg, hreg, rfl⟩

theorem var_offers {x : LocalVar} (hx : x ∈ ζ.vars) {reg : UInt16}
    (hreg : ζ.locals[x.id]? = some reg) {k : Kind} (hk : k.widen = .int) {s : MethodState}
    {O : List Link} {d : ℕ} (hs : s.Ready ζ O d) (hlive : s.Live) :
    s.Offers ζ s (.var k reg) O d fun ν => (ν.word x, ν) := by
  refine (SucceedsWith.onCode (Course.loadVar hx hreg hk hs hlive)).bind fun _ _ hs' =>
    .pure ⟨⟨k, if_neg ?_⟩, hs'⟩
  rintro rfl
  cases hk

/-- A name that is no constant is a variable. -/
theorem ident_yields {x : LocalVar} (ht : t.kind = .int ∨ t.kind = .byte) (hinfo : info.Notes t w)
    (hx : info.const = none → x ∈ ζ.vars ∧ w = fun ν => (ν.word x, ν)) :
    (ofItem ctx info fun _ => ctx.ident info (.var x.id)).YieldsValue ζ t w := by
  refine ofItem_yields ht hinfo fun hnone s O d hs hlive => ?_
  obtain ⟨hmem, rfl⟩ := hx hnone
  refine (ident_succeeds hmem hs.locals).mono ?_
  rintro _ _ ⟨rfl, reg, hreg, rfl⟩
  rw [hinfo.ty]
  exact ⟨rfl, var_offers hmem hreg (by rcases ht with ht | ht <;> rw [ht] <;> rfl) hs hlive⟩

theorem ident_yieldsTest {x : LocalVar} (hinfo : info.Notes .boolean E.word)
    (hx : info.const = none → x ∈ ζ.vars ∧ x.ty = .boolean ∧ E = fun ν => (ν.bools x.id, ν)) :
    (ofItem ctx info fun _ => ctx.ident info (.var x.id)).YieldsTest ζ E := by
  refine ofItem_yieldsTest hinfo fun hnone s O d hs hlive => ?_
  obtain ⟨hmem, hty, rfl⟩ := hx hnone
  refine (ident_succeeds hmem hs.locals).mono ?_
  rintro _ _ ⟨rfl, reg, hreg, rfl⟩
  rw [hinfo.ty]
  have hword : Test.word (fun ν => (ν.bools x.id, ν)) = fun ν => (ν.word x, ν) := by
    funext ν
    rw [Test.word, Valuation.word, if_pos hty]
  refine MethodState.Offers.answers ?_ rfl (fun _ h => by cases h) fun _ _ h => by cases h
  rw [hword]
  exact var_offers hmem hreg rfl hs hlive

/-- An assignment to a variable, the value of which is used. -/
theorem assign_yields {j : ExprInfo} {x : LocalVar} (hx : x ∈ ζ.vars) (hty : x.ty = .int)
    (hj : j.ty = .int) (hconst : j.const = none) (hinfo : info.Notes .int (w.store x))
    (hr : rhs.YieldsValue ζ .int w) :
    (ofItem ctx info fun _ =>
      Gen.assign (ofItem ctx j fun _ => ctx.ident j (.var x.id)) rhs).YieldsValue ζ .int
        (w.store x) := by
  refine ofItem_yields (.inl rfl) hinfo fun _ s O d hs hlive => ?_
  obtain ⟨lhs, hlhs⟩ : ∃ lhs, lhs = ofItem ctx j fun _ => ctx.ident j (.var x.id) := ⟨_, rfl⟩
  have hitem : lhs.item = itemOf j fun _ => ctx.ident j (.var x.id) := by rw [hlhs]; rfl
  have hlhsTy : lhs.info.ty = .int := by rw [hlhs]; exact hj
  have hplace : SucceedsWith (lhs.value .int) s fun i s' => s = s' ∧
      ∃ reg, ζ.locals[x.id]? = some reg ∧ i = .var .int reg := by
    refine SucceedsWith.bind (P := fun i s' => s = s' ∧ ∃ reg, ζ.locals[x.id]? = some reg ∧
      i = .var .int reg) ?_ ?_
    · rw [hitem, itemOf, hconst, ← show j.ty.kind = .int by rw [hj]; rfl]
      exact ident_succeeds hx hs.locals
    · rintro _ _ ⟨rfl, reg, hreg, rfl⟩
      rw [coerce_self (show (Item.var .int reg).kind = Ty.int.kind from rfl)]
      exact .asm (.pure ⟨rfl, reg, hreg, rfl⟩)
  rw [← hlhs, Gen.assign, hlhsTy]
  refine hplace.bind ?_
  rintro _ _ ⟨rfl, reg, hreg, rfl⟩
  refine (hr.push hs hlive).bind fun _ s₁ hs₁ => .pure ⟨rfl, ?_⟩
  refine (SucceedsWith.onCode (Course.dup hs₁.1.ready hs₁.2)).bind fun _ s₂ hs₂ => ?_
  refine (Course.storeVar hx hty hreg hs₂.1.ready hs₂.2).bind fun _ s₃ hs₃ =>
    .pure ⟨⟨_, rfl⟩, ?_, hs₃.2⟩
  refine (hs₁.1.after hs₂.1).trans hs₃.1 ?_
  rintro a _ rfl
  exact ⟨_, ⟨_, _, rfl, rfl⟩, _, _, rfl, rfl⟩

/-- Parentheses stand for what they enclose. -/
theorem YieldsValue.parens (h : e.YieldsValue ζ t w) (ht : t.kind = .int ∨ t.kind = .byte)
    (hinfo : info.Notes t w) (bareIsCond : Bool) :
    (ExprCode.parens ctx info bareIsCond e).YieldsValue ζ t w := by
  have hplain : (ofItem ctx info fun _ => e.value e.info.ty).YieldsValue ζ t w :=
    ofItem_yields ht hinfo fun _ s O d hs hlive => by
      rw [h.info.ty]
      exact h.value hs hlive
  exact ⟨hinfo, hplain.item⟩

/-- As a condition the parentheses are looked through. -/
theorem YieldsTest.parens (h : e.YieldsTest ζ E) (hinfo : info.Notes .boolean E.word)
    (bareIsCond : Bool) :
    (ExprCode.parens ctx info bareIsCond e).YieldsTest ζ E := by
  have hplain : (ofItem ctx info fun _ => e.value e.info.ty).YieldsTest ζ E :=
    ofItem_yieldsTest hinfo fun _ s O d hs hlive => by
      rw [h.info.ty]
      refine (h.item hs hlive).bind fun i s₁ hi => ?_
      rw [coerce_self (show i.kind = Ty.boolean.kind from hi.kind)]
      exact .asm (.pure hi)
  refine ⟨hinfo, hplain.item, fun d => ?_, h.bareCond⟩
  show Tests ζ (if bareIsCond then e.cond else _) d E
  cases bareIsCond with
  | true => exact h.cond d
  | false => exact hplain.cond d

theorem YieldsTest.not (h : e.YieldsTest ζ E) (hinfo : info.Notes .boolean E.negate.word) :
    (ctx.unaryCode info .not t e).YieldsTest ζ E.negate :=
  ofItem_yieldsTest hinfo fun _ _ _ d hs hlive => (h.cond d hs hlive).bind fun _ _ hk =>
    .pure hk.negate.answers

theorem YieldsTest.and (hl : lhs.YieldsTest ζ A) (hr : rhs.YieldsTest ζ B)
    (hinfo : info.Notes .boolean (A.and B).word) :
    (ctx.binaryCode info .and t lhs rhs rhsIsNull).YieldsTest ζ (A.and B) :=
  ofItem_yieldsTest hinfo fun _ _ _ _ hs hlive =>
    (Gen.both_tests (hl.test _) (hr.test _) hs hlive).bind fun _ _ hk => .pure hk.answers

theorem YieldsTest.or (hl : lhs.YieldsTest ζ A) (hr : rhs.YieldsTest ζ B)
    (hinfo : info.Notes .boolean (A.or B).word) :
    (ctx.binaryCode info .or t lhs rhs rhsIsNull).YieldsTest ζ (A.or B) :=
  ofItem_yieldsTest hinfo fun _ _ _ _ hs hlive =>
    (Gen.either_tests (hl.test _) (hr.test _) hs hlive).bind fun _ _ hk => .pure hk.answers

/-- The operators that evaluate both sides and write no text. -/
theorem binaryCode_eq (hop : op.isComparison = true ∨ op.isBitwise = true) :
    ctx.binaryCode info op t lhs rhs rhsIsNull =
      ofItem ctx info fun _ => lhs.push t >>= fun _ =>
        Gen.finishBinary op t rhs rhsIsNull info.ty := by
  cases op <;> first | rfl | simp [BinaryOp.isComparison, BinaryOp.isBitwise] at hop

theorem YieldsValue.compare (hl : lhs.YieldsValue ζ t w) (hr : rhs.YieldsValue ζ t w')
    (ht : t.family? = some .int) (hop : op.isComparison = true)
    (hinfo : info.Notes .boolean (w.compare w' op.relate).word) :
    (ctx.binaryCode info op t lhs rhs rhsIsNull).YieldsTest ζ (w.compare w' op.relate) := by
  rw [binaryCode_eq (.inl hop)]
  exact ofItem_yieldsTest hinfo fun _ _ _ _ hs hlive => hl.compares hr ht hop hs hlive

theorem YieldsTest.merge (hl : lhs.YieldsTest ζ A) (hr : rhs.YieldsTest ζ B)
    (hop : op.isBitwise = true ∨ op = .eq ∨ op = .ne)
    (hinfo : info.Notes .boolean (A.merge B op.merge).word) :
    (ctx.binaryCode info op .boolean lhs rhs rhsIsNull).YieldsTest ζ (A.merge B op.merge) := by
  rcases hop with hop | hop
  · rw [binaryCode_eq (.inr hop), hinfo.ty]
    exact ofItem_yieldsTest hinfo fun _ _ _ _ hs hlive => hl.yields.combines hr.yields hop hs hlive
  · have hsame : A.word.compare B.word op.relate = A.merge B op.merge := by
      funext ν
      simp only [Fetch.compare, Test.word, Test.merge, BinaryOp.relate_bit hop]
    have hcomp : op.isComparison = true := by rcases hop with rfl | rfl <;> rfl
    rw [← hsame] at hinfo ⊢
    exact hl.yields.compare hr.yields rfl hcomp hinfo

end ExprCode

/-! ### Conditional expressions -/

theorem Frame.retype_level (f : Frame) (k : Kind) :
    (f.retype k).depth = f.depth ∧ (f.retype k).locks = f.locks := by
  unfold retype
  split
  · exact ⟨rfl, rfl⟩
  · split
    · exact ⟨Array.size_setIfInBounds, rfl⟩
    · exact ⟨rfl, rfl⟩

namespace Gen

variable {ζ : Seating} {info : ExprInfo} {test onTrue onFalse : ExprCode} {d : ℕ} {E A B : Test}
  {w : Fetch} {t : Ty}

/-- One way of a conditional value. -/
theorem arm_course {e : ExprCode} (h : e.YieldsValue ζ t w) (k : Kind) :
    Course ζ (arm e t k) d (d + 1) (Spot.To (Spot.eval w)) := by
  refine Course.ranged (fun s O hs hlive => (h.push hs hlive).bind fun _ s₁ hs₁ => ?_) _ _
  refine (touch_succeeds hs₁.1.ready
    (hs₁.1.ready.code.idles ⟨rfl, rfl, rfl, fun _ => rfl⟩ rfl rfl rfl rfl rfl ?_)).mono
      fun _ s₂ hs₂ => ?_
  · exact s₁.asm.code.frame.retype_level k
  · exact ⟨MethodState.Idles.after hs₁.1 hs₂, hs₂.live.mpr hs₁.2⟩

/-- A conditional value. -/
theorem condValue_succeeds (htest : test.YieldsTest ζ E) (honTrue : onTrue.YieldsTest ζ A)
    (honFalse : onFalse.YieldsTest ζ B) {s : MethodState} {O : List Link} (hs : s.Ready ζ O d)
    (hlive : s.Live) :
    SucceedsWith (condValue info test onTrue onFalse .boolean) s fun i s' => s.Answers ζ s' i O d
      (E.choose A B) := by
  refine (htest.test _ hs hlive).bind fun k s₁ hs₁ => ?_
  refine hs₁.fork (fun x => liftM x) SucceedsWith.emit true false (d + 1)
    (Spot.To (Spot.eval A.word)) (fun hflat => by cases hflat) ?_ ?_
  · exact fun s₂ O' _ hs₂ hlive₂ _ => (arm_course honTrue.yields _ hs₂ hlive₂).mono fun _ _ hs₃ =>
      ⟨hs₃.1, fun _ => hs₃.2, fun hflat => by cases hflat⟩
  intro no out s₂ hs₂ hlive₂ hflat
  refine hs₂.fork (fun x => liftM x) SucceedsWith.emit true false
    (Spot.To (Spot.eval B.word)) hlive₂ hflat ?_ ?_
  · exact fun s₃ O' _ hs₃ hlive₃ _ => (arm_course honFalse.yields _ hs₃ hlive₃).mono fun _ _ hs₄ =>
      ⟨hs₄.1, fun _ => hs₄.2, fun hflat => by cases hflat⟩
  intro s₃ hs₃ hlive₃ _
  refine (SucceedsWith.emit hs₃.resolve).bind fun _ s₄ hs₄ => .pure ?_
  have hflow : s.ControlFlow ζ s₄ O (d + 1) (Spot.To (Spot.eval (E.choose A B).word)) := by
    refine hs₄.1.mono ?_
    rintro a _ rfl
    by_cases hb : (E a.vals).1 = true
    · simp [hb, Spot.To, Spot.tested, Spot.eval, Test.word, Test.choose]
    · simp [hb, Spot.To, Spot.tested, Spot.eval, Test.word, Test.choose]
  exact (hflow.offers (hs₄.2.1 (hlive₃ rfl)) .byte).answers rfl (fun _ h => by cases h)
    fun _ _ h => by cases h

end Gen

/-- A conditional expression, as a value and as a condition. -/
theorem ExprCode.YieldsTest.choose {ζ : Seating} {ctx : Context} {info : ExprInfo}
    {test onTrue onFalse : ExprCode} {E A B : Test} (htest : test.YieldsTest ζ E)
    (honTrue : onTrue.YieldsTest ζ A) (honFalse : onFalse.YieldsTest ζ B)
    (hinfo : info.Notes .boolean (E.choose A B).word) :
    ExprCode.YieldsTest ζ { ExprCode.ofItem ctx info (Gen.condValue info test onTrue onFalse) with
      cond := Gen.condCond test onTrue onFalse, bareCond := Gen.condCond test onTrue onFalse }
        (E.choose A B) := by
  have hplain : (ExprCode.ofItem ctx info (Gen.condValue info test onTrue onFalse)).YieldsTest ζ
      (E.choose A B) :=
    ofItem_yieldsTest hinfo fun _ _ _ _ hs hlive =>
      Gen.condValue_succeeds htest honTrue honFalse hs hlive
  have hcond (d : ℕ) : Tests ζ (Gen.condCond test onTrue onFalse) d (E.choose A B) :=
    Gen.condCond_tests (htest.test _) (honTrue.test _) (honFalse.test _)
  exact ⟨hinfo, hplain.item, hcond, hcond⟩

end StackCode
