import StackCode.Proofs.Courses

/-!
# Conditions are decided

A condition has been evaluated up to its last test, which is not written yet, and the branches of
earlier tests may have left it on either side. `TestPending` says that a step has come to such a
condition: a machine that starts before the step is where one of the branches leads, or at the end
of the code with the words on the stack that the last test needs, and in each case the truth value
is the one that the `Test` gives.

Writing the last test makes it `TestWritten`, and bringing control together where the condition
holds makes it `SkippedUnless`: control goes on if the condition holds and leaves by a chain of
branches otherwise. From there conditions are put together from conditions, and
`TrueBranchWritten` and `BranchesWritten` follow the two ways of a statement or an expression that
chooses between them.
-/

set_option maxRecDepth 4000

namespace StackCode

/-! ### The last test of a condition -/

namespace Opcode

/-- The branches that a condition may end with. -/
def EndsTest (op : Opcode) : Prop := op = goto ∨ op = never ∨ op.Compares

/-- With `S` on the stack the branch settles whether the condition holds, and leaves `S'`. -/
def DecidesTest (op : Opcode) (S : List Int32) (b : Bool) (S' : List Int32) : Prop :=
  if op = goto then b = true ∧ S = S' else if op = never then b = false ∧
    S = S' else op.compare? S = some (b, S')

variable {op : Opcode}

theorem EndsTest.negate (h : op.EndsTest) : op.negate.EndsTest := by
  rcases h with rfl | rfl | h
  · exact .inr (.inl (by decide))
  · exact .inl (by decide)
  · exact .inr (.inr h.negate)

/-- What the opposite of a branch has in common with it. -/
theorem EndsTest.negate_row (h : op.EndsTest) :
    op.negate.negate = op ∧ op.negate.effect.needs = op.effect.needs ∧
    (op.negate = goto ↔ op = never) ∧ (op.negate = never ↔ op = goto) ∧
      (op.negate.Compares ↔ op.Compares) := by
  have hall : ∀ op ∈ goto :: never :: (zeroTests ++ pairTests), op.negate.negate = op ∧
      op.negate.effect.needs = op.effect.needs ∧ (op.negate = goto ↔ op = never) ∧
        (op.negate = never ↔ op = goto) ∧
      (op.negate.Compares ↔ op.Compares) := by
    decide
  refine hall op ?_
  rcases h with rfl | rfl | h
  · exact List.mem_cons_self
  · exact List.mem_cons_of_mem _ List.mem_cons_self
  · exact List.mem_cons_of_mem _ (List.mem_cons_of_mem _ (List.mem_append.mpr h))

theorem Compares.decidesTest (h : op.Compares) {S S' : List Int32} {b : Bool} :
    op.DecidesTest S b S' ↔ op.compare? S = some (b, S') := by
  obtain ⟨-, -, hgoto, -, hnever⟩ := h.row
  rw [DecidesTest, if_neg hgoto, if_neg hnever]

/-- The opposite branch settles the opposite. -/
theorem decidesTest_negate (h : op.EndsTest) {S S' : List Int32} {b : Bool} :
    op.negate.DecidesTest S b S' ↔ op.DecidesTest S (!b) S' := by
  rcases h with rfl | rfl | h
  · rw [show goto.negate = never by decide]
    simp [DecidesTest, show never ≠ goto by decide]
  · rw [show never.negate = goto by decide]
    simp [DecidesTest, show never ≠ goto by decide]
  · rw [h.decidesTest, h.negate.decidesTest, compare?_negate h]
    cases op.compare? S with
    | none => simp
    | some r =>
        obtain ⟨b', S''⟩ := r
        cases b <;> cases b' <;> simp

end Opcode

/-! ### A branch -/

/-- The stack noted where the code ends has `d` words, also if the code is dead. -/
def MethodState.Flat (s : MethodState) (d : ℕ) : Prop := s.asm.code.frame.Has d []

theorem Plan.Over.toward {H : Plan} {O : List Link} (h : H.Over O) (c : Chain) (t : ℕ) :
    (c.toward t ∪ H).Over (c ++ O) := by
  rintro o (ho | ho)
  · exact List.mem_append_left _ ho.1
  · exact List.mem_append_right _ (h o ho)

namespace MethodState

/-- A branch has been written that is taken if its condition holds. -/
structure Splits (ζ : Seating) (s s' : MethodState) (op : Opcode) (chain : Chain) (O : List Link)
    (d : ℕ) : Prop where
  onward : Onward s s'
  ready : s'.Ready ζ (chain ++ O) d
  arrives : chain.Arrives d []
  flat : op.Compares ∨ s.Flat d → s'.Flat d
  live : op ≠ .goto → s.Live → s'.Live
  dead : op = .goto → ¬ s'.Live
  full : op ≠ .never → s.Live → chain ≠ []
  back : ∀ {H : Plan} {p : Program} {t g' : ℕ}, H.Over O → s'.Future (chain.toward t ∪ H) p g' →
    ∃ g, s.Future H p g ∧
    ∀ m S b a, op.DecidesTest S b a.stack → s.Meets ζ p g m (.here ⟨S, a.vals⟩) →
      if b then chain ≠ [] ∧ p.Visits ζ m t a else s'.Meets ζ p g' m (.here a)

end MethodState

namespace Emit

open MethodState

variable {ζ : Seating} {s : MethodState} {O : List Link} {d : ℕ}

theorem goto_splits (h : s.Ready ζ O d) :
    SucceedsWith (branch .goto) s fun chain s' => s.Splits ζ s' .goto chain O d ∧ ∀ d', s'.Ready ζ
      (chain ++ O) d' := by
  obtain ⟨chain, c', hrun, hc⟩ := goto_sends h.code
  have hfull (hlive : s.Live) : chain ≠ [] := by
    have hempty := hc.isEmpty
    rw [show s.asm.code.reachable = true from hlive] at hempty
    simpa using hempty
  refine ⟨chain, c', hrun, ⟨?_, ?_, ?_, ?_, ?_, ?_, ?_, ?_⟩, fun d' => h.put (hc.ready d')⟩
  · exact .put hc.onward
  · exact h.put (hc.ready d)
  · exact hc.arrives
  · rintro (hno | hflat)
    · exact absurd hno (by decide)
    · rcases hc.frame with hframe | ⟨-, hframe⟩
      · exact hframe
      · exact (congrArg (Frame.Has · d []) hframe).mpr hflat
  · exact fun hno => absurd rfl hno
  · intro _ hlive
    have hno : (c'.alive || !c'.pending.isEmpty) = true := hlive
    simp [hc.dead, hc.pending] at hno
  · exact fun _ => hfull
  · intro H p t g' hover hF
    obtain ⟨hbecomes, hreach⟩ := hc.back hover hF.code
    refine ⟨t, ⟨hbecomes, hF.pool, hF.small⟩, ?_⟩
    rintro m S b a ⟨rfl, rfl⟩ hm
    have hlive := hm.live
    obtain ⟨e, harrival, R, hseats, hto⟩ := hm
    exact ⟨hfull hlive, R, hseats, hto.trans (hreach e a.stack R harrival)⟩

theorem never_splits (h : s.Ready ζ O d) :
    SucceedsWith (branch .never) s fun chain s' => s.Splits ζ s' .never chain O d := by
  have hne : Opcode.never ≠ .goto := by decide
  refine ⟨[], s.asm.code, ?_,
    ⟨.refl s, h, fun _ hl => (by cases hl), ?_, fun _ => id, fun hno => absurd hno hne,
    fun hno => absurd rfl hno, ?_⟩⟩
  · unfold branch
    refine EStateM.bind_eq_ok.mpr ⟨s.asm.code, s.asm.code, rfl, ?_⟩
    simp only [hne, if_false]
    exact EStateM.bind_eq_ok.mpr ⟨s.asm.code, s.asm.code, rfl, rfl⟩
  · rintro (hno | hflat)
    · exact absurd hno (by decide)
    · exact hflat
  · intro H p t g' _ hF
    refine ⟨g', ?_, ?_⟩
    · rwa [Chain.toward_nil, Set.empty_union] at hF
    · rintro m S b a hsettles hm
      rw [Opcode.DecidesTest, if_neg hne, if_pos rfl] at hsettles
      obtain ⟨rfl, rfl⟩ := hsettles
      exact hm

theorem test_splits {op : Opcode} (hop : op.Compares) (h : s.Ready ζ O (d + op.effect.needs))
    (hlive : s.Live) :
    SucceedsWith (branch op) s fun chain s' => s.Splits ζ s' op chain O d := by
  obtain ⟨l, c', hrun, hc⟩ := test_forks hop h.code hlive
  obtain ⟨-, -, hgoto, -, hnever⟩ := hop.row
  refine ⟨[l], c', hrun, ⟨.put hc.onward, h.put hc.ready, ?_, fun _ => hc.ready.level hc.alive, ?_,
    fun hno => absurd hno hgoto,
    fun _ _ => List.cons_ne_nil _ _, ?_⟩⟩
  · rintro m (_ | ⟨_, hm⟩)
    · exact hc.arrives
    · cases hm
  · intro _ _
    show (c'.alive || _) = true
    rw [hc.alive]
    rfl
  · intro H p t g' hover hF
    obtain ⟨q, hbecomes, hreach⟩ := hc.back hover hF.code
    refine ⟨q, ⟨hbecomes, hF.pool, hF.small⟩, fun m S b a hsettles hm => ?_⟩
    obtain ⟨e, harrival, R, hseats, hto⟩ := hm
    have hto' := hto.trans (hreach e S a.stack b R harrival (hop.decidesTest.mp hsettles))
    cases b with
    | true => exact ⟨List.cons_ne_nil _ _, R, hseats, hto'⟩
    | false => exact ⟨c'.pc, .inl ⟨hc.alive, rfl⟩, R, hseats, hto'⟩

/-- A branch that a condition ends with. -/
theorem branch_splits {op : Opcode} (hop : op.EndsTest) (h : s.Ready ζ O (d + op.effect.needs))
    (hlive : s.Live) :
    SucceedsWith (branch op) s fun chain s' => s.Splits ζ s' op chain O d := by
  rcases hop with rfl | rfl | hop
  · exact (goto_splits (h : s.Ready ζ O d)).mono fun _ _ hs => hs.1
  · exact never_splits (h : s.Ready ζ O d)
  · exact test_splits hop h hlive

end Emit

/-! ### Chains -/

namespace MethodState

/-- The branches of `chain` have come to wait for the next instruction. -/
structure Waits (ζ : Seating) (s s' : MethodState) (chain : Chain) (O : List Link)
    (d : ℕ) : Prop where
  onward : Onward s s'
  ready : s'.Ready ζ O d
  live : s.Live ∨ chain ≠ [] → s'.Live
  flat : ∀ d', s.Flat d' → s'.Flat d'
  back : ∀ {H : Plan} {p : Program} {g : ℕ}, s'.Future H p g → s.Future (chain.toward g ∪ H) p g ∧
    (∀ m o, s.Meets ζ p g m o → s'.Meets ζ p g m o) ∧
    ∀ m a, chain ≠ [] → p.Visits ζ m g a → s'.Meets ζ p g m (.here a)

end MethodState

theorem Emit.resolve_waits {ζ : Seating} {s : MethodState} {chain : Chain} {O : List Link} {d : ℕ}
    (h : s.Ready ζ (chain ++ O) d) (harrives : chain.Arrives d []) :
    SucceedsWith (resolve chain) s fun _ s' => s.Waits ζ s' chain O d := by
  obtain ⟨c', hrun, hc⟩ := resolve_awaits h.code harrives
  refine ⟨(), c', hrun, .put hc.onward, h.put hc.ready, ?_, ?_, ?_⟩
  · intro hlive
    show c'.reachable = true
    rw [hc.reachable]
    rcases hlive with hlive | hsome
    · rw [show s.asm.code.reachable = true from hlive]
      rfl
    · simp [hsome]
  · exact fun d' hflat => (congrArg (Frame.Has · d' []) hc.frame).mpr hflat
  · intro H p g hF
    obtain ⟨hbecomes, harrival, hchain⟩ := hc.back hF.code
    refine ⟨⟨hbecomes, hF.pool, hF.small⟩, fun m o hm => ?_, fun m a hsome hvisits =>
      ⟨g, hchain hsome, hvisits⟩⟩
    cases o with
    | here a => exact hm.of_arrival harrival
    | answer v ν => exact hm

/-- Chains that arrive alike are joined. -/
theorem Cond.succeeds_join {s : MethodState} {a b : Chain} {d : ℕ} (ha : a.Arrives d [])
    (hb : b.Arrives d []) :
    SucceedsWith (Cond.join a b) s fun c s' => s = s' ∧ c.Perm (a ++ b) := by
  obtain ⟨c, hc⟩ := ha.merge hb
  refine ⟨c, s.asm.code, ?_, rfl, Chain.merge_perm hc⟩
  rw [join, hc]
  rfl

theorem Chain.Arrives.of_perm {a b c : Chain} {d : ℕ} {locks : List UInt16} (ha : a.Arrives d locks)
    (hb : b.Arrives d locks) (h : c.Perm (a ++ b)) : c.Arrives d locks := fun l hl =>
  (List.mem_append.mp (h.mem_iff.mp hl)).elim (ha l) (hb l)

theorem Chain.ne_nil_of_perm {a b c : Chain} (h : c.Perm (a ++ b))
    (hsome : a ≠ [] ∨ b ≠ []) : c ≠ [] := by
  rintro rfl
  obtain ⟨ha, hb⟩ := List.append_eq_nil_iff.mp h.nil_eq.symm
  exact hsome.elim (fun hsome => hsome ha) fun hsome => hsome hb

/-! ### Conditions -/

/-- A condition on the variables, which may change them as well. -/
abbrev Test := Valuation → Bool × Valuation

/-- The opposite condition. -/
def Test.negate (E : Test) : Test := fun ν => (!(E ν).1, (E ν).2)

/-- The spot once a test has been made. -/
def Spot.tested (a : Spot) (E : Test) : Spot := ⟨a.stack, (E a.vals).2⟩

namespace MethodState

/-- A machine has come to the condition `k`, which is `b`: it is where an earlier test has sent
it, or before the last test. -/
def AtCondition (ζ : Seating) (s : MethodState) (k : Cond) (p : Program) (t f g : ℕ) (m : Machine)
    (b : Bool) (a : Spot) :
    Prop :=
  b = true ∧ k.onTrue ≠ [] ∧ p.Visits ζ m t a ∨ b = false ∧ k.onFalse ≠ [] ∧ p.Visits ζ m f a ∨
    ∃ S, k.op.DecidesTest S b a.stack ∧ s.Meets ζ p g m (.here ⟨S, a.vals⟩)

/-- The condition `k` has been evaluated up to its last test. -/
structure TestPending (ζ : Seating) (s s' : MethodState) (k : Cond) (O : List Link) (d : ℕ)
    (E : Test) : Prop where
  onward : Onward s s'
  op : k.op.EndsTest
  ready : s'.Ready ζ (k.onTrue ++ (k.onFalse ++ O)) (d + k.op.effect.needs)
  live : s'.Live
  flat : ¬ k.op.Compares → s.Flat d → s'.Flat d
  onTrue : k.onTrue.Arrives d []
  onFalse : k.onFalse.Arrives d []
  back : ∀ {H : Plan} {p : Program} {t f g' : ℕ}, H.Over O →
    s'.Future (k.onTrue.toward t ∪ (k.onFalse.toward f ∪ H)) p g' → ∃ g, s.Future H p g ∧
      ∀ m a, s.Meets ζ p g m (.here a) → s'.AtCondition ζ k p t f g' m (E a.vals).1 (a.tested E)

/-- The last test of the condition `k` has been written so that `no` are the branches taken if the
condition does not hold. -/
structure TestWritten (ζ : Seating) (s s' : MethodState) (k : Cond) (no : Chain) (O : List Link)
    (d : ℕ) (E : Test) :
    Prop where
  onward : Onward s s'
  ready : s'.Ready ζ (no ++ (k.onTrue ++ O)) d
  live : k.op ≠ .never → s'.Live
  dead : k.op = .never → ¬ s'.Live
  flat : s.Flat d → s'.Flat d
  full : k.isTrue = false → no ≠ []
  onTrue : k.onTrue.Arrives d []
  arrives : no.Arrives d []
  back : ∀ {H : Plan} {p : Program} {t f g' : ℕ}, H.Over O →
    s'.Future (no.toward f ∪ (k.onTrue.toward t ∪ H)) p g' →
    ∃ g, s.Future H p g ∧ ∀ m a, s.Meets ζ p g m (.here a) →
      if (E a.vals).1 then k.onTrue ≠ [] ∧ p.Visits ζ m t (a.tested E) ∨
        s'.Meets ζ p g' m (.here (a.tested E))
      else no ≠ [] ∧ p.Visits ζ m f (a.tested E)

/-- Control goes on if the condition holds, and otherwise leaves by the branches `no`. -/
structure SkippedUnless (ζ : Seating) (s s' : MethodState) (no : Chain) (O : List Link) (d : ℕ)
    (E : Test) : Prop where
  onward : Onward s s'
  ready : s'.Ready ζ (no ++ O) d
  flat : s.Flat d → s'.Flat d
  arrives : no.Arrives d []
  back : ∀ {H : Plan} {p : Program} {f g' : ℕ}, H.Over O → s'.Future (no.toward f ∪ H) p g' →
    ∃ g, s.Future H p g ∧ ∀ m a, s.Meets ζ p g m (.here a) →
      if (E a.vals).1 then s'.Meets ζ p g' m (.here (a.tested E)) else no ≠ [] ∧
        p.Visits ζ m f (a.tested E)

variable {ζ : Seating} {s s' : MethodState} {k : Cond} {O : List Link} {d : ℕ} {E : Test}

theorem TestPending.negate (h : s.TestPending ζ s' k O d E) :
    s.TestPending ζ s' k.negate O d E.negate := by
  obtain ⟨-, hneeds, -, -, hcompares⟩ := h.op.negate_row
  constructor
  case onward => exact h.onward
  case op => exact h.op.negate
  case ready =>
    show s'.Ready ζ (k.onFalse ++ (k.onTrue ++ O)) (d + k.op.negate.effect.needs)
    rw [hneeds]
    refine h.ready.perm ?_
    rw [← List.append_assoc, ← List.append_assoc]
    exact List.perm_append_comm.append_right O
  case live => exact h.live
  case flat => exact fun hno => h.flat fun hyes => hno (hcompares.mpr hyes)
  case onTrue => exact h.onFalse
  case onFalse => exact h.onTrue
  case back =>
    intro H p t f g' hover hF
    have hF : s'.Future (k.onTrue.toward f ∪ (k.onFalse.toward t ∪ H)) p g' := by
      rw [Set.union_left_comm]
      exact hF
    obtain ⟨g, hg, hback⟩ := h.back hover hF
    refine ⟨g, hg, fun m a hm => ?_⟩
    rcases hback m a hm with ⟨hb, hon⟩ | ⟨hb, hon⟩ | ⟨S, hsettles, hmeets⟩
    · exact .inr (.inl ⟨congrArg not hb, hon⟩)
    · exact .inl ⟨congrArg not hb, hon⟩
    · exact .inr
        (.inr ⟨S, (Opcode.decidesTest_negate h.op).mpr (by rwa [Test.negate, Bool.not_not]),
          hmeets⟩)

/-- The last test is written. -/
theorem TestPending.jumpFalse (h : s.TestPending ζ s' k O d E) :
    SucceedsWith k.jumpFalse s' fun no s'' => s.TestWritten ζ s'' k no O d E := by
  obtain ⟨-, hneeds, hgoto, hnever, hcompares⟩ := h.op.negate_row
  have hready := h.ready
  rw [← hneeds] at hready
  refine (Emit.branch_splits h.op.negate hready h.live).bind fun jump s'' hs => ?_
  refine (Cond.succeeds_join h.onFalse hs.arrives).mono ?_
  rintro no _ ⟨rfl, hperm⟩
  constructor
  case onward => exact h.onward.trans hs.onward
  case ready =>
    refine hs.ready.perm (List.perm_iff_count.mpr fun l => ?_)
    simp only [List.count_append, hperm.count_eq]
    omega
  case live => exact fun hop => hs.live (fun hno => hop (hgoto.mp hno)) h.live
  case dead => exact fun hop => hs.dead (hgoto.mpr hop)
  case flat =>
    intro hflat
    by_cases hop : k.op.Compares
    · exact hs.flat (.inl (hcompares.mpr hop))
    · exact hs.flat (.inr (h.flat hop hflat))
  case full =>
    intro htrue
    refine Chain.ne_nil_of_perm hperm ?_
    by_cases hop : k.op = .goto
    · exact .inl (by simpa [Cond.isTrue, hop] using htrue)
    · exact .inr (hs.full (fun hno => hop (hnever.mp hno)) h.live)
  case onTrue => exact h.onTrue
  case arrives => exact h.onFalse.of_perm hs.arrives hperm
  case back =>
    intro H p t f g' hover hF
    have hF : s''.Future (jump.toward f ∪ (k.onTrue.toward t ∪ (k.onFalse.toward f ∪ H))) p g' := by
      rw [Chain.toward_of_perm hperm, Set.union_assoc, Set.union_left_comm,
        Set.union_left_comm (k.onFalse.toward f)] at hF
      exact hF
    obtain ⟨g₁, hg₁, hsplit⟩ := hs.back ((hover.toward _ _).toward _ _) hF
    obtain ⟨g, hg, hback⟩ := h.back hover hg₁
    refine ⟨g, hg, fun m a hm => ?_⟩
    rcases hback m a hm with ⟨hb, hon⟩ | ⟨hb, hsome, hvisits⟩ | ⟨S, hsettles, hmeets⟩
    · rw [if_pos hb]
      exact .inl hon
    · rw [if_neg (by simp [hb])]
      exact ⟨Chain.ne_nil_of_perm hperm (.inl hsome), hvisits⟩
    · have hout := hsplit m S (!(E a.vals).1) (a.tested E)
        ((Opcode.decidesTest_negate h.op).mpr (by rwa [Bool.not_not])) hmeets
      cases hb : (E a.vals).1 with
      | true =>
          rw [hb] at hout
          exact .inr hout
      | false =>
          rw [hb] at hout
          exact ⟨Chain.ne_nil_of_perm hperm (.inr hout.1), hout.2⟩

/-- Control is brought together where the condition holds. -/
theorem TestWritten.resolve {no : Chain} (h : s.TestWritten ζ s' k no O d E) :
    SucceedsWith (Emit.resolve k.onTrue) s' fun _ s'' => s.SkippedUnless ζ s'' no O d E ∧
      (k.isFalse = false → s''.Live) := by
  have hready : s'.Ready ζ (k.onTrue ++ (no ++ O)) d := by
    refine h.ready.perm ?_
    rw [← List.append_assoc, ← List.append_assoc]
    exact List.perm_append_comm.append_right O
  refine (Emit.resolve_waits hready h.onTrue).mono fun _ s'' hs => ⟨?_, ?_⟩
  · constructor
    case onward => exact h.onward.trans hs.onward
    case ready => exact hs.ready
    case flat => exact fun hflat => hs.flat d (h.flat hflat)
    case arrives => exact h.arrives
    case back =>
      intro H p f g' hover hF
      obtain ⟨hF', hsame, hchain⟩ := hs.back hF
      rw [Set.union_left_comm] at hF'
      obtain ⟨g, hg, hback⟩ := h.back hover hF'
      refine ⟨g, hg, fun m a hm => ?_⟩
      have hout := hback m a hm
      cases hb : (E a.vals).1 with
      | true =>
          rw [hb] at hout
          exact hout.elim (fun hon => hchain m _ hon.1 hon.2) (hsame m _)
      | false =>
          rw [hb] at hout
          exact hout
  · intro hfalse
    refine hs.live ?_
    by_cases hop : k.op = .never
    · exact .inr (by simpa [Cond.isFalse, hop] using hfalse)
    · exact .inl (h.live hop)

/-- A condition that is known not to hold leaves by the branches only. -/
theorem TestWritten.skippedUnless {no : Chain} (h : s.TestWritten ζ s' k no O d E)
    (hfalse : k.isFalse = true) :
    s.SkippedUnless ζ s' no O d E ∧ ¬ s'.Live ∧ no ≠ [] := by
  obtain ⟨hnil, hop⟩ : k.onTrue = [] ∧ k.op = .never := by simpa [Cond.isFalse] using hfalse
  refine ⟨⟨h.onward, ?_, h.flat, h.arrives, ?_⟩, h.dead hop, h.full ?_⟩
  · have hready := h.ready
    rwa [hnil] at hready
  · intro H p f g' hover hF
    have hF : s'.Future (no.toward f ∪ (k.onTrue.toward 0 ∪ H)) p g' := by
      rwa [hnil, Chain.toward_nil, Set.empty_union]
    obtain ⟨g, hg, hback⟩ := h.back hover hF
    refine ⟨g, hg, fun m a hm => ?_⟩
    have hout := hback m a hm
    cases hb : (E a.vals).1 with
    | true =>
        rw [hb] at hout
        exact hout.elim (fun hon => absurd hnil hon.1) id
    | false =>
        rw [hb] at hout
        exact hout
  · simp [Cond.isTrue, hop, show Opcode.never ≠ .goto by decide]

end MethodState

/-! ### Conditions made of conditions -/

namespace Test

/-- Both conditions; the second is made only if the first holds. -/
def and (E E' : Test) : Test := fun ν => if (E ν).1 then E' (E ν).2 else (false, (E ν).2)

/-- Either condition; the second is made only if the first does not hold. -/
def or (E E' : Test) : Test := fun ν => if (E ν).1 then (true, (E ν).2) else E' (E ν).2

/-- One of two conditions, chosen by a third. -/
def choose (E A B : Test) : Test := fun ν => if (E ν).1 then A (E ν).2 else B (E ν).2

theorem negate_and (E E' : Test) : (E.negate.and E'.negate).negate = E.or E' := by
  funext ν
  cases hb : (E ν).1 <;> simp [negate, and, or, hb]

theorem negate_choose (E A B : Test) : E.negate.choose B A = E.choose A B := by
  funext ν
  cases hb : (E ν).1 <;> simp [negate, choose, hb]

end Test

theorem Cond.isTrue_negate {k : Cond} (hop : k.op.EndsTest) : k.negate.isTrue = k.isFalse := by
  obtain ⟨-, -, hgoto, -⟩ := hop.negate_row
  rw [Bool.eq_iff_iff]
  simp [isTrue, isFalse, negate, hgoto]

theorem Cond.jumpTrue_eq {k : Cond} (hop : k.op.EndsTest) : k.jumpTrue = k.negate.jumpFalse := by
  unfold jumpTrue jumpFalse negate
  rw [hop.negate_row.1]

namespace MethodState

variable {ζ : Seating} {s s₁ s₂ s₃ s₄ s₅ : MethodState} {k : Cond} {O : List Link} {d : ℕ}
  {E A B : Test}
  {no no' yes : Chain}

/-- A condition that is known comes out as it is known. -/
theorem AtCondition.known {p : Program} {t f g : ℕ} {m : Machine} {b : Bool} {a : Spot}
    (h : s.AtCondition ζ k p t f g m b a) :
    (k.isTrue = true → b = true) ∧ (k.isFalse = true → b = false) := by
  simp only [Cond.isTrue, Cond.isFalse, Bool.and_eq_true, List.isEmpty_iff, beq_iff_eq]
  rcases h with ⟨hb, hsome, -⟩ | ⟨hb, hsome, -⟩ | ⟨S, hsettles, -⟩
  · exact ⟨fun _ => hb, fun hk => absurd hk.1 hsome⟩
  · exact ⟨fun hk => absurd hk.1 hsome, fun _ => hb⟩
  · constructor
    · rintro ⟨-, hop⟩
      rw [hop] at hsettles
      exact hsettles.1
    · rintro ⟨-, hop⟩
      rw [hop] at hsettles
      exact hsettles.1

/-- Only the values that a condition may have matter. -/
theorem TestPending.congr (h : s.TestPending ζ s₁ k O d E)
    (hE : ∀ ν, (k.isTrue = true → (E ν).1 = true) → (k.isFalse = true → (E ν).1 = false) →
      A ν = E ν) :
    s.TestPending ζ s₁ k O d A where
  onward := h.onward
  op := h.op
  ready := h.ready
  live := h.live
  flat := h.flat
  onTrue := h.onTrue
  onFalse := h.onFalse
  back := fun hover hF => by
    obtain ⟨g, hg, hback⟩ := h.back hover hF
    refine ⟨g, hg, fun m a hm => ?_⟩
    have hstands := hback m a hm
    rw [Spot.tested, hE _ hstands.known.1 hstands.known.2]
    exact hstands

/-- Control goes on where a condition is known to hold. -/
theorem TestPending.known (h : s.TestPending ζ s₁ k O d E) (htrue : k.isTrue = true) :
    SucceedsWith (Emit.resolve k.onTrue) s₁ fun _ s₂ => s.SkippedUnless ζ s₂ [] O d E ∧
      s₂.Live := by
  obtain ⟨hnil, hop⟩ : k.onFalse = [] ∧ k.op = .goto := by simpa [Cond.isTrue] using htrue
  have hready : s₁.Ready ζ (k.onTrue ++ O) d := by
    have hready := h.ready
    rwa [hnil, hop] at hready
  refine (Emit.resolve_waits hready h.onTrue).mono fun _ s₂ hs => ⟨?_, hs.live (.inl h.live)⟩
  refine ⟨h.onward.trans hs.onward, hs.ready, fun hflat => hs.flat d (h.flat ?_ hflat), fun _ hl =>
    (by cases hl), ?_⟩
  · rw [hop]
    decide
  · intro H p f g' hover hF
    rw [Chain.toward_nil, Set.empty_union] at hF
    obtain ⟨hF', hsame, hchain⟩ := hs.back hF
    have hF' : s₁.Future (k.onTrue.toward g' ∪ (k.onFalse.toward 0 ∪ H)) p g' := by
      rwa [hnil, Chain.toward_nil, Set.empty_union]
    obtain ⟨g, hg, hback⟩ := h.back hover hF'
    refine ⟨g, hg, fun m a hm => ?_⟩
    have hstands := hback m a hm
    rw [if_pos (hstands.known.1 htrue)]
    rcases hstands with ⟨-, hsome, hvisits⟩ | ⟨-, hsome, -⟩ | ⟨S, hsettles, hmeets⟩
    · exact hchain m _ hsome hvisits
    · exact absurd hnil hsome
    · rw [hop] at hsettles
      obtain rfl := hsettles.2
      exact hsame m _ hmeets

/-- A condition behind another one, with the branches of the first added to those of the second. -/
theorem SkippedUnless.testPending (h : s.SkippedUnless ζ s₁ no O d E)
    (h' : s₁.TestPending ζ s₂ k (no ++ O) d A) (hperm : no'.Perm (no ++ k.onFalse))
    (htrue : ∀ ν, (E ν).1 = true → B ν = A (E ν).2)
    (hfalse : no ≠ [] → ∀ ν, (E ν).1 = false → B ν = (false, (E ν).2)) :
    s.TestPending ζ s₂ ⟨k.op, k.onTrue, no'⟩ O d B := by
  constructor
  case onward => exact h.onward.trans h'.onward
  case op => exact h'.op
  case ready =>
    refine h'.ready.perm (List.perm_iff_count.mpr fun l => ?_)
    simp only [List.count_append, hperm.count_eq]
    omega
  case live => exact h'.live
  case flat => exact fun hop hflat => h'.flat hop (h.flat hflat)
  case onTrue => exact h'.onTrue
  case onFalse => exact h.arrives.of_perm h'.onFalse hperm
  case back =>
    intro H p t f g' hover hF
    have hF : s₂.Future (k.onTrue.toward t ∪ (k.onFalse.toward f ∪ (no.toward f ∪ H))) p g' := by
      rw [Chain.toward_of_perm hperm, Set.union_assoc, Set.union_left_comm (no.toward f)] at hF
      exact hF
    obtain ⟨g₁, hg₁, hback'⟩ := h'.back (hover.toward _ _) hF
    obtain ⟨g, hg, hback⟩ := h.back hover hg₁
    refine ⟨g, hg, fun m a hm => ?_⟩
    have hout := hback m a hm
    cases hb : (E a.vals).1 with
    | true =>
        rw [hb] at hout
        rw [Spot.tested, htrue _ hb]
        exact (hback' m _ hout).imp id
          (.imp (.imp id (.imp (fun hsome => Chain.ne_nil_of_perm hperm (.inr hsome)) id)) id)
    | false =>
        rw [hb] at hout
        rw [Spot.tested, hfalse hout.1 _ hb]
        exact .inr (.inl ⟨rfl, Chain.ne_nil_of_perm hperm (.inl hout.1), hout.2⟩)

/-- One of two conditions: the first comes to `yes` and `no'`, control goes over to the second by
the branches `no`, and the branches of both are joined. -/
theorem SkippedUnless.choose {k' : Cond} (h : s.SkippedUnless ζ s₁ no O d E)
    (h₁ : s₁.SkippedUnless ζ s₂ no' (no ++ O) d A)
    (h₂ : s₂.Splits ζ s₃ .goto yes (no' ++ (no ++ O)) d)
    (h₃ : s₃.Waits ζ s₄ no (yes ++ (no' ++ O)) d)
    (h₄ : s₄.TestPending ζ s₅ k (yes ++ (no' ++ O)) d B) (hop : k'.op = k.op)
    (honTrue : k'.onTrue.Perm (yes ++ k.onTrue)) (honFalse : k'.onFalse.Perm (no' ++ k.onFalse)) :
    s.TestPending ζ s₅ k' O d (E.choose A B) := by
  constructor
  case onward =>
    exact h.onward.trans (h₁.onward.trans (h₂.onward.trans (h₃.onward.trans h₄.onward)))
  case op => rw [hop]; exact h₄.op
  case ready =>
    rw [hop]
    refine h₄.ready.perm (List.perm_iff_count.mpr fun l => ?_)
    simp only [List.count_append, honTrue.count_eq, honFalse.count_eq]
    omega
  case live => exact h₄.live
  case flat =>
    rw [hop]
    exact fun hno hflat => h₄.flat hno (h₃.flat d (h₂.flat (.inr (h₁.flat (h.flat hflat)))))
  case onTrue => exact h₂.arrives.of_perm h₄.onTrue honTrue
  case onFalse => exact h₁.arrives.of_perm h₄.onFalse honFalse
  case back =>
    intro H p t f g₅ hover hF
    have hF :
        s₅.Future (k.onTrue.toward t ∪ (k.onFalse.toward f ∪ (yes.toward t ∪ (no'.toward f ∪ H)))) p
          g₅ := by
      rw [Chain.toward_of_perm honTrue, Chain.toward_of_perm honFalse] at hF
      refine (congrArg (fun H => s₅.Future H p g₅) ?_).mp hF
      ext o
      simp only [Set.mem_union]
      tauto
    obtain ⟨g₄, hg₄, hback₄⟩ := h₄.back ((hover.toward _ _).toward _ _) hF
    obtain ⟨hg₃, -, hchain⟩ := h₃.back hg₄
    rw [Set.union_left_comm] at hg₃
    have hover₂ : (no.toward g₄ ∪ (no'.toward f ∪ H)).Over (no' ++ (no ++ O)) := by
      rw [Set.union_left_comm]
      exact (hover.toward _ _).toward _ _
    obtain ⟨g₂, hg₂, hback₂⟩ := h₂.back hover₂ hg₃
    rw [Set.union_left_comm] at hg₂
    obtain ⟨g₁, hg₁, hback₁⟩ := h₁.back (hover.toward _ _) hg₂
    obtain ⟨g, hg, hback⟩ := h.back hover hg₁
    refine ⟨g, hg, fun m a hm => ?_⟩
    have hout := hback m a hm
    cases hb : (E a.vals).1 with
    | true =>
        rw [hb] at hout
        have hout₁ := hback₁ m _ hout
        rw [Spot.tested, Test.choose, hb, if_pos rfl]
        cases hb₁ : (A (E a.vals).2).1 with
        | true =>
            rw [Spot.tested, hb₁] at hout₁
            have hgoto := hback₂ m a.stack true ((a.tested E).tested A) ⟨rfl, rfl⟩ hout₁
            exact .inl ⟨rfl, Chain.ne_nil_of_perm honTrue (.inl hgoto.1), hgoto.2⟩
        | false =>
            rw [Spot.tested, hb₁] at hout₁
            exact .inr (.inl ⟨rfl, Chain.ne_nil_of_perm honFalse (.inl hout₁.1), hout₁.2⟩)
    | false =>
        rw [hb] at hout
        rw [Spot.tested, Test.choose, hb, if_neg Bool.false_ne_true]
        refine (hback₄ m _ (hchain m _ hout.1 hout.2)).imp ?_ (.imp ?_ ?_)
        · exact fun ⟨hb, hsome, hvisits⟩ => ⟨hb, Chain.ne_nil_of_perm honTrue (.inr hsome), hvisits⟩
        · exact fun ⟨hb, hsome, hvisits⟩ =>
            ⟨hb, Chain.ne_nil_of_perm honFalse (.inr hsome), hvisits⟩
        · rw [hop]
          exact id

end MethodState

/-! ### Both ways of a condition -/

/-- The machine leaves by the branches of a chain, which lead to `t`, or it returns. -/
def Program.Leaves (p : Program) (ζ : Seating) (m : Machine) (chain : Chain)
    (t : ℕ) : Outcome → Prop
  | .here a => chain ≠ [] ∧ p.Visits ζ m t a
  | .answer v ν => ∃ R, ζ.Seats ν R ∧ p.Returns m ⟨v, R⟩

namespace MethodState

variable {ζ : Seating} {s s₁ s₂ : MethodState} {k : Cond} {O : List Link} {d d' : ℕ} {E : Test}
  {no out : Chain} {l : Bool}
  {T W : Spot → Outcome → Prop}

/-- The way of a condition that holds has been written and is left by the branches `out`. -/
structure TrueBranchWritten (ζ : Seating) (s s' : MethodState) (no out : Chain) (O : List Link)
    (d d' : ℕ) (E : Test) (T : Spot → Outcome → Prop) : Prop where
  onward : Onward s s'
  ready : s'.Ready ζ (no ++ (out ++ O)) d
  ready' : no = [] → s'.Ready ζ (out ++ O) d'
  arrives : no.Arrives d []
  exits : out.Arrives d' []
  back : ∀ {H : Plan} {p : Program} {f t g' : ℕ}, H.Over O →
    s'.Future (no.toward f ∪ (out.toward t ∪ H)) p g' →
    ∃ g, s.Future H p g ∧ ∀ m a, s.Meets ζ p g m (.here a) →
      if (E a.vals).1 then ∀ o, T (a.tested E) o → p.Leaves ζ m out t o else p.Leaves ζ m no f
        (.here (a.tested E))

/-- Control goes to the end of the code or leaves by the branches `out`. -/
structure BranchesWritten (ζ : Seating) (s s' : MethodState) (out : Chain) (O : List Link) (d : ℕ)
    (W : Spot → Outcome → Prop) :
    Prop where
  onward : Onward s s'
  ready : s'.Ready ζ (out ++ O) d
  exits : out.Arrives d []
  back : ∀ {H : Plan} {p : Program} {t g' : ℕ}, H.Over O → s'.Future (out.toward t ∪ H) p g' →
    ∃ g, s.Future H p g ∧ ∀ m a o, W a o → s.Meets ζ p g m (.here a) → p.Leaves ζ m out t o ∨
      s'.Meets ζ p g' m o

/-- A condition that is known not to hold leaves one way out. -/
theorem SkippedUnless.trueBranchWritten (h : s.SkippedUnless ζ s₁ no O d E) (hdead : ¬ s₁.Live)
    (hsome : no ≠ []) :
    s.TrueBranchWritten ζ s₁ no [] O d d' E T := by
  refine ⟨h.onward, h.ready, fun hnil => absurd hnil hsome, h.arrives, fun _ hl =>
    (by cases hl), ?_⟩
  intro H p f t g' hover hF
  rw [Chain.toward_nil, Set.empty_union] at hF
  obtain ⟨g, hg, hback⟩ := h.back hover hF
  refine ⟨g, hg, fun m a hm => ?_⟩
  have hout := hback m a hm
  cases hb : (E a.vals).1 with
  | true =>
      rw [hb] at hout
      exact absurd hout.live hdead
  | false =>
      rw [hb] at hout
      exact hout

/-- The way is left by a `goto`. -/
theorem SkippedUnless.goto (h : s.SkippedUnless ζ s₁ no O d E) {s₃ : MethodState}
    (hflow : s₁.ControlFlow ζ s₂ (no ++ O) d' T) (hgoto : s₂.Splits ζ s₃ .goto out (no ++ O) d')
    (hready : ∀ d, s₃.Ready ζ (out ++ (no ++ O)) d) :
    s.TrueBranchWritten ζ s₃ no out O d d' E T := by
  refine ⟨h.onward.trans (hflow.onward.trans hgoto.onward), (hready d).perm ?_, ?_, h.arrives,
    hgoto.arrives, ?_⟩
  · rw [← List.append_assoc, ← List.append_assoc]
    exact List.perm_append_comm.append_right O
  · rintro rfl
    exact hready d'
  · intro H p f t g' hover hF
    rw [Set.union_left_comm] at hF
    obtain ⟨g₂, hg₂, hback₂⟩ := hgoto.back (hover.toward _ _) hF
    obtain ⟨g₁, hg₁, hback₁⟩ := hflow.back (hover.toward _ _) hg₂
    obtain ⟨g, hg, hback⟩ := h.back hover hg₁
    refine ⟨g, hg, fun m a hm => ?_⟩
    have hout := hback m a hm
    cases hb : (E a.vals).1 with
    | false =>
        rw [hb] at hout
        exact hout
    | true =>
        rw [hb] at hout
        intro o ho
        have hmeets := hback₁ m _ o ho hout
        cases o with
        | here b => exact hback₂ m b.stack true b ⟨rfl, rfl⟩ hmeets
        | answer v ν => exact hmeets

/-- The other way is written behind the branches `no`. -/
theorem TrueBranchWritten.otherwise (h : s.TrueBranchWritten ζ s₁ no out O d d' E T)
    {s₃ : MethodState} (hno : s₁.Waits ζ s₂ no (out ++ O) d)
    (hflow : s₂.ControlFlow ζ s₃ (out ++ O) d' W) :
    s.BranchesWritten ζ s₃ out O d' fun a => if (E a.vals).1 then T (a.tested E) else W
      (a.tested E) := by
  refine ⟨h.onward.trans (hno.onward.trans hflow.onward), hflow.ready, h.exits, ?_⟩
  intro H p t g' hover hF
  obtain ⟨g₂, hg₂, hback₂⟩ := hflow.back (hover.toward _ _) hF
  obtain ⟨hF₁, -, hchain⟩ := hno.back hg₂
  obtain ⟨g, hg, hback⟩ := h.back hover hF₁
  refine ⟨g, hg, fun m a o ho hm => ?_⟩
  have hout := hback m a hm
  cases hb : (E a.vals).1 with
  | true =>
      rw [hb] at hout ho
      exact .inl (hout o ho)
  | false =>
      rw [hb] at hout ho
      exact .inr (hback₂ m _ o ho (hchain m _ hout.1 hout.2))

/-- There is no other way. -/
theorem TrueBranchWritten.alone (h : s.TrueBranchWritten ζ s₁ no out O d d' E T) (hnil : no = []) :
    s.BranchesWritten ζ s₁ out O d' fun a => if (E a.vals).1 then T (a.tested E) else W
      (a.tested E) := by
  subst hnil
  refine ⟨h.onward, h.ready' rfl, h.exits, ?_⟩
  intro H p t g' hover hF
  have hF : s₁.Future (Chain.toward [] 0 ∪ (out.toward t ∪ H)) p g' := by
    rwa [Chain.toward_nil, Set.empty_union]
  obtain ⟨g, hg, hback⟩ := h.back hover hF
  refine ⟨g, hg, fun m a o ho hm => ?_⟩
  have hout := hback m a hm
  cases hb : (E a.vals).1 with
  | true =>
      rw [hb] at hout ho
      exact .inl (hout o ho)
  | false =>
      rw [hb] at hout
      exact absurd rfl hout.1

/-- Both ways come together. -/
theorem BranchesWritten.resolve (h : s.BranchesWritten ζ s₁ out O d W) :
    SucceedsWith (Emit.resolve out) s₁ fun _ s₂ =>
    s.ControlFlow ζ s₂ O d W ∧ (s₁.Live ∨ out ≠ [] → s₂.Live) ∧ (s₁.Flat d → s₂.Flat d) := by
  refine (Emit.resolve_waits h.ready h.exits).mono fun _ s₂ hs =>
    ⟨⟨h.onward.trans hs.onward, hs.ready, ?_⟩, hs.live, hs.flat d⟩
  intro H p g' hover hF
  obtain ⟨hF₁, hsame, hchain⟩ := hs.back hF
  obtain ⟨g, hg, hback⟩ := h.back hover hF₁
  refine ⟨g, hg, fun m a o ho hm => ?_⟩
  rcases hback m a o ho hm with hleaves | hmeets
  · cases o with
    | here b => exact hchain m b hleaves.1 hleaves.2
    | answer v ν => exact hleaves
  · exact hsame m o hmeets

end MethodState

end StackCode
