import StackCode.Proofs.JumpDiscipline
import StackCode.Proofs.LockstepRegions
import StackCode.Proofs.LockstepSwitch

/-!
# Methods in lockstep

The code of a statement without `letIn` and without handlers keeps in step (`Stmt.paces_code`),
and so do the two runs over the body of a method that has such a body (`methodBody_tied`). The
runs begin with empty codes and so with an empty list of segments.
-/

set_option maxRecDepth 4000

namespace StackCode

/-! ### Trees -/

mutual

/-- Whether no try statement in a statement has a handler. -/
def Stmt.catchFree (s : Stmt) : Bool :=
  match s with
  | .block _ ss => Stmt.allCatchFree ss
  | .varDef _ _ _ | .skip _ | .exec _ _ | .breakTo _ _ | .continueTo _ _ | .ret _ _ | .raise _ _
  | .assert _ _ _ | .localClass _ _ => true
  | .doLoop _ b _ => b.catchFree
  | .whileLoop _ _ b => b.catchFree
  | .forLoop _ init _ step b => Stmt.allCatchFree init && Stmt.allCatchFree step && b.catchFree
  | .foreach _ _ _ b => b.catchFree
  | .labelled _ _ b => b.catchFree
  | .switch _ _ cs => Case.allCatchFree cs
  | .sync _ _ b => b.catchFree
  | .tryCatch _ b cs (some f) => b.catchFree && cs.isEmpty && f.catchFree
  | .tryCatch _ b cs none => b.catchFree && cs.isEmpty
  | .ite _ _ t (some f) => t.catchFree && f.catchFree
  | .ite _ _ t none => t.catchFree

def Stmt.allCatchFree (ss : List Stmt) : Bool :=
  match ss with
  | [] => true
  | s :: ss => s.catchFree && Stmt.allCatchFree ss

def Case.allCatchFree (cs : List Case) : Bool :=
  match cs with
  | [] => true
  | .mk _ _ ss :: cs => Stmt.allCatchFree ss && Case.allCatchFree cs

end

variable {ctx : Context}

theorem Expr.paces_code (env : Env) (e : Expr) (h : e.letFree = true) : (e.code ctx env).Paces :=
  ⟨e.inStep_code env h, e.isComposed_code trivial env (.inl h)⟩

mutual

theorem Stmt.paces_code (s : Stmt) (hlet : s.letFree = true) (hcatch : s.catchFree = true) :
    Paces (s.code ctx).gen := by
  -- that the code is composed of elementary steps holds of every statement
  refine ⟨fun env henv => s.composed_code trivial henv, fun env henv => ?_⟩
  cases s with
  | block i ss =>
      simp only [Stmt.letFree, Stmt.catchFree] at hlet hcatch
      rw [Stmt.code]
      exact (Gen.marches_statement i none env
        (Gen.marches_block i (Stmt.paces_gens ss hlet hcatch) henv).proceeds).runs
  | varDef i v init =>
      cases init with
      | none =>
          rw [Stmt.code]
          exact (Gen.marches_statement i (some v) env
            (Gen.marches_varDef ctx i v (by simp)).proceeds).runs
      | some e =>
          simp only [Stmt.letFree] at hlet
          have he : (e.code ctx env).Paces := e.paces_code env hlet
          rw [Stmt.code]
          refine (Gen.marches_statement i (some v) env
            (Gen.marches_varDef ctx i v ?_).proceeds).runs
          rintro _ ⟨⟩
          exact he
  | skip i =>
      rw [Stmt.code]
      exact (Gen.marches_statement i none env Marches.pure.proceeds).runs
  | doLoop i b c =>
      simp only [Stmt.letFree, Stmt.catchFree, Bool.and_eq_true] at hlet hcatch
      rw [Stmt.code]
      exact (Gen.marches_statement i none env (Gen.marches_testLastLoop i (c.paces_code env hlet.2)
        (b.paces_code hlet.1 hcatch) henv).proceeds).runs
  | whileLoop i c b =>
      simp only [Stmt.letFree, Stmt.catchFree, Bool.and_eq_true] at hlet hcatch
      have hc : (c.code ctx env).Paces := c.paces_code env hlet.1
      rw [Stmt.code]
      refine (Gen.marches_statement i none env (Gen.marches_testFirstLoop i ?_
        ⟨fun _ _ => .pure, fun _ _ => Marches.pure.runs⟩
        (b.paces_code hlet.2 hcatch) henv).proceeds).runs
      rintro _ ⟨⟩
      exact hc
  | forLoop i init c step b =>
      cases c with
      | none =>
          simp only [Stmt.letFree, Stmt.catchFree, Bool.and_eq_true] at hlet hcatch
          rw [Stmt.code]
          exact (Gen.marches_statement i none env (Gen.marches_forLoop i
            (Stmt.paces_gens init hlet.1.1 hcatch.1.1) (by simp)
            (Stmt.paces_gens step hlet.1.2 hcatch.1.2)
            (b.paces_code hlet.2 hcatch.2) henv).proceeds).runs
      | some c =>
          simp only [Stmt.letFree, Stmt.catchFree, Bool.and_eq_true] at hlet hcatch
          have hc : (c.code ctx env).Paces := c.paces_code env hlet.1.1.2
          rw [Stmt.code]
          refine (Gen.marches_statement i none env (Gen.marches_forLoop i
            (Stmt.paces_gens init hlet.1.1.1 hcatch.1.1) ?_
            (Stmt.paces_gens step hlet.1.2 hcatch.1.2)
            (b.paces_code hlet.2 hcatch.2) henv).proceeds).runs
          rintro _ ⟨⟩
          exact hc
  | foreach i v e b =>
      rw [Stmt.code]
      exact (Gen.marches_statement i none env ⟨.throw rfl, fun _ _ => .throw⟩).runs
  | labelled i l b =>
      simp only [Stmt.letFree, Stmt.catchFree] at hlet hcatch
      rw [Stmt.code]
      exact (Gen.marches_statement i none env
        (Gen.marches_labelled i (b.paces_code hlet hcatch) henv).proceeds).runs
  | switch i e cs =>
      simp only [Stmt.letFree, Stmt.catchFree, Bool.and_eq_true] at hlet hcatch
      rw [Stmt.code]
      exact (Gen.marches_statement i none env (Gen.proceeds_switch i (e.paces_code env hlet.1)
        (Case.paces_codes cs hlet.2 hcatch) henv)).runs
  | sync i e b =>
      simp only [Stmt.letFree, Stmt.catchFree, Bool.and_eq_true] at hlet hcatch
      rw [Stmt.code]
      exact (Gen.marches_statement i none env (Gen.proceeds_sync i (e.paces_code env hlet.1)
        (b.paces_code hlet.2 hcatch) henv)).runs
  | tryCatch i b cs f =>
      cases f with
      | none =>
          simp only [Stmt.letFree, Stmt.catchFree, Bool.and_eq_true,
            List.isEmpty_iff] at hlet hcatch
          obtain ⟨hb, rfl⟩ := hcatch
          rw [Stmt.code, Catch.codes]
          exact (Gen.marches_statement i none env (Gen.marches_tryCatch ctx i
            (b.paces_code hlet.1 hb) none (by simp) henv).proceeds).runs
      | some f =>
          simp only [Stmt.letFree, Stmt.catchFree, Bool.and_eq_true,
            List.isEmpty_iff] at hlet hcatch
          obtain ⟨⟨hb, rfl⟩, hf⟩ := hcatch
          have hfinal := f.paces_code hlet.2 hf
          rw [Stmt.code, Catch.codes]
          refine (Gen.marches_statement i none env (Gen.marches_tryCatch ctx i
            (b.paces_code hlet.1.1 hb) (some f) ?_ henv).proceeds).runs
          rintro _ ⟨⟩
          exact hfinal
  | ite i c t f =>
      cases f with
      | none =>
          simp only [Stmt.letFree, Stmt.catchFree, Bool.and_eq_true] at hlet hcatch
          rw [Stmt.code]
          exact (Gen.marches_statement i none env (Gen.marches_ite (c.paces_code env hlet.1)
            (t.paces_code hlet.2 hcatch) (by simp) henv).proceeds).runs
      | some f =>
          simp only [Stmt.letFree, Stmt.catchFree, Bool.and_eq_true] at hlet hcatch
          have hf := f.paces_code hlet.2 hcatch.2
          rw [Stmt.code]
          refine (Gen.marches_statement i none env (Gen.marches_ite (c.paces_code env hlet.1.1)
            (t.paces_code hlet.1.2 hcatch.1) ?_ henv).proceeds).runs
          rintro _ ⟨⟩
          exact hf
  | exec i e =>
      simp only [Stmt.letFree] at hlet
      rw [Stmt.code]
      exact (Gen.marches_statement i none env
        (Gen.marches_exec (e.paces_code env hlet)).proceeds).runs
  | breakTo i t | continueTo i t =>
      rw [Stmt.code]
      exact (Gen.marches_statement i none env (Gen.marches_jumpTo i t _ henv).proceeds).runs
  | ret i e =>
      cases e with
      | none =>
          rw [Stmt.code]
          exact (Gen.marches_statement i none env (Gen.marches_retVoid henv).proceeds).runs
      | some e =>
          simp only [Stmt.letFree] at hlet
          rw [Stmt.code]
          exact (Gen.marches_statement i none env
            (Gen.marches_retValue (e.paces_code env hlet) _ henv).proceeds).runs
  | raise i e =>
      simp only [Stmt.letFree] at hlet
      rw [Stmt.code]
      exact (Gen.marches_statement i none env
        (Gen.marches_raise (e.paces_code env hlet)).proceeds).runs
  | assert i c d =>
      rw [Stmt.code]
      exact (Gen.marches_statement i none env ⟨.throw rfl, fun _ _ => .throw⟩).runs
  | localClass i c =>
      rw [Stmt.code]
      exact (Gen.marches_statement i none env ⟨.throw rfl, fun _ _ => .throw⟩).runs

theorem Stmt.paces_gens (ss : List Stmt) (hlet : Stmt.allLetFree ss = true)
    (hcatch : Stmt.allCatchFree ss = true) : Paces (Stmt.gens ctx ss) := by
  refine ⟨fun env henv => Stmt.composed_gens trivial ss henv, fun env henv => ?_⟩
  cases ss with
  | nil =>
      rw [Stmt.gens]
      exact Marches.pure.runs
  | cons s ss =>
      simp only [Stmt.allLetFree, Stmt.allCatchFree, Bool.and_eq_true] at hlet hcatch
      rw [Stmt.gens]
      exact (((s.paces_code hlet.1 hcatch.1).marches henv).bind fun _ =>
        (Stmt.paces_gens ss hlet.2 hcatch.2).marches henv).runs

theorem Case.paces_codes (cs : List Case) (hlet : Case.allLetFree cs = true)
    (hcatch : Case.allCatchFree cs = true) : ∀ c ∈ Case.codes ctx cs, Paces c.gen := by
  cases cs with
  | nil =>
      rw [Case.codes]
      exact fun c hc => absurd hc List.not_mem_nil
  | cons c cs =>
      obtain ⟨span, label, ss⟩ := c
      rw [Case.codes]
      intro c hc
      have hparts : Stmt.allLetFree ss = true ∧ Case.allLetFree cs = true := by
        cases label with
        | none => simpa only [Case.allLetFree, Bool.and_eq_true] using hlet
        | some e =>
            simp only [Case.allLetFree, Bool.and_eq_true] at hlet
            exact ⟨hlet.1.2, hlet.2⟩
      simp only [Case.allCatchFree, Bool.and_eq_true] at hcatch
      rcases List.mem_cons.mp hc with rfl | hc
      · exact Stmt.paces_gens ss hparts.1 hcatch.1
      · exact Case.paces_codes cs hparts.2 hcatch.2 c hc

end

/-! ### Methods -/

namespace Gen

theorem straight_parameters (ctx : Context) : Straight (parameters ctx) := by
  have hdefine (reg : UInt16) : Straight (touch (·.define reg)) :=
    straight_touch (Emit.straight_define reg)
  have hparams : Straight (ctx.method.params.forM fun p => do
      let reg ← declare p
      touch (·.define reg)
      checkDimensions ctx.method.span p.ty : Gen Unit) :=
    .forM fun p _ => (straight_declare p).bind fun reg => (hdefine reg).bind fun _ => .reporting _
  refine .ite hparams ?_
  exact (Emit.straight_newVar _ _).inGen.bind fun reg => (hdefine reg).bind fun _ => hparams

theorem marches_fallOff (ctx : Context) (line : ℕ) : Marches (fallOff ctx line) := by
  refine ⟨composed_fallOff ctx line, fun g => ?_⟩
  refine .peek_even (fun _ _ h => h.frame.depth) fun depth => ?_
  refine .optional (P := fun _ _ _ => True) .rfl (fun _ => .throw) (fun _ => trivial)
    fun g₁ _ _ _ _ => ?_
  refine .reachable_bind (.ite .rfl (fun _ => ?_) fun _ => .pure ⟨rfl, trivial⟩)
  refine (straight_beginLine line).step fun g₂ _ _ _ => .ite .rfl (fun _ => ?_) fun _ => ?_
  · exact (Emit.plain_runs (by decide) (by decide)).inGen.mono fun _ _ _ _ h => ⟨h.1, trivial⟩
  · refine Emit.entry_runs.inGen.step fun g₃ start start' _ hstart => ?_
    refine (Emit.branch_runs (.inr (.inl rfl))).inGen.value fun g₄ m back back' hg₄ hback => ?_
    rw [add_zero]
    exact (Emit.resolveTo_runs hback.1 (hstart.place.grown hg₄)).inGen.mono fun _ _ _ _ h =>
      ⟨h.1, trivial⟩

/-- Two runs begin in the same state, up to the width of jumps. -/
theorem tied_firstState (ctx : Context) (subroutines : Bool) (s : ClassState) :
    Tied ⟨[], 0, true, false⟩ 0 (ClassGen.firstState ctx false subroutines s)
      (ClassGen.firstState ctx true subroutines s) where
  code := {
    alive := rfl
    frame := .refl _
    maxStack := rfl
    maxLocals := rfl
    nextReg := rfl
    keepVars := rfl
    slots := rfl
    ranges := rfl
    near := .nil false
    far := .nil true
    sound := by simp
    narrow := rfl
    wide := rfl
    firm := nofun
    base := Nat.le_refl _
    dry := nofun
    loose := fun _ k frame h => absurd h.1 (by simp)
    depth := Nat.le_refl _ }
  live := rfl
  links := by
    have hbare (id : ScopeId) : Scopes.get {} id = { kind := .method } := by
      cases id <;> rfl
    refine ⟨0, 0, .nil, ⟨rfl, fun _ => 0, fun id => ?_, by simp⟩, by simp [Owned]⟩
    show (Scopes.get {} id).Tied [] (Scopes.get {} id) 0
    rw [hbare]
    exact ⟨rfl, rfl, rfl, rfl, rfl, 0, 0, .nil, .nil, rfl⟩
  pool := rfl
  locals := rfl
  subroutines := rfl
  letDepth := rfl
  appends := rfl

/-- What follows the parameters of a method. -/
theorem marches_rest {body : Stmt} (hlet : body.letFree = true) (hcatch : body.catchFree = true) :
    Marches (do
      ranged body.span RangeFlag.block do
        (body.code ctx).gen Env.outermost
        fallOff ctx body.span.lastLine
      Emit.endScopes 0 : Gen Unit) := by
  have hbody : Marches ((body.code ctx).gen Env.outermost) :=
    (body.paces_code hlet hcatch).marches .outermost
  exact (marches_ranged _ _ (hbody.bind fun _ => marches_fallOff ctx _)).bind fun _ =>
    .of_straight (Emit.straight_endScopes 0).inGen (Emit.composed_endScopes 0).inGen

/-- The two runs over a method end with codes that are laid out as the same segments, as long as
the wide code stays shorter than positions can tell. -/
theorem methodBody_tied {body : Stmt} (hlet : body.letFree = true) (hcatch : body.catchFree = true)
    {subroutines : Bool} {s : ClassState} {u v : Unit} {s' t' : MethodState}
    (hnear : methodBody ctx body (ClassGen.firstState ctx false subroutines s) = .ok u s')
    (hfar : methodBody ctx body (ClassGen.firstState ctx true subroutines s) = .ok v t')
    (hshort : t'.asm.code.pc < 0xFFFFFFFF) : ∃ g, Tied g 0 s' t' := by
  obtain ⟨⟨⟩, s₁, hparams, hnear⟩ := EStateM.bind_eq_ok.mp hnear
  obtain ⟨⟨⟩, t₁, hparams', hfar⟩ := EStateM.bind_eq_ok.mp hfar
  obtain ⟨p, s₂, hentry, hnear⟩ := EStateM.bind_eq_ok.mp hnear
  obtain ⟨p', t₂, hentry', hfar⟩ := EStateM.bind_eq_ok.mp hfar
  obtain ⟨g₁, _, htied₁, -, rfl, -⟩ := straight_parameters ctx _ 0 _ _
    (by rw [add_zero]; exact tied_firstState ctx subroutines s) _ _ _ _ hparams hparams' nofun
  have hentries : Runs false g₁ 0 (liftM Emit.entry : Gen ℕ) (liftM Emit.entry)
      (Plain fun g' a b => g'.Entered a b) := Emit.entry_runs.inGen
  obtain ⟨g₂, _, htied₂, -, rfl, hentered⟩ := hentries 0 _ _ htied₁ _ _ _ _ hentry hentry' nofun
  obtain ⟨g₃, _, htied₃, -, rfl, -⟩ := (marches_rest hlet hcatch).runs g₂ 0 _ _ htied₂ _ _ _ _
    hnear hfar fun _ => ⟨hentered.firm, hshort⟩
  exact ⟨g₃, htied₃⟩

end Gen

end StackCode
