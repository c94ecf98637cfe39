import StackCode.Generate.Class
import StackCode.Proofs.Settling

/-!
# Attempts at a method

A method whose code gets too large for narrow jumps is generated once more. To speak of
the attempts that are made, `Tracing.method` generates it as `ClassGen.method` does, but
also writes every attempt down.

The main statement, `Generator.generate_recovers`, says what comes of it: there is one
narrow attempt and at most one wide one after it, a class never fails because its code is
too large for its jumps, and the code of a method is what the last attempt left. If that
one was narrow, then no branch in it was too long; in any case the code is within the
limits of the class format and nothing in it was clamped to them.
-/

namespace StackCode

/-! ### Attempts written down -/

/-- An attempt at the code of a body, and the state of the class where it begins. -/
structure Attempt where
  body : Stmt
  wide : Bool
  subroutines : Bool
  start : ClassState

/-- Generating a class, with the attempts made so far. -/
abbrev Tracing := EStateM Error (ClassState × List Attempt)

namespace Tracing

/-- The way a run ended, beside the attempts that were made. -/
def ended {α : Type} (tried : List Attempt) :
    EStateM.Result Error ClassState α → EStateM.Result Error (ClassState × List Attempt) α
  | .ok a s => .ok a (s, tried)
  | .error e s => .error e (s, tried)

instance : MonadLift ClassGen Tracing where
  monadLift x := fun (s, tried) => ended tried (x s)

/-- Makes an attempt and writes it down. -/
def attempt (ctx : Context) (body : Stmt) (wide subroutines : Bool) : Tracing (Option Code) :=
  fun (s, tried) => ended (tried ++ [⟨body, wide, subroutines, s⟩])
    (ClassGen.attempt ctx body wide subroutines s)

/-- The finished code of a method, with the attempts at it. -/
def method (ctx : Context) : Tracing (Option CodeAttr) := ClassGen.methodBy (attempt ctx) ctx

end Tracing

/-- A narrow attempt, and at most one more, which is wide. -/
inductive Retried : Option Stmt → List Attempt → Prop
  | never {b : Option Stmt} : Retried b []
  | once {b : Stmt} {s : ClassState} : Retried (some b) [⟨b, false, false, s⟩]
  | twice {b : Stmt} {s s' : ClassState} {subroutines : Bool} :
      Retried (some b) [⟨b, false, false, s⟩, ⟨b, true, subroutines, s'⟩]

namespace Attempt

/-- The state of the method where the attempt begins. -/
def first (ctx : Context) (a : Attempt) : MethodState :=
  ClassGen.firstState ctx a.wide a.subroutines a.start

/-- The attempt ends with `code`, which is within all limits, and if jumps are narrow, none of
the branches it settled was too long. -/
structure YieldsCode (ctx : Context) (a : Attempt) (code : Code) : Prop where
  made : ∃ s, ClassGen.attempt ctx a.body a.wide a.subroutines a.start = .ok (some code) s
  reaches : a.wide = true ∨ ∀ pc target,
    SettlesBranch (some ctx.resolver) (Gen.methodBody ctx a.body) (a.first ctx) pc target →
      Code.Near pc target
  size : code.bytes.size ≤ 65535
  stack : code.maxStack ≤ 65535
  locals : code.maxLocals ≤ 65535

/-- The finished code is what the attempt made, with nothing clamped. -/
structure Ships (ctx : Context) (a : Attempt) (attr : CodeAttr) : Prop where
  code : ∃ code, a.YieldsCode ctx code ∧ attr = code.finish ∧ attr.bytes = code.bytes ∧
    attr.maxStack = code.maxStack ∧ attr.maxLocals = code.maxLocals

end Attempt

/-! ### Single attempts -/

namespace NoOverflow

variable {σ α β : Type} {x : EStateM Error σ α} {f : α → EStateM Error σ β} {s s' : σ}

/-- If the first of two steps cannot overflow, the second one does. -/
theorem later (hx : NoOverflow x) (h : (x >>= f) s = .error .codeSizeOverflow s') :
    ∃ a s₁, f a s₁ = .error .codeSizeOverflow s' := by
  cases hrun : x s with
  | ok a s₁ =>
      rw [EStateM.bind_of_ok hrun] at h
      exact ⟨a, s₁, h⟩
  | error e s₁ =>
      rw [EStateM.bind_of_error hrun] at h
      cases h
      cases hx _ _ _ hrun

/-- If the second of two steps cannot overflow, the first one does. -/
theorem earlier (hf : ∀ a, NoOverflow (f a)) (h : (x >>= f) s = .error .codeSizeOverflow s') :
    x s = .error .codeSizeOverflow s' := by
  cases hrun : x s with
  | ok a s₁ =>
      rw [EStateM.bind_of_ok hrun] at h
      cases hf a _ _ _ h
  | error e s₁ =>
      rw [EStateM.bind_of_error hrun] at h
      cases h
      rfl

theorem onCode {x : Emit α} (hx : NoOverflow x) : NoOverflow (Asm.onCode x) := by
  rintro ⟨code, pool⟩ e s' h
  cases hrun : x code with
  | ok a c =>
      simp only [Asm.onCode, hrun] at h
      cases h
  | error e' c =>
      simp only [Asm.onCode, hrun] at h
      cases h
      exact hx _ _ _ hrun

theorem onAsm {x : Asm α} (hx : NoOverflow x) : NoOverflow (Gen.onAsm x) := by
  rintro ⟨asm, _⟩ e s' h
  cases hrun : x asm with
  | ok a asm' =>
      simp only [Gen.onAsm, hrun] at h
      cases h
  | error e' asm' =>
      simp only [Gen.onAsm, hrun] at h
      cases h
      exact hx _ _ _ hrun

end NoOverflow

/-- What asks no resolver and leaves the scopes and the exception table alone never fails for
the size of the code. -/
theorem Composed.noOverflow {σ α : Type} [Part σ] {x : EStateM Error σ α}
    (h : Composed (fun _ => False) false x) : NoOverflow x := by
  induction h with
  | pure => exact .pure
  | throw plain => exact .throw (Error.isPlain_iff.mp plain).1
  | bind _ _ ihx ihf => exact ihx.bind ihf
  | inspect _ _ ih => exact fun c => ih c c
  | onCode _ ih => exact ih.onCode
  | onAsm _ ih => exact ih.onAsm
  | look _ _ ih => exact fun s => ih s s
  | ask h | appendMethod h => exact h.elim
  | onScopes h | addCatch h => cases h
  | update | settle | pooled | note | report | checkDimensions | checkString =>
      intro s e s' h
      cases h

/-- A method overflows in its statement: the parameters before it and what ends the method
after it do not. -/
theorem Gen.methodBody_overflow {ctx : Context} {body : Stmt} {s s' : MethodState}
    (h : methodBody ctx body s = .error .codeSizeOverflow s') :
    ∃ s₁, (body.code ctx).gen Env.outermost s₁ = .error .codeSizeOverflow s' := by
  have hfall (line : Nat) : NoOverflow (fallOff ctx line) := (composed_fallOff ctx line).noOverflow
  have hpc : NoOverflow (Emit.curPc : Gen Nat) := Emit.composed_curPc.inGen.noOverflow
  obtain ⟨_, s₁, h⟩ := (composed_parameters ctx).noOverflow.later h
  obtain ⟨_, s₂, h⟩ := Emit.composed_entry.inGen.noOverflow.later h
  replace h := NoOverflow.earlier (fun _ => (Emit.composed_endScopes 0).inGen.noOverflow) h
  obtain ⟨unranged, s₃, h⟩ := NoOverflow.later (fun _ _ _ he => by cases he) h
  split at h
  · exact ⟨s₃, NoOverflow.earlier (fun _ => hfall _) h⟩
  · obtain ⟨_, s₄, h⟩ := hpc.later h
    refine ⟨s₄, NoOverflow.earlier (fun _ => hfall _) (NoOverflow.earlier (fun _ => ?_) h)⟩
    exact hpc.bind fun _ => .bind .modify fun _ => .pure

namespace ClassGen

variable {ctx : Context} {b : Stmt} {wide subroutines : Bool} {s s' : ClassState}

/-- A successful attempt ran to its end. -/
theorem attempt_eq_some {code : Code}
    (h : attempt ctx b wide subroutines s = .ok (some code) s') :
    ∃ last, Gen.methodBody ctx b (firstState ctx wide subroutines s) = .ok () last ∧
      last.asm.code = code := by
  rw [attempt_eq] at h
  generalize Gen.methodBody ctx b (firstState ctx wide subroutines s) = res at h
  unfold concluded at h
  split at h
  · cases h
    exact ⟨_, rfl, rfl⟩
  · cases h
  · cases h

/-- Code that asks for wide jumps was not written with them. -/
theorem attempt_eq_none (hr : ctx.resolver.IsPlain)
    (h : attempt ctx b wide subroutines s = .ok none s') : wide = false := by
  rw [attempt_eq] at h
  cases hrun : Gen.methodBody ctx b (firstState ctx wide subroutines s) with
  | ok a last =>
      rw [hrun] at h
      cases h
  | error e last =>
      rw [hrun] at h
      unfold concluded at h
      split at h
      · cases h
      · rename_i heq
        cases heq
        exact ((Gen.built_methodBody ⟨hr, rfl⟩ b).overflow hrun rfl).2
      · cases h

/-- An attempt never fails for the size of the code. -/
theorem attempt_eq_error (hr : ctx.resolver.IsPlain) {e : Error}
    (h : attempt ctx b wide subroutines s = .error e s') : e.isOverflow = false := by
  rw [attempt_eq] at h
  cases hrun : Gen.methodBody ctx b (firstState ctx wide subroutines s) with
  | ok a last =>
      rw [hrun] at h
      cases h
  | error e last =>
      rw [hrun] at h
      unfold concluded at h
      split at h
      · cases h
      · cases h
      · rename_i hne heq
        cases heq
        cases h
        cases hover : e.isOverflow with
        | false => rfl
        | true => exact absurd ((Gen.built_methodBody ⟨hr, rfl⟩ b).overflow hrun hover).1 hne

/-- Narrow code that asks for no wide jumps has no branch that is too long. -/
theorem near_of_attempt (hr : ctx.resolver.IsPlain) {code : Code}
    (h : attempt ctx b false subroutines s = .ok (some code) s') (hn : code.needsWide = false)
    {pc target : Nat} (hsettles : SettlesBranch (some ctx.resolver) (Gen.methodBody ctx b)
      (firstState ctx false subroutines s) pc target) : Code.Near pc target := by
  obtain ⟨last, hrun, rfl⟩ := attempt_eq_some h
  have hiff := (Gen.built_methodBody ⟨hr, rfl⟩ b).needsWide_iff hrun rfl rfl
  refine Decidable.byContradiction fun hfar => ?_
  exact nomatch hn.symm.trans (hiff.mpr ⟨pc, target, hsettles, hfar⟩)

/-- Reporting does not fail. -/
theorem forM_reporting {γ : Type} (xs : List γ) (f : γ → Reports → Reports) (s : ClassState) :
    ∃ s', (xs.forM fun a => reporting (f a)) s = .ok ⟨⟩ s' := by
  induction xs generalizing s with
  | nil => exact ⟨s, rfl⟩
  | cons a xs ih => exact ih ⟨s.pool, f a s.reports, s.appends⟩

theorem withinLimits_eq (ctx : Context) (code : Code) (s : ClassState) :
    ∃ s', withinLimits ctx code s = .ok (if code.exceeded.isEmpty then some code else none) s' := by
  obtain ⟨s', hrun⟩ := forM_reporting code.exceeded (fun limit r => r.add ctx.method.span limit) s
  exact ⟨s', EStateM.bind_eq_ok.mpr ⟨_, s', hrun, rfl⟩⟩

end ClassGen

/-- Code that exceeds no limit is within all of them. -/
theorem Code.within_of_exceeded {code : Code} (h : code.exceeded.isEmpty = true) :
    code.bytes.size ≤ 65535 ∧ code.maxStack ≤ 65535 ∧ code.maxLocals ≤ 65535 := by
  simp only [exceeded, List.isEmpty_iff, List.append_eq_nil_iff, ite_eq_right_iff,
    reduceCtorEq, imp_false, Nat.not_lt, and_assoc] at h
  exact h

/-! ### All attempts at a method -/

/-- How the attempts at a method may end: not for the size of the code, and if there is
something to show for them, with `good` of the last one. -/
structure AttemptsEnd {α : Type} (b : Option Stmt) (good : Attempt → α → Prop)
    (res : EStateM.Result Error ClassState (Option α)) (tried : List Attempt) : Prop where
  retried : Retried b tried
  error : ∀ e s, res = .error e s → e.isOverflow = false
  last : ∀ a s, res = .ok (some a) s → ∃ ahead last, tried = ahead ++ [last] ∧ good last a

namespace AttemptsEnd

variable {α : Type} {b : Option Stmt} {good : Attempt → α → Prop} {tried : List Attempt}

theorem of_none {s : ClassState} (h : Retried b tried) : AttemptsEnd b good (.ok none s) tried where
  retried := h
  error _ _ he := nomatch he
  last _ _ ha := nomatch ha

theorem of_error {e : Error} {s : ClassState} (h : Retried b tried) (he : e.isOverflow = false) :
    AttemptsEnd b good (.error e s) tried where
  retried := h
  error _ _ heq := by cases heq; exact he
  last _ _ ha := nomatch ha

theorem of_some {a : α} {s : ClassState} (ahead : List Attempt) {last : Attempt}
    (h : Retried b (ahead ++ [last])) (ha : good last a) :
    AttemptsEnd b good (.ok (some a) s) (ahead ++ [last]) where
  retried := h
  error _ _ he := nomatch he
  last _ _ heq := by cases heq; exact ⟨ahead, last, rfl, ha⟩

end AttemptsEnd

/-- From `s`, the run with attempts written down ends as the plain one does, and `P` holds of
the way it ended and the attempts it made. -/
def Traces {α : Type} (s : ClassState) (x : Tracing α) (y : ClassGen α)
    (P : EStateM.Result Error ClassState α → List Attempt → Prop) : Prop :=
  ∀ before, ∃ tried, x (s, before) = Tracing.ended (before ++ tried) (y s) ∧ P (y s) tried

namespace Traces

variable {α β : Type} {s s' : ClassState}
  {P : EStateM.Result Error ClassState β → List Attempt → Prop}

theorem pure {b : β} (h : P (.ok b s) []) : Traces s (Pure.pure b) (Pure.pure b) P := by
  intro before
  refine ⟨[], ?_, h⟩
  rw [List.append_nil]
  rfl

/-- A step without attempts. -/
theorem lift {x : ClassGen β} (h : P (x s) []) : Traces s (liftM x) x P := by
  intro before
  refine ⟨[], ?_, h⟩
  rw [List.append_nil]
  rfl

theorem attempt (ctx : Context) (b : Stmt) (wide subroutines : Bool) (s : ClassState) :
    Traces s (Tracing.attempt ctx b wide subroutines) (ClassGen.attempt ctx b wide subroutines)
      fun _ tried => tried = [⟨b, wide, subroutines, s⟩] :=
  fun _ => ⟨_, rfl, rfl⟩

theorem bind {Q : EStateM.Result Error ClassState α → List Attempt → Prop} {x : Tracing α}
    {y : ClassGen α} {f : α → Tracing β} {g : α → ClassGen β} (hx : Traces s x y Q)
    (herror : ∀ e s' tried, y s = .error e s' → Q (.error e s') tried → P (.error e s') tried)
    (hok : ∀ a s' tried, y s = .ok a s' → Q (.ok a s') tried →
      Traces s' (f a) (g a) fun res more => P res (tried ++ more)) :
    Traces s (x >>= f) (y >>= g) P := by
  intro before
  obtain ⟨tried, hsame, hQ⟩ := hx before
  cases hy : y s with
  | error e s' =>
      rw [hy] at hsame hQ
      refine ⟨tried, ?_, ?_⟩
      · rw [EStateM.bind_of_error hsame, EStateM.bind_of_error hy]
        rfl
      · rw [EStateM.bind_of_error hy]
        exact herror e s' tried hy hQ
  | ok a s' =>
      rw [hy] at hsame hQ
      obtain ⟨more, hsame', hP⟩ := hok a s' tried hy hQ (before ++ tried)
      refine ⟨tried ++ more, ?_, ?_⟩
      · rw [EStateM.bind_of_ok hsame, EStateM.bind_of_ok hy, hsame', List.append_assoc]
      · rwa [EStateM.bind_of_ok hy]

/-- A step without attempts that succeeds, and then another one. -/
theorem lift_bind {x : ClassGen α} {f : α → Tracing β} {g : α → ClassGen β} {a : α}
    (hx : x s = .ok a s') (hf : Traces s' (f a) (g a) P) :
    Traces s (liftM x >>= f) (x >>= g) P := by
  refine .bind (Q := fun _ tried => tried = []) (.lift rfl) (fun e s'' _ he _ => ?_) ?_
  · exact nomatch hx.symm.trans he
  · rintro _ _ _ ha rfl
    cases hx.symm.trans ha
    exact hf

end Traces

theorem Attempt.YieldsCode.ships {ctx : Context} {a : Attempt} {code : Code}
    (h : a.YieldsCode ctx code) :
    a.Ships ctx code.finish :=
  ⟨code, h, rfl, rfl, Nat.min_eq_left h.stack, Nat.min_eq_left h.locals⟩

namespace ClassGen

variable {ctx : Context} {b : Stmt} {subroutines : Bool} {s s' : ClassState}

theorem yields_wide {code : Code} (h : attempt ctx b true subroutines s = .ok (some code) s')
    (hlimits : code.exceeded.isEmpty = true) :
    Attempt.YieldsCode ctx ⟨b, true, subroutines, s⟩ code :=
  have hwithin := Code.within_of_exceeded hlimits
  ⟨⟨s', h⟩, .inl rfl, hwithin.1, hwithin.2.1, hwithin.2.2⟩

theorem yields_narrow (hr : ctx.resolver.IsPlain) {code : Code}
    (h : attempt ctx b false subroutines s = .ok (some code) s')
    (hlimits : code.exceeded.isEmpty = true) (hn : code.needsWide = false) :
    Attempt.YieldsCode ctx ⟨b, false, subroutines, s⟩ code :=
  have hwithin := Code.within_of_exceeded hlimits
  ⟨⟨s', h⟩, .inr fun _ _ => near_of_attempt hr h hn, hwithin.1, hwithin.2.1, hwithin.2.2⟩

/-- The wide attempt after a narrow one. -/
theorem traces_wideBody (hr : ctx.resolver.IsPlain) (s₀ : ClassState) :
    Traces s (wideBody (Tracing.attempt ctx) ctx b subroutines)
      (wideBody (attempt ctx) ctx b subroutines)
      fun res tried => AttemptsEnd (some b) (Attempt.YieldsCode ctx) res
        (⟨b, false, false, s₀⟩ :: tried) := by
  refine (Traces.attempt ctx b true subroutines s).bind ?_ ?_
  · rintro e s' _ he rfl
    exact .of_error .twice (attempt_eq_error hr he)
  rintro a s' _ ha rfl
  cases a with
  | none => exact nomatch attempt_eq_none hr ha
  | some code =>
      refine .lift ?_
      obtain ⟨s'', hlimits⟩ := withinLimits_eq ctx code s'
      rw [hlimits]
      split
      · rename_i hwithin
        exact .of_some [_] .twice (yields_wide ha hwithin)
      · exact .of_none .twice

theorem traces_body (hr : ctx.resolver.IsPlain) :
    Traces s (body (Tracing.attempt ctx) ctx b) (body (attempt ctx) ctx b)
      (AttemptsEnd (some b) (Attempt.YieldsCode ctx)) := by
  refine (Traces.attempt ctx b false false s).bind ?_ ?_
  · rintro e s' _ he rfl
    exact .of_error .once (attempt_eq_error hr he)
  rintro a s' _ ha rfl
  cases a with
  | none => exact traces_wideBody hr s
  | some code =>
      obtain ⟨s'', hlimits⟩ := withinLimits_eq ctx code s'
      refine .lift_bind hlimits ?_
      cases hwithin : code.exceeded.isEmpty with
      | false => exact .pure (AttemptsEnd.of_none .once)
      | true =>
          show Traces s'' (if code.needsWide then _ else _) (if code.needsWide then _ else _) _
          cases hn : code.needsWide with
          | true => exact traces_wideBody hr s
          | false => exact .pure (.of_some [] .once (yields_narrow hr ha hwithin hn))

theorem traces_method (ctx : Context) (hr : ctx.resolver.IsPlain) (s : ClassState) :
    Traces s (Tracing.method ctx) (method ctx)
      (AttemptsEnd ctx.method.body (Attempt.Ships ctx)) := by
  obtain ⟨s₁, hparams⟩ := forM_reporting ctx.method.ty.params
    (fun t r => r.checkDimensions ctx.method.span t) s
  refine .lift_bind (a := s) rfl (.lift_bind hparams (.lift_bind (a := ⟨⟩) rfl ?_))
  dsimp only
  split
  · exact .lift_bind (a := ⟨⟩) rfl (.pure (.of_none .never))
  cases ctx.method.body with
  | none => exact .pure (.of_none .never)
  | some b =>
      refine (traces_body hr).bind (fun e s' tried _ h => .of_error h.retried (h.error e s' rfl)) ?_
      intro code s' tried _ h
      cases code with
      | none => exact .pure (.of_none (by rw [List.append_nil]; exact h.retried))
      | some code =>
          obtain ⟨ahead, last, rfl, hyields⟩ := h.last code s' rfl
          refine .lift_bind (a := s') rfl (.pure ?_)
          rw [List.append_nil]
          split
          · exact .of_none h.retried
          · exact .of_some ahead h.retried hyields.ships

/-! ### Classes -/

theorem mapM_eq_ok {γ δ : Type} {xs : List γ} {f : γ → ClassGen δ} {bs : List δ}
    (h : xs.mapM f s = .ok bs s') : ∀ b ∈ bs, ∃ a ∈ xs, ∃ s s', f a s = .ok b s' := by
  induction xs generalizing s bs with
  | nil =>
      rw [List.mapM_nil] at h
      cases h
      exact fun _ hb => absurd hb List.not_mem_nil
  | cons a xs ih =>
      rw [List.mapM_cons] at h
      obtain ⟨b, s₁, hfirst, h⟩ := EStateM.bind_eq_ok.mp h
      obtain ⟨rest, s₂, hrest, h⟩ := EStateM.bind_eq_ok.mp h
      cases h
      intro b' hb'
      rcases List.mem_cons.mp hb' with rfl | hb'
      · exact ⟨a, List.mem_cons_self .., s, s₁, hfirst⟩
      · obtain ⟨a', ha', hrun⟩ := ih hrest b' hb'
        exact ⟨a', List.mem_cons_of_mem a ha', hrun⟩

variable {config : Config} {resolver : Resolver} {c : ClassDecl}

/-- The code in the output of a class is that of its methods. -/
theorem classOutput_eq_ok {out : ClassOutput} (h : classOutput config resolver c s = .ok out s')
    {mo : MethodOutput} (hmo : mo ∈ out.methods) {attr : CodeAttr} (hattr : mo.code = some attr) :
    ∃ m ∈ c.completeMethods, mo = ⟨m.name, m.ty.descriptor, m.flags, some attr⟩ ∧
      ∃ s s', method ⟨config, resolver, c.name, m⟩ s = .ok (some attr) s' := by
  obtain ⟨_, s₁, -, h⟩ := EStateM.bind_eq_ok.mp h
  obtain ⟨methods, s₂, hmethods, h⟩ := EStateM.bind_eq_ok.mp h
  have hmem : mo ∈ methods := by
    obtain ⟨_, s₃, hget, h⟩ := EStateM.bind_eq_ok.mp h
    cases hget
    dsimp only at h
    split at h
    · -- a pool that is too large leaves no code at all
      cases h
      obtain ⟨_, -, rfl⟩ := List.mem_map.mp hmo
      cases hattr
    · cases h
      exact hmo
  obtain ⟨m, hm, s₃, s₄, hrun⟩ := mapM_eq_ok hmethods mo hmem
  obtain ⟨code, s₅, hcode, hrun⟩ := EStateM.bind_eq_ok.mp hrun
  cases hrun
  cases hattr
  exact ⟨m, hm, rfl, s₃, s₄, hcode⟩

theorem noOverflow_method (hr : ctx.resolver.IsPlain) : NoOverflow (method ctx) := by
  intro s e s' he
  obtain ⟨_, -, h⟩ := traces_method ctx hr s []
  exact h.error e s' he

theorem noOverflow_classOutput (hr : resolver.IsPlain) :
    NoOverflow (classOutput config resolver c) := by
  have hreporting (f : Reports → Reports) : NoOverflow (reporting f) := fun _ _ _ h => nomatch h
  refine (hreporting _).bind fun _ => .bind (.mapM fun m => ?_) fun _ =>
    NoOverflow.get.bind fun _ =>
    .ite ((hreporting _).bind fun _ => NoOverflow.get.bind fun _ => .pure)
      (NoOverflow.get.bind fun _ => .pure)
  have hmethod : NoOverflow (method ⟨config, resolver, c.name, m⟩) := noOverflow_method hr
  exact hmethod.bind fun _ => .pure

end ClassGen

namespace Generator

theorem generate_eq_ok {g : Generator} {c : ClassDecl} {out : ClassOutput}
    (h : (g.generate c).1 = .ok out) :
    ∃ s, ClassGen.classOutput g.config g.resolver c g.start = .ok out s ∧
      (g.generate c).2.log = s.reports.log := by
  unfold Generator.generate at h ⊢
  split at h
  · rename_i hrun
    cases h
    exact ⟨_, hrun, rfl⟩
  · cases h

theorem generate_eq_error {g : Generator} {c : ClassDecl} {e : Error}
    (h : (g.generate c).1 = .error e) :
    ∃ s, ClassGen.classOutput g.config g.resolver c g.start = .error e s := by
  unfold Generator.generate at h
  split at h
  · cases h
  · rename_i hrun
    cases h
    exact ⟨_, hrun⟩

/-- Code that is too large for narrow jumps costs one more attempt, and nothing else. A method
is generated from its body once with narrow jumps, and at most once more, with wide ones. A
class does not fail because code was too large for its jumps. The code of each method is what
the last attempt at it made; that attempt was wide, or it settled no branch that is too long for
a narrow one. The size of the code, its stack and its registers are within the limits of the
class format, and in the output they are as they were found. -/
theorem generate_recovers (config : Config) (classes : Hierarchy)
    (log : Array Diagnostic) (appends : List (Ty × MethodSymbol)) (pool : Pool) (count : Nat)
    (c : ClassDecl) :
    let ctx (m : MethodDecl) : Context := ⟨config, classes.resolver, c.name, m⟩
    let result := (Generator.generate ⟨config, classes.resolver, log, appends, pool, count⟩ c).1
    (∀ (m : MethodDecl) (s : ClassState), ∃ tried, Retried m.body tried ∧
      Tracing.method (ctx m) (s, []) = Tracing.ended tried (ClassGen.method (ctx m) s)) ∧
    (result ≠ .error .codeSizeOverflow ∧
      ∀ name, result ≠ .error (.internal (.stillTooWide name))) ∧
    ∀ out, result = .ok out → ∀ mo ∈ out.methods, ∀ attr, mo.code = some attr →
      ∃ m ∈ c.completeMethods, mo = ⟨m.name, m.ty.descriptor, m.flags, some attr⟩ ∧
        ∃ s s' ahead last,
          Tracing.method (ctx m) (s, []) = .ok (some attr) (s', ahead ++ [last]) ∧
            last.Ships (ctx m) attr := by
  intro ctx result
  have hr : classes.resolver.IsPlain := classes.resolver_isPlain
  have herror (e : Error) (he : result = .error e) : e.isOverflow = false := by
    obtain ⟨s, hrun⟩ := Generator.generate_eq_error he
    exact ClassGen.noOverflow_classOutput hr _ _ _ hrun
  refine ⟨fun m s => ?_, ⟨fun he => ?_, fun name he => ?_⟩, fun out hout mo hmo attr hattr => ?_⟩
  · obtain ⟨tried, hsame, h⟩ := ClassGen.traces_method (ctx m) hr s []
    exact ⟨tried, h.retried, hsame⟩
  · cases herror _ he
  · cases herror _ he
  · obtain ⟨_, hrun, -⟩ := Generator.generate_eq_ok hout
    obtain ⟨m, hm, hmo, s, s', hmethod⟩ := ClassGen.classOutput_eq_ok hrun hmo hattr
    obtain ⟨tried, hsame, h⟩ := ClassGen.traces_method (ctx m) hr s []
    obtain ⟨ahead, last, rfl, hships⟩ := h.last attr s' hmethod
    refine ⟨m, hm, hmo, s, s', ahead, last, ?_, hships⟩
    rw [hsame, hmethod]
    rfl

end Generator

end StackCode
