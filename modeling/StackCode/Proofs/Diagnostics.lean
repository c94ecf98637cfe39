import Mathlib.Data.List.Forall2
import StackCode.Proofs.Attempts

/-!
# What is reported and what is voided

Going past a limit of the class format is reported and voids the member concerned. This
module ties the two together for a class that is generated: every diagnostic that reaches
the log is counted, and a method has code exactly if it has a body, the pool of the class
fits, and nothing was reported while this method was at work
(`Generator.generate_accounts`).

Reports come from anywhere in the code of a method, and from both attempts at it. That
they only ever add up is read off `Composed`: an elementary step adds to the reports or
leaves them alone. `ClassGen.Course` then lists the methods of a class with what was
reported during each.
-/

namespace StackCode

/-! ### Reports add up -/

/-- The second reports are the first ones and `news`. -/
structure Reports.Plus (r : Reports) (news : List Diagnostic) (r' : Reports) : Prop where
  log : r'.log.toList = r.log.toList ++ news
  count : r'.count = r.count + news.length

namespace Reports

theorem Plus.refl (r : Reports) : r.Plus [] r := ⟨(List.append_nil _).symm, rfl⟩

theorem Plus.trans {r₁ r₂ r₃ : Reports} {news more : List Diagnostic} (h : r₁.Plus news r₂)
    (h' : r₂.Plus more r₃) : r₁.Plus (news ++ more) r₃ where
  log := by rw [h'.log, h.log, List.append_assoc]
  count := by rw [h'.count, h.count, List.length_append, Nat.add_assoc]

theorem plus_add (r : Reports) (span : Span) (limit : Limit) :
    r.Plus [⟨span, limit⟩] (r.add span limit) :=
  ⟨Array.toList_push, rfl⟩

/-- Nothing is taken away from the reports. -/
def Grows (r r' : Reports) : Prop := ∃ news, r.Plus news r'

theorem Grows.refl (r : Reports) : r.Grows r := ⟨[], .refl r⟩

theorem Grows.trans {r₁ r₂ r₃ : Reports} (h : r₁.Grows r₂) (h' : r₂.Grows r₃) : r₁.Grows r₃ :=
  let ⟨_, hnews⟩ := h
  let ⟨_, hmore⟩ := h'
  ⟨_, hnews.trans hmore⟩

theorem Grows.count_le {r r' : Reports} (h : r.Grows r') : r.count ≤ r'.count := by
  obtain ⟨news, hnews⟩ := h
  exact hnews.count ▸ Nat.le_add_right ..

theorem grows_add (r : Reports) (span : Span) (limit : Limit) : r.Grows (r.add span limit) :=
  ⟨_, r.plus_add span limit⟩

theorem grows_checkDimensions (r : Reports) (span : Span) (t : Ty) :
    r.Grows (r.checkDimensions span t) := by
  unfold checkDimensions
  split
  · exact r.grows_add ..
  · exact .refl r

theorem grows_checkString (r : Reports) (span : Span) (c : Option Const) :
    r.Grows (r.checkString span c) := by
  unfold checkString
  split
  · split
    · exact r.grows_add ..
    · exact .refl r
  · exact .refl r

theorem grows_checkMember (r : Reports) (m : Member) : r.Grows (r.checkMember m) := by
  cases m with
  | field f =>
      unfold checkMember
      refine .trans ?_ (grows_checkDimensions ..)
      split
      · split
        · exact grows_checkString ..
        · exact .refl r
      · exact .refl r
  | _ => exact .refl r

theorem grows_checkMembers (members : List Member) (r : Reports) :
    r.Grows (members.foldl checkMember r) := by
  induction members generalizing r with
  | nil => exact .refl r
  | cons m members ih => exact (r.grows_checkMember m).trans (ih _)

end Reports

/-- However the step ends, the reports in its state have grown. -/
def Adds {σ α : Type} (reports : σ → Reports) (x : EStateM Error σ α) : Prop :=
  ∀ s, match x s with
    | .ok _ s' => (reports s).Grows (reports s')
    | .error _ s' => (reports s).Grows (reports s')

namespace Adds

variable {σ α β : Type} {reports : σ → Reports} {x y : EStateM Error σ α}

theorem of_ok (h : Adds reports x) {s s' : σ} {a : α} (hx : x s = .ok a s') :
    (reports s).Grows (reports s') := by
  have hs := h s
  rwa [hx] at hs

theorem pure {a : α} : Adds reports (pure a : EStateM Error σ α) := fun s => .refl (reports s)

theorem throw {e : Error} : Adds reports (throw e : EStateM Error σ α) :=
  fun s => .refl (reports s)

theorem get : Adds reports (get : EStateM Error σ σ) := fun s => .refl (reports s)

theorem bind {f : α → EStateM Error σ β} (hx : Adds reports x) (hf : ∀ a, Adds reports (f a)) :
    Adds reports (x >>= f) := by
  intro s
  have hs := hx s
  show match EStateM.bind x f s with
    | .ok _ s' => (reports s).Grows (reports s')
    | .error _ s' => (reports s).Grows (reports s')
  unfold EStateM.bind
  cases hrun : x s with
  | ok a s' =>
      rw [hrun] at hs
      have hs' := hf a s'
      dsimp only at hs ⊢
      cases hrest : f a s' with
      | ok b s'' =>
          rw [hrest] at hs'
          exact hs.trans hs'
      | error e s'' =>
          rw [hrest] at hs'
          exact hs.trans hs'
  | error e s' =>
      rw [hrun] at hs
      exact hs

theorem ite {c : Prop} [Decidable c] (hx : Adds reports x) (hy : Adds reports y) :
    Adds reports (if c then x else y) := by
  split
  · exact hx
  · exact hy

theorem forM {γ : Type} {xs : List γ} {f : γ → EStateM Error σ PUnit}
    (h : ∀ a, Adds reports (f a)) : Adds reports (xs.forM f) := by
  induction xs with
  | nil => exact .pure
  | cons a xs ih => exact (h a).bind fun _ => ih

end Adds

/-! ### Methods -/

theorem Gen.adds_onCode {α : Type} (x : Emit α) : Adds MethodState.reports (Part.lift x) := by
  intro s
  unfold Part.lift
  cases x (Part.get s) with
  | ok a c => exact .refl s.reports
  | error e c => exact .refl s.reports

theorem Gen.adds_reporting {f : Reports → Reports} (h : ∀ r : Reports, r.Grows (f r)) :
    Adds MethodState.reports (Gen.reporting f) :=
  fun s => h s.reports

/-- A row that does not fit is reported where jumps are wide. -/
theorem Gen.adds_addCatch (span : Span) (row : CatchRow) :
    Adds MethodState.reports (Gen.addCatch span row) := by
  have htouch : Adds MethodState.reports (Gen.touch (·.addCatch row)) := fun s => .refl s.reports
  have hpeek : Adds MethodState.reports (Gen.peek (·.wide)) := fun s => .refl s.reports
  exact .ite .pure <| .ite htouch <| hpeek.bind fun _ =>
    .ite (adds_reporting fun r => r.grows_add span .tryRange) .throw

theorem Context.adds_appendMethod (ctx : Context) (t : Ty) :
    Adds MethodState.reports (ctx.appendMethod t) := by
  intro s
  rcases ctx.appendMethod_cases t s with ⟨m, -, hrun⟩ | ⟨m, -, hrun⟩ | ⟨e, -, -, hrun⟩ <;>
    rw [hrun] <;> exact .refl s.reports

/-- Whatever is composed of elementary steps only adds to the reports. -/
theorem Composed.adds_lift {asks : Resolver → Prop} {scopes : Bool} {σ α : Type} [Part σ]
    {x : EStateM Error σ α} (h : Composed asks scopes x) :
    Adds MethodState.reports (Part.lift x) := by
  induction h with
  | pure =>
      rw [Part.lift_pure]
      exact .pure
  | throw _ =>
      rw [Part.lift_throw]
      exact .throw
  | bind _ _ ihx ihf =>
      rw [Part.lift_bind]
      exact ihx.bind ihf
  | inspect _ _ _ => exact Gen.adds_onCode _
  | update _ => exact Gen.adds_onCode _
  | settle _ _ _ => exact Gen.adds_onCode _
  | onCode _ ih =>
      rw [Part.lift_onCode]
      exact ih
  | pooled put => exact fun s => .refl s.reports
  | onAsm _ ih =>
      rw [Part.lift_onAsm]
      exact ih
  | look _ _ ih =>
      rw [Part.lift_self]
      exact Adds.get.bind fun s => by simpa only [Part.lift_self] using ih s
  | note g _ =>
      rw [Part.lift_self]
      exact fun s => .refl s.reports
  | report span limit =>
      rw [Part.lift_self]
      exact Gen.adds_reporting fun r => r.grows_add span limit
  | checkDimensions span t =>
      rw [Part.lift_self]
      exact Gen.adds_reporting fun r => r.grows_checkDimensions span t
  | checkString span c =>
      rw [Part.lift_self]
      exact Gen.adds_reporting fun r => r.grows_checkString span c
  | @ask r _ site name args =>
      rw [Part.lift_self]
      cases r.method site name args with
      | ok m => exact .pure
      | error e => exact .throw
  | @appendMethod ctx _ t =>
      rw [Part.lift_self]
      exact ctx.adds_appendMethod t
  | onScopes _ _ =>
      rw [Part.lift_self]
      intro s
      dsimp only [Gen.onScopes]
      split <;> rename_i hrun <;> split at hrun <;> cases hrun <;> exact .refl s.reports
  | addCatch _ span row =>
      rw [Part.lift_self]
      exact Gen.adds_addCatch span row

theorem Gen.adds_methodBody (ctx : Context) (body : Stmt) :
    Adds MethodState.reports (Gen.methodBody ctx body) := by
  have h : Composed (fun _ => True) true (Gen.methodBody ctx body) :=
    Gen.composed_methodBody trivial body
  simpa only [Part.lift_self] using h.adds_lift

namespace ClassGen

variable {ctx : Context} {s s' : ClassState}

theorem adds_reporting {f : Reports → Reports} (h : ∀ r : Reports, r.Grows (f r)) :
    Adds ClassState.reports (reporting f) :=
  fun s => h s.reports

theorem adds_attempt (ctx : Context) (body : Stmt) (wide subroutines : Bool) :
    Adds ClassState.reports (attempt ctx body wide subroutines) := by
  intro s
  have hbody := Gen.adds_methodBody ctx body (firstState ctx wide subroutines s)
  rw [attempt_eq]
  cases hrun : Gen.methodBody ctx body (firstState ctx wide subroutines s) with
  | ok _ s' =>
      rw [hrun] at hbody
      exact hbody
  | error e s' =>
      rw [hrun] at hbody
      cases e <;> exact hbody

theorem adds_withinLimits (ctx : Context) (code : Code) :
    Adds ClassState.reports (withinLimits ctx code) :=
  .bind (.forM fun limit => adds_reporting fun r => r.grows_add _ limit) fun _ => .pure

theorem adds_wideBody (ctx : Context) (b : Stmt) (subroutines : Bool) :
    Adds ClassState.reports (wideBody (attempt ctx) ctx b subroutines) := by
  refine (adds_attempt ctx b true subroutines).bind fun code => ?_
  cases code with
  | none => exact .throw
  | some code => exact adds_withinLimits ctx code

theorem adds_body (ctx : Context) (b : Stmt) :
    Adds ClassState.reports (body (attempt ctx) ctx b) := by
  refine (adds_attempt ctx b false false).bind fun code => ?_
  cases code with
  | none => exact adds_wideBody ctx b _
  | some code =>
      refine (adds_withinLimits ctx code).bind fun code => ?_
      cases code with
      | none => exact .pure
      | some code => exact .ite (adds_wideBody ctx b false) .pure

/-! A body that is given up has been reported. -/

theorem reporting_each (span : Span) (limits : List Limit) (s : ClassState) :
    ∃ s', limits.forM (fun limit => reporting (·.add span limit)) s = .ok () s' ∧
      s'.reports.count = s.reports.count + limits.length := by
  induction limits generalizing s with
  | nil => exact ⟨s, rfl, rfl⟩
  | cons limit limits ih =>
      obtain ⟨s', hrun, hcount⟩ := ih { s with reports := s.reports.add span limit }
      refine ⟨s', hrun, ?_⟩
      rw [hcount, List.length_cons]
      exact Nat.add_right_comm ..

theorem withinLimits_eq_none {code : Code} (h : withinLimits ctx code s = .ok none s') :
    s.reports.count < s'.reports.count := by
  obtain ⟨s₁, hrun, hcount⟩ := reporting_each ctx.method.span code.exceeded s
  unfold withinLimits at h
  rw [EStateM.bind_of_ok hrun] at h
  cases hexceeded : code.exceeded with
  | nil =>
      rw [hexceeded] at h
      cases h
  | cons limit limits =>
      rw [hexceeded] at h hcount
      cases h
      rw [hcount, List.length_cons]
      omega

theorem wideBody_eq_none {b : Stmt} {subroutines : Bool}
    (h : wideBody (attempt ctx) ctx b subroutines s = .ok none s') :
    s.reports.count < s'.reports.count := by
  obtain ⟨code, s₁, hattempt, h⟩ := EStateM.bind_eq_ok.mp h
  have hfirst := ((adds_attempt ctx b true subroutines).of_ok hattempt).count_le
  cases code with
  | none => cases h
  | some code => exact Nat.lt_of_le_of_lt hfirst (withinLimits_eq_none h)

theorem body_eq_none {b : Stmt} (h : body (attempt ctx) ctx b s = .ok none s') :
    s.reports.count < s'.reports.count := by
  obtain ⟨code, s₁, hattempt, h⟩ := EStateM.bind_eq_ok.mp h
  have hfirst := ((adds_attempt ctx b false false).of_ok hattempt).count_le
  cases code with
  | none => exact Nat.lt_of_le_of_lt hfirst (wideBody_eq_none h)
  | some code =>
      obtain ⟨code, s₂, hlimits, h⟩ := EStateM.bind_eq_ok.mp h
      cases code with
      | none =>
          cases h
          exact Nat.lt_of_le_of_lt hfirst (withinLimits_eq_none hlimits)
      | some code =>
          have hsecond := ((adds_withinLimits ctx _).of_ok hlimits).count_le
          dsimp only at h
          split at h
          · exact Nat.lt_of_le_of_lt (Nat.le_trans hfirst hsecond) (wideBody_eq_none h)
          · cases h

/-- A method has code if it has a body and nothing is reported while it is generated, and
only then. -/
theorem method_accounts {code : Option CodeAttr} (h : method ctx s = .ok code s') :
    ∃ news, s.reports.Plus news s'.reports ∧
      (code.isSome ↔ ctx.method.body.isSome ∧ news = []) := by
  -- a report leaves no code, so it is enough to find one wherever there is a body but no code
  have hvoid {news : List Diagnostic} (hlt : s.reports.count < s'.reports.count)
      (hnews : s.reports.Plus news s'.reports) : news ≠ [] := by
    rintro rfl
    exact absurd hnews.count (Nat.ne_of_gt hlt)
  obtain ⟨_, _, hget, h⟩ := EStateM.bind_eq_ok.mp h
  cases hget
  obtain ⟨_, s₁, hparams, h⟩ := EStateM.bind_eq_ok.mp h
  obtain ⟨_, s₂, hret, h⟩ := EStateM.bind_eq_ok.mp h
  have hchecked : s.reports.Grows s₂.reports :=
    ((Adds.forM fun t => adds_reporting fun r => r.grows_checkDimensions _ t).of_ok hparams).trans
      ((adds_reporting fun r => r.grows_checkDimensions _ _).of_ok hret)
  split at h
  · cases h
    obtain ⟨news, hnews⟩ := hchecked.trans (s₂.reports.grows_add ctx.method.span .parameters)
    refine ⟨news, hnews, iff_of_false Bool.false_ne_true fun ⟨_, hnil⟩ => hvoid ?_ hnews hnil⟩
    exact Nat.lt_succ_of_le hchecked.count_le
  · cases hbody : ctx.method.body with
    | none =>
        rw [hbody] at h
        cases h
        obtain ⟨news, hnews⟩ := hchecked
        exact ⟨news, hnews, iff_of_false Bool.false_ne_true fun ⟨hsome, _⟩ => nomatch hsome⟩
    | some b =>
        rw [hbody] at h
        obtain ⟨found, s₃, hrun, h⟩ := EStateM.bind_eq_ok.mp h
        obtain ⟨news, hnews⟩ := hchecked.trans ((adds_body ctx b).of_ok hrun)
        cases found with
        | none =>
            cases h
            refine ⟨news, hnews, iff_of_false Bool.false_ne_true fun ⟨_, hnil⟩ =>
              hvoid ?_ hnews hnil⟩
            exact Nat.lt_of_le_of_lt hchecked.count_le (body_eq_none hrun)
        | some code =>
            obtain ⟨_, _, hget, h⟩ := EStateM.bind_eq_ok.mp h
            cases hget
            cases h
            refine ⟨news, hnews, ?_⟩
            split
            · rename_i hlt
              exact iff_of_false Bool.false_ne_true fun ⟨_, hnil⟩ => hvoid hlt hnews hnil
            · rename_i hle
              refine iff_of_true rfl ⟨rfl, List.eq_nil_of_length_eq_zero ?_⟩
              have := hnews.count
              omega

/-! ### Classes -/

/-- A method with its output and what was reported while it was generated. -/
structure Chapter where
  decl : MethodDecl
  output : MethodOutput
  reported : List Diagnostic

/-- The output is that of the method, and has code if there is a body and nothing was
reported, and only then. -/
structure Chapter.Consistent (ch : Chapter) : Prop where
  name : ch.output.name = ch.decl.name
  descriptor : ch.output.descriptor = ch.decl.ty.descriptor
  code : ch.output.code.isSome ↔ ch.decl.body.isSome ∧ ch.reported = []

/-- The methods of a class are generated one after the other, each from the state that the
one before it leaves. What is reported meanwhile is what it adds to the log. -/
inductive Course (config : Config) (resolver : Resolver) (cls : String) :
    ClassState → List Chapter → ClassState → Prop
  | nil {s : ClassState} : Course config resolver cls s [] s
  | cons {s s₁ s₂ : ClassState} {ch : Chapter} {rest : List Chapter}
      (first : methodOutput config resolver cls ch.decl s = .ok ch.output s₁)
      (log : s₁.reports.log.toList = s.reports.log.toList ++ ch.reported)
      (later : Course config resolver cls s₁ rest s₂) :
      Course config resolver cls s (ch :: rest) s₂

variable {config : Config} {resolver : Resolver} {cls : String}

theorem methodOutput_accounts {m : MethodDecl} {out : MethodOutput}
    (h : methodOutput config resolver cls m s = .ok out s') :
    ∃ news, s.reports.Plus news s'.reports ∧ Chapter.Consistent ⟨m, out, news⟩ := by
  obtain ⟨code, s₁, hrun, h⟩ := EStateM.bind_eq_ok.mp h
  cases h
  obtain ⟨news, hnews, hiff⟩ := method_accounts hrun
  exact ⟨news, hnews, rfl, rfl, hiff⟩

theorem exists_course {ms : List MethodDecl} {outs : List MethodOutput}
    (h : ms.mapM (methodOutput config resolver cls) s = .ok outs s') :
    ∃ course, Course config resolver cls s course s' ∧ course.map Chapter.decl = ms ∧
      course.map Chapter.output = outs := by
  induction ms generalizing s outs with
  | nil =>
      rw [List.mapM_nil] at h
      cases h
      exact ⟨[], .nil, rfl, rfl⟩
  | cons m ms ih =>
      rw [List.mapM_cons] at h
      obtain ⟨out, s₁, hfirst, h⟩ := EStateM.bind_eq_ok.mp h
      obtain ⟨outs, s₂, hrest, h⟩ := EStateM.bind_eq_ok.mp h
      cases h
      obtain ⟨course, hcourse, rfl, rfl⟩ := ih hrest
      obtain ⟨news, hnews, -⟩ := methodOutput_accounts hfirst
      exact ⟨⟨m, out, news⟩ :: course, .cons hfirst hnews.log hcourse, rfl, rfl⟩

namespace Course

variable {course : List Chapter}

/-- What the log says was added is what `method_accounts` found. -/
theorem first_accounts {ch : Chapter} {s₁ : ClassState}
    (first : methodOutput config resolver cls ch.decl s = .ok ch.output s₁)
    (log : s₁.reports.log.toList = s.reports.log.toList ++ ch.reported) :
    s.reports.Plus ch.reported s₁.reports ∧ ch.Consistent := by
  obtain ⟨news, hnews, hch⟩ := methodOutput_accounts first
  obtain rfl : news = ch.reported := List.append_cancel_left (hnews.log.symm.trans log)
  exact ⟨hnews, hch⟩

theorem plus (h : Course config resolver cls s course s') :
    s.reports.Plus (course.flatMap Chapter.reported) s'.reports := by
  induction h with
  | nil => exact .refl _
  | cons first log _ ih => exact (first_accounts first log).1.trans ih

theorem consistent (h : Course config resolver cls s course s') :
    ∀ ch ∈ course, ch.Consistent := by
  induction h with
  | nil => exact fun _ hch => absurd hch List.not_mem_nil
  | cons first log _ ih =>
      intro ch hch
      rcases List.mem_cons.mp hch with rfl | hch
      · exact (first_accounts first log).2
      · exact ih ch hch

end Course

/-- The output of a class read as a course of its methods. -/
theorem classOutput_course {c : ClassDecl} {out : ClassOutput}
    (h : classOutput config resolver c s = .ok out s') :
    ∃ course s₁, Course config resolver c.name
        { s with reports := c.members.foldl Reports.checkMember s.reports } course s₁ ∧
      course.map Chapter.decl = c.completeMethods ∧ out.pool = s₁.pool ∧
      out.methods = course.map (fun ch => { ch.output with
        code := if Limit.max16 < out.pool.size then none else ch.output.code }) ∧
      s'.reports = (if Limit.max16 < out.pool.size then s₁.reports.add c.span .pool
        else s₁.reports) ∧ out.errors = s'.reports.count := by
  obtain ⟨_, s₀, hfields, h⟩ := EStateM.bind_eq_ok.mp h
  cases hfields
  obtain ⟨methods, s₁, hmethods, h⟩ := EStateM.bind_eq_ok.mp h
  obtain ⟨course, hcourse, hdecls, rfl⟩ := exists_course hmethods
  refine ⟨course, s₁, hcourse, hdecls, ?_⟩
  obtain ⟨_, _, hget, h⟩ := EStateM.bind_eq_ok.mp h
  cases hget
  dsimp only at h
  split at h
  · rename_i hlarge
    cases h
    refine ⟨rfl, ?_, (if_pos hlarge).symm, rfl⟩
    rw [List.map_map]
    exact List.map_congr_left fun ch _ => by rw [if_pos hlarge]; rfl
  · rename_i hfits
    cases h
    refine ⟨rfl, List.map_congr_left fun ch _ => by rw [if_neg hfits], (if_neg hfits).symm, rfl⟩

end ClassGen

/-- Where a class is generated, its fields are checked first; then come its methods, and last
the pool. -/
theorem Generator.generate_course {g : Generator} {c : ClassDecl} {out : ClassOutput}
    (h : (g.generate c).1 = .ok out) :
    ∃ course stop, ClassGen.Course g.config g.resolver c.name
        { reports := c.members.foldl Reports.checkMember { log := g.log }, appends := g.appends }
        course stop ∧
      course.map ClassGen.Chapter.decl = c.completeMethods ∧
      out.methods = course.map (fun ch => { ch.output with
        code := if Limit.max16 < out.pool.size then none else ch.output.code }) ∧
      ∃ reports, reports = (if Limit.max16 < out.pool.size then stop.reports.add c.span .pool
          else stop.reports) ∧
        (g.generate c).2.log = reports.log ∧ out.errors = reports.count := by
  obtain ⟨s, hrun, hlog⟩ := Generator.generate_eq_ok h
  rw [g.start_eq] at hrun
  obtain ⟨course, stop, hcourse, hdecls, -, hmethods, hreports, herrors⟩ :=
    ClassGen.classOutput_course hrun
  exact ⟨course, stop, hcourse, hdecls, hmethods, s.reports, hreports, hlog, herrors⟩

/-- A class that is generated accounts for its diagnostics. Its methods are generated in
order, after the fields have been checked. The diagnostics that reach the log are those for
the fields, those reported during each method, and one for the pool if it is too large, and
the number of errors is the number of all these. A method has code exactly if it has a body,
the pool fits, and nothing was reported during this method, whatever was reported for the
fields and for other methods. -/
theorem Generator.generate_accounts (g : Generator) (c : ClassDecl) {out : ClassOutput}
    (h : (g.generate c).1 = .ok out) :
    ∃ (fields : List Diagnostic) (course : List ClassGen.Chapter) (start stop : ClassState),
      start = { reports := c.members.foldl Reports.checkMember { log := g.log },
                appends := g.appends } ∧
      start.reports.log.toList = g.log.toList ++ fields ∧
      ClassGen.Course g.config g.resolver c.name start course stop ∧
      course.map ClassGen.Chapter.decl = c.completeMethods ∧
      ∃ reported, reported = fields ++ course.flatMap ClassGen.Chapter.reported ++
          (if Limit.max16 < out.pool.size then [⟨c.span, .pool⟩] else []) ∧
        (g.generate c).2.log.toList = g.log.toList ++ reported ∧
        out.errors = reported.length ∧
        List.Forall₂ (fun ch mo => mo.name = ch.decl.name ∧
          mo.descriptor = ch.decl.ty.descriptor ∧
          (mo.code.isSome ↔
            ch.decl.body.isSome ∧ out.pool.size ≤ Limit.max16 ∧ ch.reported = []))
          course out.methods := by
  obtain ⟨course, stop, hcourse, hdecls, hmethods, _, rfl, hlog, herrors⟩ := generate_course h
  obtain ⟨fields, hfields⟩ := Reports.grows_checkMembers c.members { log := g.log }
  have hall := hfields.trans hcourse.plus
  refine ⟨fields, course, _, stop, rfl, hfields.log, hcourse, hdecls, _, rfl, ?_⟩
  have hlast : Reports.Plus { log := g.log } (fields ++ course.flatMap ClassGen.Chapter.reported ++
      (if Limit.max16 < out.pool.size then [⟨c.span, .pool⟩] else []))
      (if Limit.max16 < out.pool.size then stop.reports.add c.span .pool else stop.reports) := by
    split
    · exact hall.trans (stop.reports.plus_add c.span .pool)
    · exact hall.trans (.refl _)
  refine ⟨hlog ▸ hlast.log, herrors.trans (hlast.count.trans (Nat.zero_add _)), ?_⟩
  rw [hmethods, List.forall₂_map_right_iff, List.forall₂_same]
  intro ch hch
  have hown := hcourse.consistent ch hch
  refine ⟨hown.name, hown.descriptor, ?_⟩
  dsimp only
  split
  · rename_i hlarge
    exact iff_of_false Bool.false_ne_true fun ⟨_, hfits, _⟩ => Nat.not_le_of_gt hlarge hfits
  · rename_i hfits
    rw [hown.code]
    exact and_congr_right fun _ => (and_iff_right (Nat.le_of_not_gt hfits)).symm

/-- A class with a method that does nothing, and another one that does nothing but has a
parameter with too many array levels. -/
def ClassDecl.oneTooDeep : ClassDecl :=
  let deep := Nat.repeat Ty.array (Limit.maxDimensions + 1) .int
  let method (name : String) (params : List Ty) : Member :=
    .method ⟨default, name, Access.staticBit, ⟨params, .void⟩, [], some (.block ⟨1, default⟩ [])⟩
  ⟨default, "C", 0, [method "deep" [deep], method "plain" []]⟩

set_option maxRecDepth 10000 in
theorem Generator.generate_oneTooDeep_accounts :
    ∃ out, (Generator.generate ⟨{}, Hierarchy.resolver {}, #[], [], {}, 0⟩
        ClassDecl.oneTooDeep).1 = .ok out ∧
      out.methods.map (fun mo => mo.code.isSome) = [false, true] ∧
      ∃ course start stop, ClassGen.Course {} (Hierarchy.resolver {}) "C" start course stop ∧
        List.Forall₂ (fun ch (mo : MethodOutput) => (mo.code.isSome ↔
          ch.decl.body.isSome ∧ out.pool.size ≤ Limit.max16 ∧ ch.reported = []))
          course out.methods := by
  refine ⟨_, rfl, rfl, ?_⟩
  obtain ⟨_, course, start, stop, -, -, hcourse, -, _, -, -, -, hall⟩ :=
    Generator.generate_accounts ⟨{}, Hierarchy.resolver {}, #[], [], {}, 0⟩ ClassDecl.oneTooDeep rfl
  exact ⟨course, start, stop, hcourse, hall.imp fun _ _ h => h.2.2⟩

end StackCode
