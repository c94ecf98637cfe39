import StackCode.Generate.Class
import StackCode.Proofs.ComposedStatements

/-!
# A generator that was used before

A generator keeps its pool, its count of reports, the log of all reports and the append
methods found so far. None of them has any influence on later classes: a generator that has
been through other classes, failures among them, makes of a class what a new one makes of
it, and reports the same about it (`Generator.generate_after`).

The pool and the count are reset before every class, so that runs start with states that
differ in the log and the append methods alone (`Generator.start_eq`). The proof compares
two runs from such states. `Matches R x` says
that the step `x` ends the same way from any two states related by `R` and leaves related
ones. Elementary steps do, since the append methods on record are those that the resolver
would find again, and whatever is built from them does.
-/

namespace StackCode

/-! ### Two runs of one step -/

/-- Two outcomes with the same answer or failure and with related states. -/
inductive Ends {σ α : Type} (R : σ → σ → Prop) :
    EStateM.Result Error σ α → EStateM.Result Error σ α → Prop
  | ok (a : α) {s t : σ} (h : R s t) : Ends R (.ok a s) (.ok a t)
  | error (e : Error) {s t : σ} (h : R s t) : Ends R (.error e s) (.error e t)

/-- From related states the step ends the same way. -/
def Matches {σ α : Type} (R : σ → σ → Prop) (x : EStateM Error σ α) : Prop :=
  ∀ s t, R s t → Ends R (x s) (x t)

namespace Matches

variable {σ α β : Type} {R : σ → σ → Prop} {x y : EStateM Error σ α} {f : α → EStateM Error σ β}

theorem pure {a : α} : Matches R (pure a : EStateM Error σ α) := fun _ _ h => .ok a h

theorem throw {e : Error} : Matches R (throw e : EStateM Error σ α) := fun _ _ h => .error e h

theorem bind (hx : Matches R x) (hf : ∀ a, Matches R (f a)) : Matches R (x >>= f) := by
  intro s t h
  have hends := hx s t h
  show Ends R (EStateM.bind x f s) (EStateM.bind x f t)
  unfold EStateM.bind
  generalize x s = rs, x t = rt at hends
  cases hends with
  | ok a h' => exact hf a _ _ h'
  | error e h' => exact .error e h'

theorem ite {c : Prop} [Decidable c] (hx : Matches R x) (hy : Matches R y) :
    Matches R (if c then x else y) := by
  split
  · exact hx
  · exact hy

/-- A step that looks only at what related states share. -/
theorem look {f : σ → EStateM Error σ β} (hsame : ∀ s t, R s t → f t = f s)
    (hf : ∀ s, Matches R (f s)) : Matches R (get >>= f) := by
  intro s t h
  show Ends R (f s s) (f t t)
  rw [hsame s t h]
  exact hf s s t h

theorem forM {γ : Type} {xs : List γ} {f : γ → EStateM Error σ PUnit} (h : ∀ a, Matches R (f a)) :
    Matches R (xs.forM f) := by
  induction xs with
  | nil => exact .pure
  | cons a xs ih => exact (h a).bind fun _ => ih

theorem mapM {γ : Type} {xs : List γ} {f : γ → EStateM Error σ α} (h : ∀ a, Matches R (f a)) :
    Matches R (xs.mapM f) := by
  induction xs with
  | nil =>
      rw [List.mapM_nil]
      exact .pure
  | cons a xs ih =>
      rw [List.mapM_cons]
      exact (h a).bind fun _ => ih.bind fun _ => .pure

end Matches

/-! ### What lasts -/

/-- Every append method on record is the one that the resolver finds. -/
def Resolver.Recalls (r : Resolver) (appends : List (Ty × MethodSymbol)) : Prop :=
  ∀ t m, appends.lookup t = some m → r.method .builder "append" [t] = .ok m

theorem Resolver.recalls_nil (r : Resolver) : r.Recalls [] := fun _ _ h => nomatch h

theorem Resolver.Recalls.cons {r : Resolver} {appends : List (Ty × MethodSymbol)} {t : Ty}
    {m : MethodSymbol} (h : r.Recalls appends) (hm : r.method .builder "append" [t] = .ok m) :
    r.Recalls ((t, m) :: appends) := by
  intro t' m' hlook
  rw [List.lookup_cons] at hlook
  split at hlook
  · rename_i heq
    cases hlook
    rw [eq_of_beq heq]
    exact hm
  · exact h t' m' hlook

/-- The second reports are the first ones with `old` ahead of them. -/
structure Reports.Behind (old : Array Diagnostic) (a b : Reports) : Prop where
  count : b.count = a.count
  log : b.log = old ++ a.log

/-- A change of reports that depends on nothing reported for earlier classes. -/
def Reports.Steady (f : Reports → Reports) : Prop :=
  ∀ old a b, Reports.Behind old a b → Reports.Behind old (f a) (f b)

namespace Reports.Steady

theorem comp {f g : Reports → Reports} (hf : Steady f) (hg : Steady g) : Steady fun r => f (g r) :=
  fun old a b h => hf old _ _ (hg old a b h)

theorem id : Steady fun r => r := fun _ _ _ h => h

theorem ite {f g : Reports → Reports} (c : Prop) [Decidable c] (hf : Steady f) (hg : Steady g) :
    Steady fun r => if c then f r else g r := by
  intro old a b h
  dsimp only
  split
  · exact hf old a b h
  · exact hg old a b h

theorem add (span : Span) (limit : Limit) : Steady (·.add span limit) := by
  intro old a b h
  refine ⟨congrArg (· + 1) h.count, ?_⟩
  show b.log.push ⟨span, limit⟩ = old ++ a.log.push ⟨span, limit⟩
  rw [h.log, Array.append_push]

theorem checkDimensions (span : Span) (t : Ty) : Steady (·.checkDimensions span t) :=
  ite _ (add span .dimensions) id

theorem checkString (span : Span) (c : Option Const) : Steady (·.checkString span c) := by
  intro old a b h
  dsimp only
  unfold Reports.checkString
  split
  · -- the check looks at the count, which the two share
    rw [h.count]
    split
    · exact add span .string old a b h
    · exact h
  · exact h

theorem checkMember (m : Member) : Steady (·.checkMember m) := by
  cases m with
  | field f =>
      intro old a b h
      unfold Reports.checkMember
      refine checkDimensions f.span f.sym.ty old _ _ ?_
      split
      · exact ite _ (checkString _ _) id old a b h
      · exact h
  | _ => exact id

theorem foldl {γ : Type} {f : Reports → γ → Reports} (h : ∀ c, Steady (f · c)) (cs : List γ) :
    Steady fun r => cs.foldl f r := by
  induction cs with
  | nil => exact id
  | cons c cs ih => exact ih.comp (h c)

end Reports.Steady

/-- What two generators remember that differ in what came before: `old` are the reports
that only the second has seen. -/
structure Follows (r : Resolver) (old : Array Diagnostic) (a b : Reports)
    (found found' : List (Ty × MethodSymbol)) : Prop where
  reports : Reports.Behind old a b
  recalls : r.Recalls found
  recalls' : r.Recalls found'

/-- Within a method, two states that differ in nothing else. -/
inductive MethodState.Behind (r : Resolver) (old : Array Diagnostic) :
    MethodState → MethodState → Prop
  | intro {asm : Assembly} {scopes : Scopes} {locals : Std.TreeMap VarId UInt16}
      {subroutines : Bool} {letDepth : Nat} {a b : Reports}
      {found found' : List (Ty × MethodSymbol)} (h : Follows r old a b found found') :
      Behind r old ⟨asm, scopes, locals, subroutines, letDepth, a, found⟩
        ⟨asm, scopes, locals, subroutines, letDepth, b, found'⟩

/-- Within a class, two states that differ in nothing else. -/
inductive ClassState.Behind (r : Resolver) (old : Array Diagnostic) : ClassState → ClassState → Prop
  | intro {pool : Pool} {a b : Reports} {found found' : List (Ty × MethodSymbol)}
      (h : Follows r old a b found found') : Behind r old ⟨pool, a, found⟩ ⟨pool, b, found'⟩

/-! ### Methods -/

section

variable {r : Resolver} {old : Array Diagnostic}

theorem Gen.matches_reporting {f : Reports → Reports} (hf : Reports.Steady f) :
    Matches (MethodState.Behind r old) (Gen.reporting f) := by
  rintro _ _ ⟨h⟩
  exact .ok () ⟨{ h with reports := hf old _ _ h.reports }⟩

theorem Gen.matches_onCode {α : Type} {x : Emit α} :
    Matches (MethodState.Behind r old) (Part.lift x) := by
  rintro _ _ ⟨h⟩
  unfold Part.lift
  dsimp only [Part.get]
  split
  · exact .ok _ ⟨h⟩
  · exact .error _ ⟨h⟩

theorem Gen.matches_addCatch (span : Span) (row : CatchRow) :
    Matches (MethodState.Behind r old) (Gen.addCatch span row) := by
  have htouch : Matches (MethodState.Behind r old) (Gen.touch (·.addCatch row)) := by
    rintro _ _ ⟨h⟩
    exact .ok () ⟨h⟩
  have hpeek : Matches (MethodState.Behind r old) (Gen.peek (·.wide)) := by
    rintro _ _ ⟨h⟩
    exact .ok _ ⟨h⟩
  exact .ite .pure <| .ite htouch <| hpeek.bind fun _ =>
    .ite (matches_reporting (.add span .tryRange)) .throw

/-- The answer is that of the resolver, whatever is on record. -/
theorem Context.appendMethod_of_ok (ctx : Context) {t : Ty} {m : MethodSymbol}
    (hm : ctx.resolver.method .builder "append" [t] = .ok m) {s : MethodState}
    (hs : ctx.resolver.Recalls s.appends) : ∃ found, ctx.resolver.Recalls found ∧
      ctx.appendMethod t s = .ok m { s with appends := found } := by
  rcases ctx.appendMethod_cases t s with ⟨m', hlook, hrun⟩ | ⟨m', hm', hrun⟩ | ⟨e, -, he, -⟩
  · cases hm.symm.trans (hs t m' hlook)
    exact ⟨s.appends, hs, hrun⟩
  · cases hm.symm.trans hm'
    exact ⟨_, hs.cons hm, hrun⟩
  · cases hm.symm.trans he

theorem Context.appendMethod_of_error (ctx : Context) {t : Ty} {e : Error}
    (he : ctx.resolver.method .builder "append" [t] = .error e) {s : MethodState}
    (hs : ctx.resolver.Recalls s.appends) : ctx.appendMethod t s = .error e s := by
  rcases ctx.appendMethod_cases t s with ⟨m, hlook, -⟩ | ⟨m, hm, -⟩ | ⟨e', -, he', hrun⟩
  · cases he.symm.trans (hs t m hlook)
  · cases he.symm.trans hm
  · cases he.symm.trans he'
    exact hrun

theorem Context.matches_appendMethod {ctx : Context} (hr : some r = some ctx.resolver) (t : Ty) :
    Matches (MethodState.Behind r old) (ctx.appendMethod t) := by
  cases hr
  rintro _ _ ⟨h⟩
  rename_i asm scopes locals subroutines letDepth a b found found'
  cases hm : ctx.resolver.method .builder "append" [t] with
  | ok m =>
      obtain ⟨_, hfound, hs⟩ := ctx.appendMethod_of_ok hm
        (s := ⟨asm, scopes, locals, subroutines, letDepth, a, found⟩) h.recalls
      obtain ⟨_, hfound', ht⟩ := ctx.appendMethod_of_ok hm
        (s := ⟨asm, scopes, locals, subroutines, letDepth, b, found'⟩) h.recalls'
      rw [hs, ht]
      exact .ok m ⟨⟨h.reports, hfound, hfound'⟩⟩
  | error e =>
      rw [ctx.appendMethod_of_error hm h.recalls, ctx.appendMethod_of_error hm h.recalls']
      exact .error e ⟨h⟩

/-- Whatever asks only the resolver at hand goes the same way in both runs. -/
theorem Built.matches_lift {scopes : Bool} {σ α : Type} [Part σ] {x : EStateM Error σ α}
    (h : Built (some r) scopes x) : Matches (MethodState.Behind r old) (Part.lift x) := by
  induction h with
  | pure =>
      rw [Part.lift_pure]
      exact .pure
  | throw _ =>
      rw [Part.lift_throw]
      exact .throw
  | bind _ _ ihx ihf =>
      rw [Part.lift_bind]
      exact ihx.bind ihf
  | code => exact Gen.matches_onCode
  | update _ => exact Gen.matches_onCode
  | settle _ _ _ => exact Gen.matches_onCode
  | onCode _ ih =>
      rw [Part.lift_onCode]
      exact ih
  | pooled put =>
      rintro _ _ ⟨h⟩
      exact .ok _ ⟨h⟩
  | onAsm _ ih =>
      rw [Part.lift_onAsm]
      exact ih
  | look ignores _ ih =>
      rw [Part.lift_self]
      refine .look ?_ fun s => by simpa only [Part.lift_self] using ih s
      rintro _ _ ⟨_⟩
      exact ignores ⟨_, _, _, _, _, _, _⟩ _ _
  | note g ignores =>
      rw [Part.lift_self]
      rintro _ _ ⟨h⟩
      rename_i asm scopes locals subroutines letDepth a b found found'
      have hsame := ignores ⟨asm, scopes, locals, subroutines, letDepth, a, found⟩ b found'
      show Ends _ (.ok () _) (.ok () _)
      dsimp only at hsame ⊢
      rw [hsame]
      exact .ok () ⟨h⟩
  | report span limit =>
      rw [Part.lift_self]
      exact Gen.matches_reporting (.add span limit)
  | checkDimensions span t =>
      rw [Part.lift_self]
      exact Gen.matches_reporting (.checkDimensions span t)
  | checkString span c =>
      rw [Part.lift_self]
      exact Gen.matches_reporting (.checkString span c)
  | appendMethod h t =>
      rw [Part.lift_self]
      exact Context.matches_appendMethod h.same t
  | onScopes _ _ =>
      rw [Part.lift_self]
      rintro _ _ ⟨h⟩
      dsimp only [Gen.onScopes]
      split
      · exact .ok _ ⟨h⟩
      · exact .error _ ⟨h⟩
  | addCatch _ span row =>
      rw [Part.lift_self]
      exact Gen.matches_addCatch span row

theorem Gen.matches_methodBody {ctx : Context} (hr : ctx.Asks (some r)) (body : Stmt) :
    Matches (MethodState.Behind r old) (Gen.methodBody ctx body) := by
  have h : Matches (MethodState.Behind r old) (Part.lift (Gen.methodBody ctx body)) :=
    (Gen.built_methodBody hr body).matches_lift
  rwa [Part.lift_self] at h

/-! ### Classes -/

namespace ClassGen

theorem matches_reporting {f : Reports → Reports} (hf : Reports.Steady f) :
    Matches (ClassState.Behind r old) (reporting f) := by
  rintro _ _ ⟨h⟩
  exact .ok () ⟨{ h with reports := hf old _ _ h.reports }⟩

variable {ctx : Context}

theorem matches_attempt (hr : ctx.Asks (some r)) (body : Stmt) (wide subroutines : Bool) :
    Matches (ClassState.Behind r old) (attempt ctx body wide subroutines) := by
  rintro _ _ ⟨h⟩
  rw [attempt_eq, attempt_eq]
  generalize hs : Gen.methodBody ctx body (firstState ctx wide subroutines _) = rs
  generalize ht : Gen.methodBody ctx body (firstState ctx wide subroutines _) = rt
  have hends : Ends (MethodState.Behind r old) rs rt := by
    rw [← hs, ← ht]
    exact Gen.matches_methodBody hr body _ _ ⟨h⟩
  cases hends with
  | ok _ h =>
      obtain ⟨h⟩ := h
      exact .ok _ ⟨h⟩
  | error e h =>
      obtain ⟨h⟩ := h
      cases e with
      | codeSizeOverflow => exact .ok none ⟨h⟩
      | _ => exact .error _ ⟨h⟩

theorem matches_withinLimits (code : Code) :
    Matches (ClassState.Behind r old) (withinLimits ctx code) :=
  .bind (.forM fun limit => matches_reporting (.add _ limit)) fun _ => .pure

theorem matches_wideBody (hr : ctx.Asks (some r)) (body : Stmt) (subroutines : Bool) :
    Matches (ClassState.Behind r old) (wideBody (attempt ctx) ctx body subroutines) := by
  refine (matches_attempt hr body true subroutines).bind fun code => ?_
  cases code with
  | none => exact .throw
  | some code => exact matches_withinLimits code

theorem matches_body (hr : ctx.Asks (some r)) (b : Stmt) :
    Matches (ClassState.Behind r old) (body (attempt ctx) ctx b) := by
  refine (matches_attempt hr b false false).bind fun code => ?_
  cases code with
  | none => exact matches_wideBody hr b _
  | some code =>
      refine (matches_withinLimits code).bind fun code => ?_
      cases code with
      | none => exact .pure
      | some code => exact .ite (matches_wideBody hr b false) .pure

theorem matches_method (hr : ctx.Asks (some r)) :
    Matches (ClassState.Behind r old) (method ctx) := by
  refine .look ?_ fun s => .bind (.forM fun t => matches_reporting (.checkDimensions _ t)) fun _ =>
    (matches_reporting (.checkDimensions _ _)).bind fun _ =>
      .ite ((matches_reporting (.add _ _)).bind fun _ => .pure) ?_
  · rintro _ _ ⟨h⟩
    dsimp only
    rw [h.reports.count]
  · split
    · exact .pure
    · refine (matches_body hr _).bind fun code => ?_
      cases code with
      | none => exact .pure
      | some code =>
          refine .look ?_ fun _ => .pure
          rintro _ _ ⟨h⟩
          dsimp only
          rw [h.reports.count]

theorem matches_classOutput {config : Config} (hr : r.IsPlain) (c : ClassDecl) :
    Matches (ClassState.Behind r old) (classOutput config r c) := by
  have hend (methods : List MethodOutput) : ∀ _ : PUnit, Matches (ClassState.Behind r old) (do
      let s ← get
      return { name := c.name, pool := s.pool, methods, errors := s.reports.count } :
        ClassGen ClassOutput) := by
    refine fun _ => .look ?_ fun _ => .pure
    rintro _ _ ⟨h⟩
    dsimp only
    rw [h.reports.count]
  have hmethod (m : MethodDecl) : Matches (ClassState.Behind r old)
      (methodOutput config r c.name m) :=
    have hasks : Context.Asks ⟨config, r, c.name, m⟩ (some r) := ⟨hr, rfl⟩
    (matches_method hasks).bind fun _ => .pure
  refine (matches_reporting (.foldl Reports.Steady.checkMember c.members)).bind fun _ =>
    (Matches.mapM hmethod).bind fun methods => .look ?_ fun s => ?_
  · rintro _ _ ⟨h⟩
    rfl
  · exact .ite ((matches_reporting (.add _ _)).bind (hend _)) (hend _ ⟨⟩)

end ClassGen

end

/-! ### Generators -/

namespace Generator

/-- Two generators that differ in what came before. -/
structure Behind (old : Array Diagnostic) (g g' : Generator) : Prop where
  config : g'.config = g.config
  resolver : g'.resolver = g.resolver
  follows : Follows g.resolver old { log := g.log } { log := g'.log } g.appends g'.appends

/-- One class keeps them so, and comes out the same. -/
theorem Behind.generate {old : Array Diagnostic} {g g' : Generator} (h : Behind old g g')
    (hr : g.resolver.IsPlain) (c : ClassDecl) :
    (g'.generate c).1 = (g.generate c).1 ∧ Behind old (g.generate c).2 (g'.generate c).2 := by
  have hends := (ClassGen.matches_classOutput hr c :
    Matches _ (ClassGen.classOutput g.config g.resolver c))
    ⟨.empty, _, _⟩ ⟨.empty, _, _⟩ ⟨h.follows⟩
  have hlasts {a b : Reports} {found found' : List (Ty × MethodSymbol)}
      (h : Follows g.resolver old a b found found') :
      Follows g.resolver old { log := a.log } { log := b.log } found found' :=
    { h with reports := ⟨rfl, h.reports.log⟩ }
  unfold Generator.generate
  rw [h.config, h.resolver, g.start_eq, g'.start_eq]
  generalize ClassGen.classOutput g.config g.resolver c _ = rs at hends ⊢
  generalize ClassGen.classOutput g.config g.resolver c _ = rt at hends ⊢
  cases hends with
  | ok out h' =>
      obtain ⟨h'⟩ := h'
      exact ⟨rfl, h.config, h.resolver, hlasts h'⟩
  | error e h' =>
      obtain ⟨h'⟩ := h'
      exact ⟨rfl, h.config, h.resolver, hlasts h'⟩

/-- A generator compared with itself. -/
theorem behind_self {g : Generator} (h : g.resolver.Recalls g.appends) : Behind #[] g g :=
  ⟨rfl, rfl, ⟨rfl, by simp⟩, h, h⟩

/-- Through any classes, a generator keeps its configuration and resolver, and what it has
on record is what the resolver finds. -/
theorem recalls_generateAll (cs : List ClassDecl) {g : Generator} (hr : g.resolver.IsPlain)
    (h : g.resolver.Recalls g.appends) :
    (g.generateAll cs).2.config = g.config ∧ (g.generateAll cs).2.resolver = g.resolver ∧
      g.resolver.Recalls (g.generateAll cs).2.appends := by
  induction cs generalizing g with
  | nil => exact ⟨rfl, rfl, h⟩
  | cons c cs ih =>
      have hnext := ((behind_self h).generate hr c).2
      have hkept : (g.generate c).2.resolver = g.resolver ∧ (g.generate c).2.config = g.config := by
        unfold Generator.generate
        split <;> exact ⟨rfl, rfl⟩
      have hrest := ih (g := (g.generate c).2) (hkept.1.symm ▸ hr) hnext.follows.recalls
      rw [hkept.1, hkept.2] at hrest
      exact hrest

/-- Whatever classes a generator has been through, failures among them, it makes of a class
what a new generator makes of it: the same failure or the same output. What it adds to its
log is what a new generator reports. -/
theorem generate_after (config : Config) (classes : Hierarchy) (earlier : List ClassDecl)
    (c : ClassDecl) :
    let fresh : Generator := { config, resolver := classes.resolver }
    let used := (fresh.generateAll earlier).2
    (used.generate c).1 = (fresh.generate c).1 ∧
      (used.generate c).2.log = used.log ++ (fresh.generate c).2.log := by
  intro fresh used
  have hplain : fresh.resolver.IsPlain := classes.resolver_isPlain
  obtain ⟨hconfig, hresolver, hrecalls⟩ :=
    recalls_generateAll earlier hplain fresh.resolver.recalls_nil
  have hbehind : Behind used.log fresh used :=
    ⟨hconfig, hresolver, ⟨rfl, by simp [fresh]⟩, fresh.resolver.recalls_nil, hrecalls⟩
  obtain ⟨hsame, hafter⟩ := hbehind.generate hplain c
  exact ⟨hsame, hafter.follows.reports.log⟩

end Generator

end StackCode
