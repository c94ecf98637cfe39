import Mathlib.Data.List.Forall2
import StackCode.Proofs.Reuse

/-!
# Debug switches

Whether a line table is kept, and whether the generator traces what it emits, decides
nothing else: the code of a class, its pool and its reports are the same for all settings
of the two switches, and so is the failure if there is one
(`Generator.generate_debugging`).

No equation of the generator reads either switch, so that a statement has the same code in
both contexts. What remains is one step run from two states that differ in their line
tables, and an elementary step does not look at these: `Composed` says so.
-/

namespace StackCode

/-! ### Contexts -/

/-- The options with other debug switches. -/
def Config.debugging (config : Config) (lines trace : Bool) : Config := { config with lines, trace }

/-- The context with other debug switches. -/
def Context.debugging (ctx : Context) (lines trace : Bool) : Context :=
  { ctx with config := ctx.config.debugging lines trace }

section

variable (ctx : Context) (lines trace : Bool)

mutual

theorem Expr.code_debugging (e : Expr) :
    Expr.code (ctx.debugging lines trace) e = Expr.code ctx e := by
  funext env
  cases e with
  | literal i => rfl
  | ident i s => rfl
  | selfRef i isSuper ctor => rfl
  | select i t s =>
      rw [Expr.code, Expr.code, Expr.code_debugging t]
      rfl
  | classLit i t => rfl
  | apply i f as =>
      rw [Expr.code, Expr.code, Expr.code_debugging f, Expr.codes_debugging as]
      rfl
  | newClass i m as =>
      rw [Expr.code, Expr.code, Expr.codes_debugging as]
      rfl
  | newArray i ds =>
      rw [Expr.code, Expr.code, Expr.codes_debugging ds]
      rfl
  | arrayInit i es =>
      rw [Expr.code, Expr.code, Expr.codes_debugging es]
      rfl
  | parens i a =>
      rw [Expr.code, Expr.code, Expr.code_debugging a]
      rfl
  | assign i l r =>
      rw [Expr.code, Expr.code, Expr.code_debugging l, Expr.code_debugging r]
      rfl
  | assignOp i op t l r =>
      rw [Expr.code, Expr.code, Expr.code_debugging l, Expr.code_debugging r]
      rfl
  | unary i op t a =>
      rw [Expr.code, Expr.code, Expr.code_debugging a]
      rfl
  | binary i op t l r =>
      rw [Expr.code, Expr.code, Expr.code_debugging l, Expr.code_debugging r]
      rfl
  | cast i t a =>
      rw [Expr.code, Expr.code, Expr.code_debugging a]
      rfl
  | typeTest i a t =>
      rw [Expr.code, Expr.code, Expr.code_debugging a]
      rfl
  | index i a x =>
      rw [Expr.code, Expr.code, Expr.code_debugging a, Expr.code_debugging x]
      rfl
  | cond i c t f =>
      rw [Expr.code, Expr.code, Expr.code_debugging c, Expr.code_debugging t, Expr.code_debugging f]
      rfl
  | letIn i ss v =>
      rw [Expr.code, Expr.code, Expr.code_debugging v, Stmt.gens_debugging ss]
      rfl

theorem Expr.codes_debugging (es : List Expr) :
    Expr.codes (ctx.debugging lines trace) es = Expr.codes ctx es := by
  funext env
  cases es with
  | nil => rw [Expr.codes, Expr.codes]
  | cons e es => rw [Expr.codes, Expr.codes, Expr.code_debugging e, Expr.codes_debugging es]

theorem Stmt.code_debugging (s : Stmt) :
    Stmt.code (ctx.debugging lines trace) s = Stmt.code ctx s := by
  cases s with
  | block i ss => rw [Stmt.code, Stmt.code, Stmt.gens_debugging ss]
  | varDef i v init =>
      cases init with
      | some e =>
          rw [Stmt.code, Stmt.code, Expr.code_debugging e]
          rfl
      | none => rfl
  | skip i => rfl
  | doLoop i b c => rw [Stmt.code, Stmt.code, Stmt.code_debugging b, Expr.code_debugging c]
  | whileLoop i c b => rw [Stmt.code, Stmt.code, Stmt.code_debugging b, Expr.code_debugging c]
  | forLoop i init c step b =>
      cases c with
      | some c =>
          rw [Stmt.code, Stmt.code, Stmt.gens_debugging init, Expr.code_debugging c,
            Stmt.gens_debugging step, Stmt.code_debugging b]
      | none =>
          rw [Stmt.code, Stmt.code, Stmt.gens_debugging init, Stmt.gens_debugging step,
            Stmt.code_debugging b]
  | foreach i v e b => rfl
  | labelled i l b => rw [Stmt.code, Stmt.code, Stmt.code_debugging b]
  | switch i e cs => rw [Stmt.code, Stmt.code, Expr.code_debugging e, Case.codes_debugging cs]
  | sync i e b => rw [Stmt.code, Stmt.code, Expr.code_debugging e, Stmt.code_debugging b]
  | tryCatch i b cs f =>
      cases f with
      | some f =>
          rw [Stmt.code, Stmt.code, Stmt.code_debugging b, Catch.codes_debugging cs,
            Stmt.code_debugging f]
          rfl
      | none =>
          rw [Stmt.code, Stmt.code, Stmt.code_debugging b, Catch.codes_debugging cs]
          rfl
  | ite i c t f =>
      cases f with
      | some f =>
          rw [Stmt.code, Stmt.code, Expr.code_debugging c, Stmt.code_debugging t,
            Stmt.code_debugging f]
      | none => rw [Stmt.code, Stmt.code, Expr.code_debugging c, Stmt.code_debugging t]
  | exec i e => rw [Stmt.code, Stmt.code, Expr.code_debugging e]
  | breakTo i t => rfl
  | continueTo i t => rfl
  | ret i e =>
      cases e with
      | some e =>
          rw [Stmt.code, Stmt.code, Expr.code_debugging e]
          rfl
      | none => rfl
  | raise i e => rw [Stmt.code, Stmt.code, Expr.code_debugging e]
  | assert i c m => rfl
  | localClass i n => rfl

theorem Stmt.gens_debugging (ss : List Stmt) :
    Stmt.gens (ctx.debugging lines trace) ss = Stmt.gens ctx ss := by
  funext env
  cases ss with
  | nil => rw [Stmt.gens, Stmt.gens]
  | cons s ss => rw [Stmt.gens, Stmt.gens, Stmt.code_debugging s, Stmt.gens_debugging ss]

theorem Case.codes_debugging (cs : List Case) :
    Case.codes (ctx.debugging lines trace) cs = Case.codes ctx cs := by
  cases cs with
  | nil => rw [Case.codes, Case.codes]
  | cons c cs =>
      obtain ⟨span, label, ss⟩ := c
      rw [Case.codes, Case.codes, Stmt.gens_debugging ss, Case.codes_debugging cs]

theorem Catch.codes_debugging (cs : List Catch) :
    Catch.codes (ctx.debugging lines trace) cs = Catch.codes ctx cs := by
  cases cs with
  | nil => rw [Catch.codes, Catch.codes]
  | cons c cs =>
      obtain ⟨span, v, b⟩ := c
      rw [Catch.codes, Catch.codes, Stmt.code_debugging b, Catch.codes_debugging cs]

end

theorem Gen.methodBody_debugging (body : Stmt) :
    Gen.methodBody (ctx.debugging lines trace) body = Gen.methodBody ctx body := by
  unfold Gen.methodBody
  rw [Stmt.code_debugging]
  rfl

end

/-! ### Two runs of a method -/

/-- The second state is the first one with another line table. -/
inductive MethodState.Relined (s : MethodState) : MethodState → Prop
  | intro (keep : Bool) (lines : Array LineRow) :
      Relined s (s.beside keep lines s.reports s.appends)

namespace Gen

theorem relined_operate {α : Type} {g : Code → α × Code}
    (blind : ∀ (c : Code) (keep : Bool) (lines : Array LineRow), ∃ lines',
      g (c.withLines keep lines) = ((g c).1, (g c).2.withLines keep lines')) :
    Matches MethodState.Relined (Part.lift (modifyGet g : Emit α)) := by
  rintro s _ ⟨keep, lines⟩
  obtain ⟨lines', hg⟩ := blind s.asm.code keep lines
  show Ends _ (.ok (g s.asm.code).1 (Part.put (g s.asm.code).2 s))
    (.ok (g (s.asm.code.withLines keep lines)).1
      (Part.put (g (s.asm.code.withLines keep lines)).2 (s.beside keep lines s.reports s.appends)))
  rw [hg]
  exact .ok _ ⟨keep, lines'⟩

theorem relined_reporting (f : Reports → Reports) :
    Matches MethodState.Relined (Gen.reporting f) := by
  rintro s _ ⟨keep, lines⟩
  exact .ok () ⟨keep, lines⟩

theorem relined_peek {α : Type} {f : Code → α}
    (blind : ∀ c keep lines, f (c.withLines keep lines) = f c) :
    Matches MethodState.Relined (Gen.peek f) := by
  rintro s _ ⟨keep, lines⟩
  show Ends _ (.ok (f s.asm.code) s) (.ok (f (s.asm.code.withLines keep lines)) _)
  rw [blind]
  exact .ok _ ⟨keep, lines⟩

theorem relined_addCatch (span : Span) (row : CatchRow) :
    Matches MethodState.Relined (Gen.addCatch span row) := by
  have htouch : Matches MethodState.Relined (Gen.touch (·.addCatch row)) := by
    rintro s _ ⟨keep, lines⟩
    show Ends _ (.ok () (Part.put (s.asm.code.addCatch row) s)) (.ok () (Part.put
      ((s.asm.code.withLines keep lines).addCatch row) (s.beside keep lines s.reports s.appends)))
    rw [Code.addCatch_withLines]
    exact .ok () ⟨keep, lines⟩
  exact .ite .pure <| .ite htouch <| (relined_peek fun _ _ _ => rfl).bind fun _ =>
    .ite (relined_reporting _) .throw

theorem relined_appendMethod (ctx : Context) (t : Ty) :
    Matches MethodState.Relined (ctx.appendMethod t) := by
  have hlook : ∀ s s', MethodState.Relined s s' → s'.appends = s.appends := by
    rintro s _ ⟨keep, lines⟩
    rfl
  refine .look (fun s s' h => ?_) fun s => ?_
  · rw [hlook s s' h]
  · cases s.appends.lookup t with
    | some m => exact .pure
    | none =>
        cases ctx.resolver.method .builder "append" [t] with
        | ok m =>
            rintro s _ ⟨keep, lines⟩
            exact .ok m ⟨keep, lines⟩
        | error e => exact .throw

end Gen

/-- Whatever is composed of elementary steps goes the same way with any line table. -/
theorem Composed.relined {asks : Resolver → Prop} {scopes : Bool} {σ α : Type} [Part σ]
    {x : EStateM Error σ α} (h : Composed asks scopes x) :
    Matches MethodState.Relined (Part.lift x) := by
  induction h with
  | pure =>
      rw [Part.lift_pure]
      exact .pure
  | throw _ =>
      rw [Part.lift_throw]
      exact .throw
  | bind _ _ ihx ihf =>
      rw [Part.lift_bind]
      exact ihx.bind ihf
  | @inspect _ f blind _ ih =>
      rintro s _ ⟨keep, lines⟩
      show Ends _ (Part.lift (f s.asm.code) s)
        (Part.lift (f (s.asm.code.withLines keep lines)) _)
      rw [blind]
      exact ih s.asm.code s _ ⟨keep, lines⟩
  | update h => exact Gen.relined_operate h.blind
  | settle pc target h =>
      refine Gen.relined_operate fun c keep lines => ?_
      rw [Code.patch_withLines]
      exact h.blind (c.patch pc target) keep lines
  | onCode _ ih =>
      rw [Part.lift_onCode]
      exact ih
  | pooled put =>
      rintro s _ ⟨keep, lines⟩
      exact .ok _ ⟨keep, lines⟩
  | onAsm _ ih =>
      rw [Part.lift_onAsm]
      exact ih
  | look ignores _ ih =>
      rw [Part.lift_self]
      refine .look ?_ fun s => by simpa only [Part.lift_self] using ih s
      rintro s _ ⟨keep, lines⟩
      exact ignores s keep lines s.reports s.appends
  | note g ignores =>
      rw [Part.lift_self]
      rintro s _ ⟨keep, lines⟩
      show Ends _ (.ok () _) (.ok () _)
      dsimp only
      rw [ignores s keep lines s.reports s.appends]
      exact .ok () ⟨keep, lines⟩
  | report span limit =>
      rw [Part.lift_self]
      exact Gen.relined_reporting _
  | checkDimensions span t =>
      rw [Part.lift_self]
      exact Gen.relined_reporting _
  | checkString span c =>
      rw [Part.lift_self]
      exact Gen.relined_reporting _
  | @ask r _ site name args =>
      rw [Part.lift_self]
      cases r.method site name args with
      | ok m => exact .pure
      | error e => exact .throw
  | appendMethod _ t =>
      rw [Part.lift_self]
      exact Gen.relined_appendMethod _ t
  | onScopes _ _ =>
      rw [Part.lift_self]
      rintro s _ ⟨keep, lines⟩
      dsimp only [Gen.onScopes, MethodState.beside]
      split
      · exact .ok _ ⟨keep, lines⟩
      · exact .error _ ⟨keep, lines⟩
  | addCatch _ span row =>
      rw [Part.lift_self]
      exact Gen.relined_addCatch span row

theorem Gen.relined_methodBody (ctx : Context) (body : Stmt) :
    Matches MethodState.Relined (Gen.methodBody ctx body) := by
  have h : Composed (fun _ => True) true (Gen.methodBody ctx body) :=
    Gen.composed_methodBody trivial body
  simpa only [Part.lift_self] using h.relined

/-! ### Two runs of a class -/

/-- Two outcomes with related answers or with the same failure, and with the same state. -/
inductive EndAlike {α : Type} (A : α → α → Prop) :
    EStateM.Result Error ClassState α → EStateM.Result Error ClassState α → Prop
  | ok {a a' : α} (h : A a a') (s : ClassState) : EndAlike A (.ok a s) (.ok a' s)
  | error (e : Error) (s : ClassState) : EndAlike A (.error e s) (.error e s)

/-- Taken from the same state, the two steps end alike. -/
def Parallel {α : Type} (A : α → α → Prop) (x x' : ClassGen α) : Prop :=
  ∀ s, EndAlike A (x s) (x' s)

namespace Parallel

variable {α β : Type} {A : α → α → Prop} {B : β → β → Prop} {x x' : ClassGen α}

theorem pure {a a' : α} (h : A a a') : Parallel A (pure a) (pure a') := fun s => .ok h s

theorem throw {e : Error} : Parallel A (throw e) (throw e) := fun s => .error e s

theorem same (x : ClassGen α) : Parallel Eq x x := by
  intro s
  cases x s with
  | ok a s' => exact .ok rfl s'
  | error e s' => exact .error e s'

theorem bind {f f' : α → ClassGen β} (hx : Parallel A x x')
    (hf : ∀ a a', A a a' → Parallel B (f a) (f' a')) : Parallel B (x >>= f) (x' >>= f') := by
  intro s
  have hends := hx s
  show EndAlike B (EStateM.bind x f s) (EStateM.bind x' f' s)
  unfold EStateM.bind
  generalize x s = r, x' s = r' at hends
  cases hends with
  | ok h s' => exact hf _ _ h s'
  | error e s' => exact .error e s'

/-- The same step, and then two that go with its answer. -/
theorem after {f f' : α → ClassGen β} (hf : ∀ a, Parallel B (f a) (f' a)) :
    Parallel B (x >>= f) (x >>= f') :=
  (same x).bind fun a _ h => h ▸ hf a

theorem ite {c : Prop} [Decidable c] {y y' : ClassGen α} (hx : Parallel A x x')
    (hy : Parallel A y y') : Parallel A (if c then x else y) (if c then x' else y') := by
  split
  · exact hx
  · exact hy

theorem mapM {γ : Type} {f f' : γ → ClassGen α} (h : ∀ c, Parallel A (f c) (f' c))
    (cs : List γ) : Parallel (List.Forall₂ A) (cs.mapM f) (cs.mapM f') := by
  induction cs with
  | nil =>
      rw [List.mapM_nil, List.mapM_nil]
      exact .pure .nil
  | cons c cs ih =>
      rw [List.mapM_cons, List.mapM_cons]
      exact (h c).bind fun _ _ ha => ih.bind fun _ _ has => .pure (.cons ha has)

end Parallel

/-- The same code, up to the line table. -/
def Code.Relined (c c' : Code) : Prop := ∃ keep lines, c' = c.withLines keep lines

/-- The same finished code, up to the line table. -/
def CodeAttr.SameButLines (a a' : CodeAttr) : Prop := a' = { a with lines := a'.lines }

/-- The same method with the same code, up to the line table, or without code in both. -/
structure MethodOutput.SameButLines (m m' : MethodOutput) : Prop where
  name : m'.name = m.name
  descriptor : m'.descriptor = m.descriptor
  flags : m'.flags = m.flags
  code : Option.Rel CodeAttr.SameButLines m.code m'.code

/-- The same class, up to line tables. -/
structure ClassOutput.SameButLines (c c' : ClassOutput) : Prop where
  name : c'.name = c.name
  pool : c'.pool = c.pool
  errors : c'.errors = c.errors
  methods : List.Forall₂ MethodOutput.SameButLines c.methods c'.methods

theorem Code.Relined.finish {c c' : Code} (h : c.Relined c') : c.finish.SameButLines c'.finish := by
  obtain ⟨keep, lines, rfl⟩ := h
  rfl

namespace ClassGen

variable (ctx : Context) (lines trace : Bool)

theorem parallel_attempt (b : Stmt) (wide subroutines : Bool) :
    Parallel (Option.Rel Code.Relined) (attempt ctx b wide subroutines)
      (attempt (ctx.debugging lines trace) b wide subroutines) := by
  intro s
  rw [attempt_eq, attempt_eq, Gen.methodBody_debugging]
  have hends := Gen.relined_methodBody ctx b (firstState ctx wide subroutines s)
    (firstState (ctx.debugging lines trace) wide subroutines s) ⟨lines, #[]⟩
  generalize Gen.methodBody ctx b (firstState ctx wide subroutines s) = r,
    Gen.methodBody ctx b (firstState (ctx.debugging lines trace) wide subroutines s) = r' at hends
  cases hends with
  | ok a h =>
      obtain ⟨keep, table⟩ := h
      exact .ok (.some ⟨keep, table, rfl⟩) _
  | error e h =>
      obtain ⟨keep, table⟩ := h
      cases e with
      | codeSizeOverflow => exact .ok .none _
      | _ => exact .error _ _

theorem parallel_withinLimits {code code' : Code} (h : code.Relined code') :
    Parallel (Option.Rel Code.Relined) (withinLimits ctx code)
      (withinLimits (ctx.debugging lines trace) code') := by
  obtain ⟨keep, table, rfl⟩ := h
  refine Parallel.after fun _ => .pure ?_
  show Option.Rel Code.Relined (if code.exceeded.isEmpty then some code else none)
    (if code.exceeded.isEmpty then some (code.withLines keep table) else none)
  split
  · exact .some ⟨keep, table, rfl⟩
  · exact .none

theorem parallel_wideBody (b : Stmt) (subroutines : Bool) :
    Parallel (Option.Rel Code.Relined) (wideBody (attempt ctx) ctx b subroutines)
      (wideBody (attempt (ctx.debugging lines trace))
        (ctx.debugging lines trace) b subroutines) := by
  refine (parallel_attempt ctx lines trace b true subroutines).bind fun code code' h => ?_
  cases h with
  | none => exact .throw
  | some h => exact parallel_withinLimits ctx lines trace h

theorem parallel_body (b : Stmt) :
    Parallel (Option.Rel Code.Relined) (body (attempt ctx) ctx b)
      (body (attempt (ctx.debugging lines trace)) (ctx.debugging lines trace) b) := by
  refine (parallel_attempt ctx lines trace b false false).bind fun code code' h => ?_
  cases h with
  | none => exact parallel_wideBody ctx lines trace b _
  | some h =>
      refine (parallel_withinLimits ctx lines trace h).bind fun code code' h => ?_
      cases h with
      | none => exact .pure .none
      | some h =>
          obtain ⟨keep, table, rfl⟩ := id h
          exact .ite (parallel_wideBody ctx lines trace b false) (.pure (.some h))

theorem parallel_method :
    Parallel (Option.Rel CodeAttr.SameButLines) (method ctx)
      (method (ctx.debugging lines trace)) := by
  have hmethod : (ctx.debugging lines trace).method = ctx.method := rfl
  unfold method methodBy
  rw [hmethod]
  refine .after fun s => .after fun _ => .after fun _ => .ite (.after fun _ => .pure .none) ?_
  cases ctx.method.body with
  | none => exact .pure .none
  | some b =>
      refine (parallel_body ctx lines trace b).bind fun code code' h => ?_
      cases h with
      | none => exact .pure .none
      | some h =>
          refine .after fun t => .pure ?_
          split
          · exact .none
          · exact .some h.finish

theorem parallel_methodOutput (config : Config) (resolver : Resolver) (cls : String)
    (m : MethodDecl) : Parallel MethodOutput.SameButLines (methodOutput config resolver cls m)
      (methodOutput (config.debugging lines trace) resolver cls m) :=
  (parallel_method ⟨config, resolver, cls, m⟩ lines trace).bind fun _ _ h =>
    .pure ⟨rfl, rfl, rfl, h⟩

theorem sameButLines_void {ms ms' : List MethodOutput}
    (h : List.Forall₂ MethodOutput.SameButLines ms ms') :
    List.Forall₂ MethodOutput.SameButLines (ms.map fun m => { m with code := none })
      (ms'.map fun m => { m with code := none }) := by
  rw [List.forall₂_map_left_iff, List.forall₂_map_right_iff]
  exact h.imp fun _ _ hm => ⟨hm.name, hm.descriptor, hm.flags, .none⟩

theorem parallel_classOutput (config : Config) (resolver : Resolver) (c : ClassDecl) :
    Parallel ClassOutput.SameButLines (classOutput config resolver c)
      (classOutput (config.debugging lines trace) resolver c) := by
  refine .after fun _ => (Parallel.mapM (parallel_methodOutput lines trace config resolver c.name)
    c.completeMethods).bind fun methods methods' h => .after fun s => ?_
  dsimp only
  split
  · exact .after fun _ => .after fun _ => .pure ⟨rfl, rfl, rfl, sameButLines_void h⟩
  · exact .after fun _ => .pure ⟨rfl, rfl, rfl, h⟩

end ClassGen

/-- Debug switches have no influence on code. Two generators that differ only in whether they
keep line tables and whether they trace either fail with the same error or give the same
class: the same pool and number of errors and, method by method, the same code, bytes, sizes,
exception table, variable table and character ranges alike, so that only the line tables may
differ. Either way they report the same diagnostics. -/
theorem Generator.generate_debugging (config : Config) (resolver : Resolver)
    (log : Array Diagnostic) (appends : List (Ty × MethodSymbol)) (pool : Pool) (count : Nat)
    (c : ClassDecl) (lines trace lines' trace' : Bool) :
    let g : Generator := ⟨config.debugging lines trace, resolver, log, appends, pool, count⟩
    let g' : Generator := ⟨config.debugging lines' trace', resolver, log, appends, pool, count⟩
    (g'.generate c).2.log = (g.generate c).2.log ∧
      match (g.generate c).1, (g'.generate c).1 with
      | .ok out, .ok out' => out.SameButLines out'
      | .error e, .error e' => e' = e
      | _, _ => False := by
  intro g g'
  have hends : EndAlike ClassOutput.SameButLines
      (ClassGen.classOutput g.config g.resolver c g.start)
      (ClassGen.classOutput g'.config g'.resolver c g'.start) :=
    ClassGen.parallel_classOutput lines' trace' (config.debugging lines trace) resolver c _
  dsimp only [Generator.generate]
  generalize ClassGen.classOutput g.config g.resolver c _ = r,
    ClassGen.classOutput g'.config g'.resolver c _ = r' at hends ⊢
  cases hends with
  | ok h s => exact ⟨rfl, h⟩
  | error e s => exact ⟨rfl, rfl⟩

end StackCode
