import StackCode.Proofs.Unchanged

/-!
# What steps are built from

Everything that generates a method is put together from a few kinds of elementary
steps: changes of the code, entries into the pool, a look at the state, reports,
questions for an append method, and, for statements, work on the scopes and rows of the
exception table. `Built r scopes x` says so of a step `x` on any part of the state;
without `scopes`, the last two kinds are left out.

A question to a resolver could fail in any way, so the resolver has to keep to failures
of its own; a hierarchy does.

What holds of all elementary steps and is kept when one step follows another holds of
all generated code, by induction over `Built`.
-/

namespace StackCode

/-- Whether a failure says that code was too large for the jumps it was written with. -/
def Error.isOverflow : Error → Bool
  | .codeSizeOverflow | .internal (.stillTooWide _) => true
  | _ => false

/-- Whether a failure says that scopes, jumps or gaps got out of order. -/
def Error.isDisorder : Error → Bool
  | .unresolvedChain _ | .oddGaps | .unknownTarget _ => true
  | .internal (.scopeOrder _ _) | .internal .missingGap => true
  | _ => false

/-- A failure that is neither about the size of the code nor about scopes. -/
def Error.isPlain (e : Error) : Bool := !e.isOverflow && !e.isDisorder

theorem Error.isPlain_iff {e : Error} :
    e.isPlain = true ↔ e.isOverflow = false ∧ e.isDisorder = false := by
  simp [isPlain]

/-- The resolver has no failures but its own. -/
def Resolver.IsPlain (r : Resolver) : Prop :=
  ∀ site name args e, r.method site name args = .error e → e.isPlain = true

theorem Hierarchy.resolver_isPlain (h : Hierarchy) : h.resolver.IsPlain := by
  intro site name args e he
  simp only [resolver, resolve] at he
  split at he
  · cases he
  · cases he
    rfl

/-- Methods are asked for at `r`, which has no failures but its own. -/
structure Context.Asks (ctx : Context) (r : Option Resolver) : Prop where
  plain : ctx.resolver.IsPlain
  same : r = some ctx.resolver

/-- An append method is on record, or the resolver is asked for it. -/
theorem Context.appendMethod_cases (ctx : Context) (t : Ty) (s : MethodState) :
    (∃ m, s.appends.lookup t = some m ∧ ctx.appendMethod t s = .ok m s) ∨
    (∃ m, ctx.resolver.method .builder "append" [t] = .ok m ∧
      ctx.appendMethod t s = .ok m { s with appends := (t, m) :: s.appends }) ∨
    ∃ e, s.appends.lookup t = none ∧ ctx.resolver.method .builder "append" [t] = .error e ∧
      ctx.appendMethod t s = .error e s := by
  unfold Context.appendMethod
  rw [EStateM.bind_of_ok (rfl : (get : Gen MethodState) s = .ok s s)]
  cases s.appends.lookup t with
  | some m => exact .inl ⟨m, rfl, rfl⟩
  | none =>
      cases ctx.resolver.method .builder "append" [t] with
      | ok m => exact .inr (.inl ⟨m, rfl, rfl⟩)
      | error e => exact .inr (.inr ⟨e, rfl, rfl, rfl⟩)

/-- A step that may fail, but not for the size of the code. -/
def NoOverflow {σ α : Type} (x : EStateM Error σ α) : Prop :=
  ∀ s e s', x s = .error e s' → e.isOverflow = false

/-- The step is put together from elementary ones. -/
inductive Built (r : Option Resolver) (scopes : Bool) :
    {σ : Type} → [Part σ] → {α : Type} → EStateM Error σ α → Prop
  | pure {σ α : Type} [Part σ] {a : α} : Built r scopes (Pure.pure a : EStateM Error σ α)
  | throw {σ α : Type} [Part σ] {e : Error} (plain : e.isPlain = true) :
      Built r scopes (MonadExcept.throw e : EStateM Error σ α)
  | bind {σ α β : Type} [Part σ] {x : EStateM Error σ α} {f : α → EStateM Error σ β}
      (first : Built r scopes x) (rest : ∀ a, Built r scopes (f a)) : Built r scopes (x >>= f)
  /-- a look at the code -/
  | code : Built r scopes (get : Emit Code)
  | update {α : Type} {g : Code → α × Code} (keeps : ∀ c : Code, c.SameBesideBytes (g c).2) :
      Built r scopes (modifyGet g : Emit α)
  /-- a branch gets its target, and something is done to the code after that -/
  | settle {α : Type} {g : Code → α × Code} (pc target : Nat)
      (keeps : ∀ c : Code, c.SameBesideBytes (g c).2) :
      Built r scopes (modifyGet fun c => g (c.patch pc target) : Emit α)
  | onCode {α : Type} {x : Emit α} (h : Built r scopes x) : Built r scopes (Asm.onCode x)
  | pooled (put : Pool → UInt16 × Pool) : Built r scopes (Asm.pooled put)
  | onAsm {α : Type} {x : Asm α} (h : Built r scopes x) : Built r scopes (Gen.onAsm x)
  /-- a look at anything but the reports and the append methods found so far -/
  | look {α : Type} {f : MethodState → Gen α}
      (ignores : ∀ s reports appends, f { s with reports, appends } = f s)
      (rest : ∀ s, Built r scopes (f s)) : Built r scopes (get >>= f)
  /-- a change of what the generator knows of variables and of its own mode -/
  | note (g : MethodState → Std.TreeMap VarId UInt16 × Bool × Nat)
      (ignores : ∀ s reports appends, g { s with reports, appends } = g s) :
      Built r scopes (modify fun s : MethodState =>
        { s with locals := (g s).1, subroutines := (g s).2.1, letDepth := (g s).2.2 } : Gen Unit)
  | report (span : Span) (limit : Limit) : Built r scopes (Gen.report span limit)
  | checkDimensions (span : Span) (t : Ty) : Built r scopes (Gen.checkDimensions span t)
  | checkString (span : Span) (c : Option Const) : Built r scopes (Gen.checkString span c)
  | appendMethod {ctx : Context} (h : ctx.Asks r) (t : Ty) :
      Built r scopes (ctx.appendMethod t)
  | onScopes {α : Type} {x : Scoping α} (h : scopes = true) (sized : NoOverflow x) :
      Built r scopes (Gen.onScopes x)
  | addCatch (h : scopes = true) (span : Span) (row : CatchRow) :
      Built r scopes (Gen.addCatch span row)

theorem Built.inGen {r : Option Resolver} {scopes : Bool} {α : Type} {x : Emit α}
    (h : Built r scopes x) : Built r scopes (liftM x : Gen α) :=
  .onAsm (.onCode h)

end StackCode
