import StackCode.Proofs.ComposedStatements

/-!
# Steps that leave the scopes alone

The scopes of a method are opened and closed in stack order, jumps are collected in
them, and gaps are opened and closed in them. Five kinds of failure say that this
got out of order; `Error.isDisorder` singles them out. `Orderly x s Q` says of a step
that it does not fail in one of these ways from the state `s`, and that `Q` holds of
what it leaves if it succeeds.

Most steps have nothing to do with scopes. `Calm` says so of a step on any part of the
state: wherever it is taken, it leaves the scopes and the exception table alone and
fails with no disorder. Whatever is composed without scopes is calm, so everything that
writes instructions is, and so is the code of an expression in which no `letIn` occurs.
-/

namespace StackCode

/-- From `s`, the step fails with no disorder, or it succeeds and leaves `Q`. -/
def Orderly {σ α : Type} (x : EStateM Error σ α) (s : σ) (Q : α → σ → Prop) : Prop :=
  match x s with
  | .ok a s' => Q a s'
  | .error e _ => e.isDisorder = false

namespace Orderly

variable {σ α β : Type} {x : EStateM Error σ α} {f : α → EStateM Error σ β} {s : σ}
  {P Q : α → σ → Prop} {R : β → σ → Prop}

theorem mono (h : Orderly x s P) (hPQ : ∀ a s', P a s' → Q a s') : Orderly x s Q := by
  unfold Orderly at h ⊢
  split at h
  · exact hPQ _ _ h
  · exact h

theorem of_error (h : Orderly x s Q) {e : Error} {s' : σ} (hx : x s = .error e s') :
    e.isDisorder = false := by
  unfold Orderly at h
  rwa [hx] at h

theorem bind (h : Orderly x s P) (hf : ∀ a s', P a s' → Orderly (f a) s' R) :
    Orderly (x >>= f) s R := by
  unfold Orderly at h
  show match EStateM.bind x f s with
    | .ok a s' => R a s'
    | .error e _ => e.isDisorder = false
  unfold EStateM.bind
  split at h
  · rename_i a s' hx
    rw [hx]
    exact hf a s' h
  · rename_i e s' hx
    rw [hx]
    exact h

theorem pure {a : α} (h : Q a s) : Orderly (pure a : EStateM Error σ α) s Q := h

theorem throw {e : Error} (h : e.isDisorder = false) :
    Orderly (throw e : EStateM Error σ α) s Q := h

/-- A step that looks at the state goes on with it. -/
theorem get_bind {f : σ → EStateM Error σ β} (h : Orderly (f s) s R) :
    Orderly (MonadState.get >>= f) s R := h

theorem modify {g : σ → σ} {Q : Unit → σ → Prop} (h : Q () (g s)) :
    Orderly (modify g : EStateM Error σ Unit) s Q := h

theorem ite {c : Prop} [Decidable c] {x y : EStateM Error σ α} (hx : c → Orderly x s Q)
    (hy : ¬ c → Orderly y s Q) : Orderly (if c then x else y) s Q := by
  split
  · exact hx ‹_›
  · exact hy ‹_›

/-- Whatever else holds of a success holds as well. -/
theorem also (h : Orderly x s P) (hok : ∀ a s', x s = .ok a s' → Q a s') :
    Orderly x s fun a s' => P a s' ∧ Q a s' := by
  unfold Orderly at h ⊢
  split
  · rename_i hx
    rw [hx] at h
    exact ⟨h, hok _ _ hx⟩
  · rename_i hx
    rw [hx] at h
    exact h

end Orderly

/-! ### Calm steps -/

/-- Two states with the same scopes and the same exception table. -/
structure MethodState.Alike (s s' : MethodState) : Prop where
  scopes : s'.scopes = s.scopes
  catches : s'.asm.code.catches = s.asm.code.catches

theorem MethodState.Alike.refl (s : MethodState) : s.Alike s := ⟨rfl, rfl⟩

theorem MethodState.Alike.trans {s s' s'' : MethodState} (h : s.Alike s') (h' : s'.Alike s'') :
    s.Alike s'' :=
  ⟨h'.scopes.trans h.scopes, h'.catches.trans h.catches⟩

/-- Wherever it is taken, the step leaves scopes and exception table alone and fails
with no disorder. -/
def Calm {σ α : Type} [Part σ] (x : EStateM Error σ α) : Prop :=
  ∀ s : MethodState, Orderly x (Part.get s) fun _ s' => s.Alike (Part.put s' s)

namespace Calm

variable {σ α β : Type} [Part σ] {x y : EStateM Error σ α} {f : α → EStateM Error σ β}

theorem bind (h : Calm x) (hf : ∀ a, Calm (f a)) : Calm (x >>= f) := by
  intro s
  refine (h s).bind fun a s' hs' => ?_
  have hfa := hf a (Part.put s' s)
  rw [Part.get_put] at hfa
  refine hfa.mono fun b s'' hs'' => ?_
  rw [Part.put_put] at hs''
  exact hs'.trans hs''

theorem pure {a : α} : Calm (pure a : EStateM Error σ α) := fun s => by
  show s.Alike (Part.put (Part.get s) s)
  rw [Part.put_get]
  exact .refl s

theorem throw {e : Error} (h : e.isDisorder = false) : Calm (throw e : EStateM Error σ α) :=
  fun _ => h

theorem get : Calm (get : EStateM Error σ σ) := fun s => by
  show s.Alike (Part.put (Part.get s) s)
  rw [Part.put_get]
  exact .refl s

theorem onCode {x : Emit α} (h : Calm x) : Calm (Asm.onCode x) := by
  rintro ⟨⟨code, pool⟩, scopes, locals, subroutines, letDepth, reports, appends⟩
  have hx := h ⟨⟨code, pool⟩, scopes, locals, subroutines, letDepth, reports, appends⟩
  simp only [Orderly, Part.get, Asm.onCode] at hx ⊢
  cases hrun : x code <;> rw [hrun] at hx <;> exact hx

theorem onAsm {x : Asm α} (h : Calm x) : Calm (Gen.onAsm x) := by
  rintro ⟨asm, scopes, locals, subroutines, letDepth, reports, appends⟩
  have hx := h ⟨asm, scopes, locals, subroutines, letDepth, reports, appends⟩
  simp only [Orderly, Part.get, Gen.onAsm] at hx ⊢
  cases hrun : x asm <;> rw [hrun] at hx <;> exact hx

theorem peek (f : Code → α) : Calm (Gen.peek f) := fun s => .refl s

theorem liftExcept {x : Except Error α} (h : ∀ e, x = .error e → e.isDisorder = false) :
    Calm (liftM x : Gen α) := by
  cases x with
  | ok a => exact pure
  | error e => exact throw (h e rfl)

end Calm

/-- A step that is composed without scopes and asks only resolvers with failures of their own
is calm. -/
theorem Composed.calm {σ α : Type} [Part σ] {x : EStateM Error σ α}
    (h : Composed Resolver.IsPlain false x) : Calm x := by
  induction h with
  | pure => exact .pure
  | throw plain => exact .throw (Error.isPlain_iff.mp plain).2
  | bind _ _ ihx ihf => exact ihx.bind ihf
  | inspect _ _ ih => exact Calm.get.bind ih
  | update h => exact fun s => ⟨rfl, (h.keeps s.asm.code).catches⟩
  | settle pc target h =>
      exact fun s => ⟨rfl, (h.keeps _).catches.trans (Code.patch_catches ..)⟩
  | onCode _ ih => exact ih.onCode
  | pooled put => exact fun _ => ⟨rfl, rfl⟩
  | onAsm _ ih => exact ih.onAsm
  | look _ _ ih => exact Calm.get.bind ih
  | note g _ => exact fun _ => ⟨rfl, rfl⟩
  | report span limit => exact fun _ => ⟨rfl, rfl⟩
  | checkDimensions span t => exact fun _ => ⟨rfl, rfl⟩
  | checkString span c => exact fun _ => ⟨rfl, rfl⟩
  | ask h site name args =>
      exact .liftExcept fun e he => (Error.isPlain_iff.mp (h site name args e he)).2
  | appendMethod h t =>
      refine Calm.get.bind fun s => ?_
      split
      · exact .pure
      · refine (Calm.liftExcept fun e he => (Error.isPlain_iff.mp (h _ _ _ e he)).2).bind
          fun m => .bind (fun _ => ⟨rfl, rfl⟩) fun _ => .pure
  | onScopes h => cases h
  | addCatch h => cases h

end StackCode
