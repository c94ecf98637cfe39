import StackCode.Generate.Basic

/-!
# Steps on parts of the state

The steps of the generator work on different parts of its state: on the code, on
the code with the pool, on the scopes, or on all of it. `Part.lift` is a step on a
part as a step on the whole, and it goes along with sequencing and failing; so what
is said of steps on the whole can be shown of each part on its own.
-/

namespace StackCode

/-- A part of the state of the generator. -/
class Part (σ : Type) where
  get : MethodState → σ
  put : σ → MethodState → MethodState
  get_put : ∀ a s, get (put a s) = a
  put_put : ∀ a b s, put b (put a s) = put b s
  put_get : ∀ s, put (get s) s = s

instance : Part Code where
  get s := s.asm.code
  put c s := { s with asm := { s.asm with code := c } }
  get_put _ _ := rfl
  put_put _ _ _ := rfl
  put_get _ := rfl

instance : Part Assembly where
  get s := s.asm
  put a s := { s with asm := a }
  get_put _ _ := rfl
  put_put _ _ _ := rfl
  put_get _ := rfl

instance : Part Scopes where
  get s := s.scopes
  put a s := { s with scopes := a }
  get_put _ _ := rfl
  put_put _ _ _ := rfl
  put_get _ := rfl

instance : Part MethodState where
  get s := s
  put a _ := a
  get_put _ _ := rfl
  put_put _ _ _ := rfl
  put_get _ := rfl

/-- A step on a part as a step on the whole. -/
def Part.lift {σ α : Type} [Part σ] (x : EStateM Error σ α) : Gen α := fun s =>
  match x (Part.get s) with
  | .ok a p => .ok a (Part.put p s)
  | .error e p => .error e (Part.put p s)

namespace Part

variable {σ α β : Type} [Part σ]

theorem lift_pure (a : α) : lift (pure a : EStateM Error σ α) = pure a := by
  funext s
  show EStateM.Result.ok a (put (get s) s) = .ok a s
  rw [put_get]

theorem lift_throw (e : Error) : lift (throw e : EStateM Error σ α) = throw e := by
  funext s
  show EStateM.Result.error e (put (get s) s) = .error e s
  rw [put_get]

theorem lift_bind (x : EStateM Error σ α) (f : α → EStateM Error σ β) :
    lift (x >>= f) = lift x >>= fun a => lift (f a) := by
  funext s
  simp only [lift, bind, EStateM.bind]
  cases x (get s) with
  | ok a p =>
      dsimp only
      rw [get_put]
      cases f a p <;> simp only [put_put]
  | error e p => rfl

theorem lift_onCode (x : Emit α) : lift (Asm.onCode x) = lift x := by
  funext ⟨⟨code, pool⟩, scopes, locals, subroutines, letDepth, reports, appends⟩
  simp only [lift, Part.get, Asm.onCode]
  cases x code <;> rfl

theorem lift_onAsm (x : Asm α) : lift (Gen.onAsm x) = lift x := by
  funext ⟨asm, scopes, locals, subroutines, letDepth, reports, appends⟩
  simp only [lift, Part.get, Gen.onAsm]
  cases x asm <;> rfl

theorem lift_onScopes (x : Scoping α) : Gen.onScopes x = lift x := by
  funext ⟨asm, scopes, locals, subroutines, letDepth, reports, appends⟩
  simp only [lift, Part.get, Gen.onScopes]
  cases x scopes <;> rfl

theorem lift_self (x : Gen α) : lift x = x := by
  funext s
  simp only [lift, Part.get]
  cases x s <;> rfl

theorem lift_emit (x : Emit α) : lift x = (liftM x : Gen α) := by
  rw [← lift_onCode, ← lift_onAsm, lift_self]
  rfl

end Part

theorem EStateM.bind_eq_ok {ε σ α β : Type} {x : EStateM ε σ α} {f : α → EStateM ε σ β} {b : β}
    {s s'' : σ} : (x >>= f) s = .ok b s'' ↔ ∃ a s', x s = .ok a s' ∧ f a s' = .ok b s'' := by
  simp only [bind, EStateM.bind]
  cases x s with
  | ok a s' =>
      constructor
      · exact fun h => ⟨a, s', rfl, h⟩
      · rintro ⟨a', s'', ⟨⟩, h⟩
        exact h
  | error e s' => simp

theorem EStateM.bind_of_ok {ε σ α β : Type} {x : EStateM ε σ α} {f : α → EStateM ε σ β} {a : α}
    {s s' : σ} (h : x s = .ok a s') : (x >>= f) s = f a s' := by
  simp only [bind, EStateM.bind, h]

theorem EStateM.bind_of_error {ε σ α β : Type} {x : EStateM ε σ α} {f : α → EStateM ε σ β} {e : ε}
    {s s' : σ} (h : x s = .error e s') : (x >>= f) s = .error e s' := by
  simp only [bind, EStateM.bind, h]

end StackCode
