import StackCode.Proofs.ComposedStatements

/-!
# Branches that are settled

`SettlesBranch r x s pc target` says that a run of the step `x` from `s` comes to a point where
the branch at `pc` gets `target` for its target. What was done before that and what is done
after it is generated code as well.

Where jumps are narrow, a branch that cannot reach its target is not settled but noted.
The note is never taken back, and nothing else makes one: after a run of generated code it
is there if and only if the run came to a branch that was too long for narrow jumps
(`Built.needsWide_iff`). The only failure for the size of the code is the one of a protected
region, and it occurs only where jumps are narrow (`Built.overflow`).
-/

namespace StackCode

/-- Run from `s`, the step settles the branch at `pc` on `target`. -/
inductive SettlesBranch (r : Option Resolver) : {α : Type} → Gen α → MethodState → Nat → Nat → Prop
  | here {α : Type} {g : Code → α × Code} (keeps : ∀ c : Code, c.SameBesideBytes (g c).2)
      {s : MethodState}
      {pc target : Nat} :
      SettlesBranch r (Part.lift (modifyGet fun c => g (c.patch pc target) : Emit α)) s pc target
  | look {α : Type} {f : MethodState → Gen α} {s : MethodState} {pc target : Nat}
      (h : SettlesBranch r (f s) s pc target) : SettlesBranch r (get >>= f) s pc target
  | first {α β : Type} {x : Gen α} {f : α → Gen β} (hx : Built r true x)
      (hf : ∀ a, Built r true (f a)) {s : MethodState} {pc target : Nat}
      (h : SettlesBranch r x s pc target) : SettlesBranch r (x >>= f) s pc target
  | later {α β : Type} {x : Gen α} {f : α → Gen β} (hx : Built r true x)
      (hf : ∀ a, Built r true (f a)) {s s' : MethodState} {a : α} {pc target : Nat}
      (run : x s = .ok a s') (h : SettlesBranch r (f a) s' pc target) :
        SettlesBranch r (x >>= f) s pc target

/-- What two codes say of the run between them, which settles branches as `settled` says. -/
structure Code.Noted (settled : Nat → Nat → Prop) (c c' : Code) : Prop where
  wide : c'.wide = c.wide
  stays : c.needsWide = true → c'.needsWide = true
  found : c'.needsWide = true → c.needsWide = true ∨
    c.wide = false ∧ ∃ pc target, settled pc target ∧ ¬ Near pc target

theorem Code.noted_of_same {settled : Nat → Nat → Prop} {c c' : Code} (wide : c'.wide = c.wide)
    (needsWide : c'.needsWide = c.needsWide) : Noted settled c c' where
  wide := wide
  stays := needsWide.trans
  found hn := .inl (needsWide.symm.trans hn)

theorem Code.noted_settle {settled : Nat → Nat → Prop} {c c' : Code} {pc target : Nat}
    (hsettled : settled pc target) (h : (c.patch pc target).SameBesideBytes c') :
    Noted settled c c' where
  wide := h.wide.trans (c.patch_wide pc target)
  stays hn := h.needsWide.trans ((c.patch_needsWide_iff pc target).mpr (.inl hn))
  found hn := by
    rcases (c.patch_needsWide_iff pc target).mp (h.needsWide.symm.trans hn) with hn | ⟨hwide, hfar⟩
    · exact .inl hn
    · exact .inr ⟨hwide, pc, target, hsettled, hfar⟩

/-- How a step may end that was taken where the code was `c`. -/
inductive Noting (settled : Nat → Nat → Prop) (c : Code) {α : Type} :
    EStateM.Result Error MethodState α → Prop
  | ok {a : α} {s : MethodState} (h : c.Noted settled s.asm.code) : Noting settled c (.ok a s)
  | error {e : Error} {s : MethodState}
      (h : e.isOverflow = true → e = .codeSizeOverflow ∧ c.wide = false) :
      Noting settled c (.error e s)

theorem Noting.plain {settled : Nat → Nat → Prop} {c : Code} {α : Type} {e : Error}
    {s : MethodState} (h : e.isOverflow = false) : Noting settled c (α := α) (.error e s) :=
  .error fun he => nomatch h.symm.trans he

namespace Built

variable {r : Option Resolver} {scopes : Bool} {σ α : Type} [Part σ] {x : EStateM Error σ α}

/-- What is built on a part of the state is built on all of it. -/
theorem lift (h : Built r scopes x) : Built r scopes (Part.lift x) := by
  induction h with
  | pure => rw [Part.lift_pure]; exact .pure
  | throw plain => rw [Part.lift_throw]; exact .throw plain
  | bind _ _ ihx ihf => rw [Part.lift_bind]; exact ihx.bind ihf
  | code => rw [Part.lift_emit]; exact .inGen .code
  | update keeps => rw [Part.lift_emit]; exact .inGen (.update keeps)
  | settle pc target keeps => rw [Part.lift_emit]; exact .inGen (.settle pc target keeps)
  | onCode _ ih => rw [Part.lift_onCode]; exact ih
  | pooled put => rw [← Part.lift_onAsm, Part.lift_self]; exact .onAsm (.pooled put)
  | onAsm _ ih => rw [Part.lift_onAsm]; exact ih
  | look ignores rest => rw [Part.lift_self]; exact .look ignores rest
  | note g ignores => rw [Part.lift_self]; exact .note g ignores
  | report span limit => rw [Part.lift_self]; exact .report span limit
  | checkDimensions span t => rw [Part.lift_self]; exact .checkDimensions span t
  | checkString span c => rw [Part.lift_self]; exact .checkString span c
  | appendMethod h t => rw [Part.lift_self]; exact .appendMethod h t
  | onScopes h sized => rw [Part.lift_self]; exact .onScopes h sized
  | addCatch h span row => rw [Part.lift_self]; exact .addCatch h span row

end Built

section

variable {r : Option Resolver} {α β : Type}

theorem Noting.bind {x : Gen α} {f : α → Gen β} (hx : Built r true x)
    (hf : ∀ a, Built r true (f a)) {s : MethodState}
    (hfirst : Noting (SettlesBranch r x s) s.asm.code (x s))
    (hrest : ∀ a s', Noting (SettlesBranch r (f a) s') s'.asm.code (f a s')) :
    Noting (SettlesBranch r (x >>= f) s) s.asm.code ((x >>= f) s) := by
  show Noting _ _ (EStateM.bind x f s)
  unfold EStateM.bind
  cases hrun : x s with
  | error e s' =>
      rw [hrun] at hfirst
      cases hfirst with
      | error h => exact .error h
  | ok a s' =>
      rw [hrun] at hfirst
      cases hfirst with
      | ok h =>
          dsimp only
          cases hlast : f a s' with
          | error e s'' =>
              have hnoting := hrest a s'
              rw [hlast] at hnoting
              cases hnoting with
              | error h' => exact .error fun he => ⟨(h' he).1, h.wide ▸ (h' he).2⟩
          | ok b s'' =>
              have hnoting := hrest a s'
              rw [hlast] at hnoting
              cases hnoting with
              | ok h' =>
                  refine .ok ⟨h'.wide.trans h.wide, h'.stays ∘ h.stays, fun hn => ?_⟩
                  -- the note was made by the rest, or it was there before, or the step made it
                  rcases h'.found hn with hmid | ⟨hwide, pc, target, hsettles, hfar⟩
                  · rcases h.found hmid with hn | ⟨hwide, pc, target, hsettles, hfar⟩
                    · exact .inl hn
                    · exact .inr ⟨hwide, pc, target, .first hx hf hsettles, hfar⟩
                  · exact .inr ⟨h.wide ▸ hwide, pc, target, .later hx hf hrun hsettles, hfar⟩

theorem Noting.mono {settled settled' : Nat → Nat → Prop} {c : Code}
    {res : EStateM.Result Error MethodState α} (h : Noting settled c res)
    (hsettled : ∀ pc target, settled pc target → settled' pc target) : Noting settled' c res := by
  cases h with
  | ok h =>
      refine .ok ⟨h.wide, h.stays, fun hn => (h.found hn).imp_right ?_⟩
      rintro ⟨hwide, pc, target, hs, hfar⟩
      exact ⟨hwide, pc, target, hsettled pc target hs, hfar⟩
  | error h => exact .error h

theorem Gen.noting_onScopes {settled : Nat → Nat → Prop} {x : Scoping α} (h : NoOverflow x)
    (s : MethodState) : Noting settled s.asm.code (Gen.onScopes x s) := by
  dsimp only [Gen.onScopes]
  split
  · exact .ok (Code.noted_of_same rfl rfl)
  · rename_i e scopes hx
    exact .plain (h _ e _ hx)

/-- Only a protected region too long for narrow jumps asks for wide ones. -/
theorem Gen.noting_addCatch {settled : Nat → Nat → Prop} (span : Span) (row : CatchRow)
    (s : MethodState) : Noting settled s.asm.code (Gen.addCatch span row s) := by
  show Noting settled s.asm.code ((if row.start = row.stop then pure ⟨⟩
    else if row.start ≤ Limit.max16 ∧ row.stop ≤ Limit.max16 ∧ row.handler ≤ Limit.max16 then
      touch (·.addCatch row)
    else do if ← peek (·.wide) then report span .tryRange else throw .codeSizeOverflow) s)
  split
  · exact .ok (Code.noted_of_same rfl rfl)
  split
  · exact .ok (Code.noted_of_same (Code.addCatch_wide ..) (Code.addCatch_needsWide ..))
  show Noting settled s.asm.code
    ((if s.asm.code.wide then report span .tryRange else throw .codeSizeOverflow) s)
  split
  · exact .ok (Code.noted_of_same rfl rfl)
  · rename_i hnarrow
    exact .error fun _ => ⟨rfl, Bool.not_eq_true _ ▸ hnarrow⟩

theorem Context.noting_appendMethod {settled : Nat → Nat → Prop} {ctx : Context}
    (h : ctx.resolver.IsPlain) (t : Ty) (s : MethodState) :
    Noting settled s.asm.code (ctx.appendMethod t s) := by
  rcases ctx.appendMethod_cases t s with ⟨m, -, hrun⟩ | ⟨m, -, hrun⟩ | ⟨e, -, he, hrun⟩
  · rw [hrun]
    exact .ok (Code.noted_of_same rfl rfl)
  · rw [hrun]
    exact .ok (Code.noted_of_same rfl rfl)
  · rw [hrun]
    exact .plain (Error.isPlain_iff.mp (h _ _ _ e he)).1

namespace Built

variable {σ : Type} [Part σ]

/-- Along generated code, a branch that is too long goes on record and stays there, and
nothing else does. -/
theorem noting {x : EStateM Error σ α} (h : Built r true x) (s : MethodState) :
    Noting (SettlesBranch r (Part.lift x) s) s.asm.code (Part.lift x s) := by
  induction h generalizing s with
  | pure =>
      rw [Part.lift_pure]
      exact .ok (Code.noted_of_same rfl rfl)
  | throw plain =>
      rw [Part.lift_throw]
      exact .plain (Error.isPlain_iff.mp plain).1
  | bind hx hf ihx ihf =>
      rw [Part.lift_bind]
      exact .bind hx.lift (fun a => (hf a).lift) (ihx s) ihf
  | code => exact .ok (Code.noted_of_same rfl rfl)
  | update keeps => exact .ok (Code.noted_of_same (keeps _).wide (keeps _).needsWide)
  | settle pc target keeps => exact .ok (Code.noted_settle (.here keeps) (keeps _))
  | onCode _ ih =>
      rw [Part.lift_onCode]
      exact ih s
  | pooled put => exact .ok (Code.noted_of_same rfl rfl)
  | onAsm _ ih =>
      rw [Part.lift_onAsm]
      exact ih s
  | look ignores rest ih =>
      have hrest := ih s s
      rw [Part.lift_self] at hrest ⊢
      exact hrest.mono fun _ _ h => .look h
  | note g ignores => exact .ok (Code.noted_of_same rfl rfl)
  | report span limit => exact .ok (Code.noted_of_same rfl rfl)
  | checkDimensions span t => exact .ok (Code.noted_of_same rfl rfl)
  | checkString span c => exact .ok (Code.noted_of_same rfl rfl)
  | appendMethod h t =>
      rw [Part.lift_self]
      exact Context.noting_appendMethod h.plain t s
  | onScopes h sized =>
      rw [Part.lift_self]
      exact Gen.noting_onScopes sized s
  | addCatch h span row =>
      rw [Part.lift_self]
      exact Gen.noting_addCatch span row s

theorem noting_self {x : Gen α} (h : Built r true x) (s : MethodState) :
    Noting (SettlesBranch r x s) s.asm.code (x s) := by
  have hnoting := h.noting s
  rwa [Part.lift_self] at hnoting

theorem noted {x : Gen α} (h : Built r true x) {s s' : MethodState} {a : α}
    (run : x s = .ok a s') : Code.Noted (SettlesBranch r x s) s.asm.code s'.asm.code := by
  have hnoting := h.noting_self s
  rw [run] at hnoting
  cases hnoting with
  | ok h => exact h

/-- Generated code that fails for its size was written with narrow jumps. -/
theorem overflow {x : Gen α} (h : Built r true x) {s s' : MethodState} {e : Error}
    (run : x s = .error e s') (he : e.isOverflow = true) :
    e = .codeSizeOverflow ∧ s.asm.code.wide = false := by
  have hnoting := h.noting_self s
  rw [run] at hnoting
  cases hnoting with
  | error h => exact h he

end Built

/-- A narrow branch that is too long is on record at the end of the run that settles it. -/
theorem SettlesBranch.needsWide {x : Gen α} {s s' : MethodState} {a : α} {pc target : Nat}
    (h : SettlesBranch r x s pc target) (hwide : s.asm.code.wide = false)
    (hfar : ¬ Code.Near pc target) (run : x s = .ok a s') : s'.asm.code.needsWide = true := by
  induction h generalizing s' with
  | here keeps =>
      cases run
      exact (keeps _).needsWide.trans ((Code.patch_needsWide_iff ..).mpr (.inr ⟨hwide, hfar⟩))
  | look _ ih => exact ih hwide hfar run
  | first hx hf _ ih =>
      obtain ⟨b, s₁, hfirst, hrest⟩ := EStateM.bind_eq_ok.mp run
      exact ((hf b).noted hrest).stays (ih hwide hfar hfirst)
  | later hx hf hfirst _ ih =>
      obtain ⟨b, s₁, hfirst', hrest⟩ := EStateM.bind_eq_ok.mp run
      rw [hfirst] at hfirst'
      cases hfirst'
      exact ih ((hx.noted hfirst).wide.trans hwide) hfar hrest

/-- Code written with narrow jumps asks for wide ones exactly if a branch was settled that is
too long for a narrow one. -/
theorem Built.needsWide_iff {x : Gen α} (h : Built r true x) {s s' : MethodState} {a : α}
    (run : x s = .ok a s') (hwide : s.asm.code.wide = false)
    (hclear : s.asm.code.needsWide = false) :
    s'.asm.code.needsWide = true ↔ ∃ pc target, SettlesBranch r x s pc target ∧
      ¬ Code.Near pc target := by
  constructor
  · intro hn
    rcases (h.noted run).found hn with hn | ⟨-, hfar⟩
    · exact nomatch hclear.symm.trans hn
    · exact hfar
  · rintro ⟨pc, target, hsettles, hfar⟩
    exact hsettles.needsWide hwide hfar run

end

end StackCode
