import StackCode.Proofs.LockstepExpressions
import StackCode.Proofs.OrderlyRegions

/-!
# Code that is left alone

Code that is written changes in two ways only: an open branch gets its offset, and a trailing
`goto` is taken back. Both concern the bytes of a branch that someone holds. A stretch of code
therefore stays what it is as long as none of the open branches lies in it, wherever they are
held: by the code itself, by the scopes, or by the condition at hand.

`Zone` is such a stretch, and `Spares z l l' x Q` says of a step that it leaves the zone alone
and that whatever it answers with is off the zone, as `Q` has it. A branch that is written in
dead code has no bytes of its own, so the two flags follow whether control is known to be here.
-/

set_option maxRecDepth 4000

namespace StackCode

/-- A stretch of the code. -/
structure Zone where
  lo : ℕ
  hi : ℕ
  /-- only in front of all code a zone may be empty -/
  proper : lo < hi ∨ hi = 0
  /-- whether jumps are wide -/
  wide : Bool
  /-- the first scope whose jumps are settled while the zone is looked at -/
  base : ℕ

namespace Zone

/-- The length of the branch that an open branch is patched in. -/
def reach (z : Zone) : ℕ := if z.wide then 5 else 3

/-- A branch at `pc` lies off the zone. -/
def Off (z : Zone) (pc : ℕ) : Prop := pc + z.reach ≤ z.lo ∨ z.hi ≤ pc

/-- All branches of a chain lie off the zone. -/
def Avoids (z : Zone) (chain : Chain) : Prop := ∀ link ∈ chain, z.Off link.pc

/-- The zone is in the code, and no branch that waits lies in it. -/
structure Clear (z : Zone) (c : Code) : Prop where
  wide : c.wide = z.wide
  behind : z.hi ≤ c.pc
  pending : z.Avoids c.pending

/-- The scopes from the base on hold no jump in the zone. -/
structure Apart (z : Zone) (σ : Scopes) : Prop where
  base : z.base ≤ σ.depth
  off : ∀ id : ℕ, z.base ≤ id → z.Avoids (σ.get id).exit ∧ z.Avoids (σ.get id).cont

/-- The zone is in the code of the state, and no branch that may be settled lies in it; if
`live`, control is here. -/
structure Holds (z : Zone) (live : Bool) (s : MethodState) : Prop extends z.Clear s.asm.code where
  scopes : z.Apart s.scopes
  live : live = true → s.asm.code.reachable = true

/-- From one code to the other the zone stays what it is. -/
structure Spared (z : Zone) (c c' : Code) : Prop extends z.Clear c' where
  same : Agree c.bytes c'.bytes z.lo z.hi

variable {z : Zone} {c c' c'' : Code} {chain chain' : Chain}

@[simp] theorem Avoids.nil : z.Avoids [] := by simp [Avoids]

@[simp] theorem avoids_cons {link : Link} :
    z.Avoids (link :: chain) ↔ z.Off link.pc ∧ z.Avoids chain := List.forall_mem_cons

theorem Avoids.merge {merged : Chain} (h : z.Avoids chain) (h' : z.Avoids chain')
    (hmerge : chain.merge chain' = .ok merged) : z.Avoids merged := by
  intro link hlink
  rcases List.mem_append.mp ((Chain.merge_perm hmerge).mem_iff.mp hlink) with hlink | hlink
  · exact h link hlink
  · exact h' link hlink

theorem Clear.refl (h : z.Clear c) : z.Spared c c := ⟨h, .refl _ _ _⟩

theorem Spared.trans (h : z.Spared c c') (h' : z.Spared c' c'') : z.Spared c c'' :=
  ⟨h'.toClear, h.same.trans h'.same⟩

/-- Nothing is done to the bytes or to the branches that wait. -/
theorem Clear.still (h : z.Clear c) (hwide : c'.wide = c.wide) (hbytes : c'.bytes = c.bytes)
    (hpending : c'.pending = c.pending) : z.Spared c c' where
  wide := hwide.trans h.wide
  behind := by
    rw [Code.pc, hbytes]
    exact h.behind
  pending := hpending ▸ h.pending
  same := hbytes ▸ .refl _ _ _

theorem Clear.emptied (h : z.Clear c) : z.Spared c { c with pending := [] } :=
  ⟨⟨h.wide, h.behind, Avoids.nil⟩, .refl _ _ _⟩

theorem Clear.waiting (h : z.Clear c) (hchain : z.Avoids chain) :
    z.Spared c { c with pending := chain } :=
  ⟨⟨h.wide, h.behind, hchain⟩, .refl _ _ _⟩

theorem Clear.written (h : z.Clear c) (bs : Array UInt8) : z.Spared c (c.written bs) where
  wide := h.wide
  behind := by
    have hbehind := h.behind
    simp only [Code.pc, Code.written, Array.size_append] at hbehind ⊢
    omega
  pending := h.pending
  same := (Agree.append c.bytes bs z.lo).mono (Nat.le_refl _) h.behind

theorem Clear.markLine (h : z.Clear c) : z.Spared c c.markLine := by
  obtain ⟨line, lines, hline, -⟩ := c.markLine_eq
  rw [hline]
  exact h.still rfl rfl rfl

theorem Clear.applyEffect (h : z.Clear c) (e : Effect) : z.Spared c (c.applyEffect e) :=
  h.still (by simp) (by simp) (by simp)

/-! ### Overwriting -/

theorem agree_set1 {pc lo hi : ℕ} (c : Code) (b : UInt8) (hout : hi ≤ pc ∨ pc < lo) :
    Agree c.bytes (c.set1 pc b).bytes lo hi := by
  intro k hlo hhi
  rw [Code.getElem?_set1, if_neg (by omega)]

theorem agree_set2 {pc lo hi : ℕ} (c : Code) (w : UInt16) (hout : hi ≤ pc ∨ pc + 2 ≤ lo) :
    Agree c.bytes (c.set2 pc w).bytes lo hi :=
  (agree_set1 c _ (by omega)).trans (agree_set1 _ _ (by omega))

theorem agree_set4 {pc lo hi : ℕ} (c : Code) (n : Int32) (hout : hi ≤ pc ∨ pc + 4 ≤ lo) :
    Agree c.bytes (c.set4 pc n).bytes lo hi :=
  (agree_set2 c _ (by omega)).trans (agree_set2 _ _ (by omega))

theorem Clear.set4 (h : z.Clear c) {pc : ℕ} (hpc : z.hi ≤ pc) (n : Int32) :
    z.Spared c (c.set4 pc n) where
  wide := h.wide
  behind := by
    rw [Code.pc, Code.size_set4]
    exact h.behind
  pending := h.pending
  same := agree_set4 c n (.inl hpc)

/-- An open branch off the zone gets its offset. -/
theorem Clear.patch (h : z.Clear c) {pc : ℕ} (hpc : z.Off pc) (target : ℕ) :
    z.Spared c (c.patch pc target) := by
  obtain ⟨bs, n, heq⟩ := c.patch_eq pc target
  refine ⟨⟨?_, ?_, ?_⟩, ?_⟩
  · rw [Code.patch_wide, h.wide]
  · rw [Code.pc, Code.size_patch]
    exact h.behind
  · rw [heq]
    exact h.pending
  · unfold Off reach at hpc
    unfold Code.patch
    dsimp only
    rw [h.wide]
    split
    · rename_i hwide
      rw [hwide, if_pos rfl] at hpc
      exact agree_set4 c _ (by omega)
    · rename_i hwide
      rw [if_neg hwide] at hpc
      split
      · exact .refl _ _ _
      · exact agree_set2 c _ (by omega)

/-- A trailing `goto` off the zone is taken back. -/
theorem Clear.dropTail (h : z.Clear c) {link : Link} {target : ℕ} (hlink : z.Off link.pc)
    (hends : c.endsWithGoto link target = true) : z.Spared c (c.dropTail 3) := by
  obtain ⟨vars, slots, heq⟩ := c.dropTail_eq 3
  have hbehind := h.behind
  have hproper := z.proper
  simp only [Code.endsWithGoto, Bool.and_eq_true, beq_iff_eq] at hends
  have hpc : z.hi ≤ c.pc - 3 := by
    unfold Off reach at hlink
    split at hlink <;> omega
  refine ⟨⟨?_, ?_, ?_⟩, ?_⟩
  · rw [heq]
    exact h.wide
  · rw [Code.size_dropTail]
    exact hpc
  · rw [heq]
    exact h.pending
  · rw [heq]
    exact (Agree.shrink c.bytes z.lo (c.pc - 3)).mono (Nat.le_refl _) hpc

theorem Clear.land (h : z.Clear c) (link : Link) (target : ℕ) (joined : Option Frame) :
    z.Spared c (c.land link target joined).1 := by
  unfold Code.land
  dsimp only
  split
  · split <;> exact h.still rfl rfl rfl
  · exact h.still rfl rfl rfl

/-- All branches of a chain off the zone get their target. -/
theorem Clear.resolveLinks (h : z.Clear c) (hchain : z.Avoids chain) {target : ℕ}
    {joined joined' : Option Frame}
    (hrun : Emit.resolveLinks chain target joined c = .ok joined' c') :
    z.Spared c c' := by
  induction chain generalizing c target joined with
  | nil =>
      cases hrun
      exact h.refl
  | cons link rest ih =>
      obtain ⟨hlink, hrest⟩ := avoids_cons.mp hchain
      rcases Emit.resolveLinks_cons_ok hrun with ⟨hends, ⟨-, -, rfl⟩ | hrun⟩ | ⟨-, -, hrun⟩
      · have hdrop := h.dropTail hlink hends
        exact hdrop.trans (hdrop.toClear.still rfl rfl rfl)
      · have hdrop := h.dropTail hlink hends
        have hland := hdrop.trans (hdrop.toClear.land link (min target c.pc - 3) joined)
        exact hland.trans (ih hland.toClear hrest hrun)
      · have hpatch := h.patch hlink (min target c.pc)
        have hland := hpatch.trans (hpatch.toClear.land link (min target c.pc) joined)
        exact hland.trans (ih hland.toClear hrest hrun)

theorem Clear.resolveTo (h : z.Clear c) (hchain : z.Avoids chain) {target : ℕ}
    (hrun : Emit.resolveTo chain target c = .ok () c') : z.Spared c c' := by
  obtain ⟨joined, c₁, hlinks, hrun⟩ := EStateM.bind_eq_ok.mp hrun
  have hspared := h.resolveLinks hchain hlinks
  cases joined with
  | none =>
      cases hrun
      exact hspared
  | some frame =>
      cases hrun
      exact hspared.trans (hspared.toClear.still rfl rfl rfl)

theorem Clear.resolvePending (h : z.Clear c) (hrun : Emit.resolvePending c = .ok () c') :
    z.Spared c c' := by
  obtain ⟨_, _, hget, hrun⟩ := EStateM.bind_eq_ok.mp hrun
  cases hget
  split at hrun
  · cases hrun
    exact h.refl
  · obtain ⟨⟨⟩, c₁, hmod, hrun⟩ := EStateM.bind_eq_ok.mp hrun
    cases hmod
    exact h.emptied.trans (h.emptied.toClear.resolveTo h.pending hrun)

end Zone

/-! ### Coming to life -/

namespace Emit

variable {c c' : Code}

/-- A branch that lands at the end of the code brings control there. -/
theorem alive_resolveLinks {chain : Chain} {target : ℕ} {joined joined' : Option Frame}
    (h : c.alive = true ∨ chain ≠ [] ∧ c.pc ≤ target)
    (hrun : resolveLinks chain target joined c = .ok joined' c') : c'.alive = true := by
  induction chain generalizing c target joined with
  | nil =>
      cases hrun
      exact h.resolve_right fun h => h.1 rfl
  | cons link rest ih =>
      have hland {d : Code} {t : ℕ} (h : d.alive = true ∨ d.pc = t) :
          (d.land link t joined).1.alive = true := by
        unfold Code.land
        dsimp only
        split
        · split
          · rfl
          · rename_i hd
            simpa using hd
        · rename_i hne
          exact h.resolve_right hne
      rcases resolveLinks_cons_ok hrun with ⟨hends, ⟨-, -, rfl⟩ | hrun⟩ | ⟨-, -, hrun⟩
      · rfl
      · simp only [Code.endsWithGoto, Bool.and_eq_true, beq_iff_eq] at hends
        refine ih (.inl (hland (.inr ?_))) hrun
        rw [Code.size_dropTail, hends.1.2]
      · refine ih (.inl (hland ?_)) hrun
        obtain ⟨bs, n, heq⟩ := c.patch_eq link.pc (min target c.pc)
        refine h.imp (fun halive => ?_) fun h => ?_
        · rw [heq]
          exact halive
        · rw [Code.pc, Code.size_patch]
          exact (Nat.min_eq_right h.2).symm

/-- Where control comes, by falling in or by a branch that waits, it is here afterwards. -/
theorem alive_resolvePending (h : c.reachable = true) (hrun : resolvePending c = .ok () c') :
    c'.alive = true := by
  obtain ⟨_, _, hget, hrun⟩ := EStateM.bind_eq_ok.mp hrun
  cases hget
  split at hrun
  · rename_i hnil
    cases hrun
    simpa [Code.reachable, hnil] using h
  · rename_i hne
    obtain ⟨⟨⟩, c₁, hmod, hrun⟩ := EStateM.bind_eq_ok.mp hrun
    cases hmod
    obtain ⟨joined, c₂, hlinks, hrun⟩ := EStateM.bind_eq_ok.mp hrun
    have hhere : Code.pc { c with pending := [] } ≤ c.pc := Nat.le_refl _
    have halive := alive_resolveLinks (.inr ⟨by simpa using hne, hhere⟩) hlinks
    cases joined with
    | none =>
        cases hrun
        exact halive
    | some frame =>
        cases hrun
        exact halive

end Emit

theorem Code.reachable_of_alive {c : Code} (h : c.alive = true) : c.reachable = true := by
  simp [reachable, h]

/-! ### Steps -/

/-- Whenever the step succeeds where no branch lies in the zone, the zone stays what it is, no
branch lies in it, and the answer is as `Q` says. Control is there before if `l`, after if `l'`. -/
def Spares {σ α : Type} [Part σ] (z : Zone) (l l' : Bool) (x : EStateM Error σ α)
    (Q : α → Prop) : Prop :=
  ∀ s a p, x (Part.get s) = .ok a p → z.Holds l s → z.Holds l' (Part.put p s) ∧
    Agree s.asm.code.bytes (Part.put p s).asm.code.bytes z.lo z.hi ∧ Q a

/-- A step that answers with nothing to hold and lets control go on. -/
def Steady {σ α : Type} [Part σ] (z : Zone) (l : Bool) (x : EStateM Error σ α) : Prop :=
  Spares z l l x fun _ => True

namespace Zone.Holds

variable {z : Zone} {l : Bool} {s : MethodState}

theorem withCode {c : Code} {l' : Bool} (h : z.Holds l s) (hc : z.Clear c)
    (hlive : l' = true → c.reachable = true) : z.Holds l' (Part.put c s) :=
  ⟨hc, h.scopes, hlive⟩

end Zone.Holds

namespace Spares

variable {σ α β : Type} [Part σ] {z : Zone} {l l' l'' : Bool} {x : EStateM Error σ α}
  {f : α → EStateM Error σ β} {P Q : α → Prop} {R : β → Prop}

theorem mono (h : Spares z l l' x P) (hPQ : ∀ a, P a → Q a) : Spares z l l' x Q :=
  fun s a p hx hs => (h s a p hx hs).imp_right (.imp_right (hPQ a))

/-- More may be known of where control is before, and less afterwards. -/
theorem relax {k k' : Bool} (h : Spares z l l' x Q) (hpre : l = true → k = true)
    (hpost : k' = true → l' = true) : Spares z k k' x Q := by
  intro s a p hx hs
  obtain ⟨hs', hrest⟩ := h s a p hx ⟨hs.toClear, hs.scopes, hs.live ∘ hpre⟩
  exact ⟨⟨hs'.toClear, hs'.scopes, hs'.live ∘ hpost⟩, hrest⟩

theorem anywhere (h : Spares z false l' x Q) : Spares z l l' x Q := h.relax nofun id

theorem forget (h : Spares z l l' x Q) : Spares z l false x Q := h.relax id nofun

theorem bind (hx : Spares z l l' x P) (hf : ∀ a, P a → Spares z l' l'' (f a) R) :
    Spares z l l'' (x >>= f) R := by
  intro s b p hrun hs
  obtain ⟨a, p₁, hxa, hfa⟩ := EStateM.bind_eq_ok.mp hrun
  obtain ⟨hs₁, hsame₁, hP⟩ := hx s a p₁ hxa hs
  obtain ⟨hs₂, hsame₂, hR⟩ := hf a hP (Part.put p₁ s) b p (by rwa [Part.get_put]) hs₁
  rw [Part.put_put] at hs₂ hsame₂
  exact ⟨hs₂, hsame₁.trans hsame₂, hR⟩

/-- Steps one after the other, when nothing needs to be known of the first answer. -/
theorem next (hx : Spares z l l' x P) (hf : ∀ a, Spares z l' l'' (f a) R) :
    Spares z l l'' (x >>= f) R := hx.bind fun a _ => hf a

theorem pure {a : α} (h : Q a) : Spares z l l (Pure.pure a : EStateM Error σ α) Q := by
  rintro s _ _ ⟨⟩ hs
  rw [Part.put_get]
  exact ⟨hs, .refl _ _ _, h⟩

theorem throw {e : Error} : Spares z l l' (MonadExcept.throw e : EStateM Error σ α) Q := by
  rintro s _ _ ⟨⟩

theorem of_fails (h : Fails x) : Spares z l l' x Q := fun _ a p hx _ => (h _ a p hx).elim

theorem get_bind {f : σ → EStateM Error σ β} (h : ∀ s, Spares z l l' (f s) R) :
    Spares z l l' (MonadState.get >>= f) R := fun s b p hrun hs => h (Part.get s) s b p hrun hs

theorem ite {c : Prop} [Decidable c] {y : EStateM Error σ α} (hx : c → Spares z l l' x Q)
    (hy : ¬ c → Spares z l l' y Q) : Spares z l l' (if c then x else y) Q := by
  split
  · exact hx ‹_›
  · exact hy ‹_›

theorem onCode {x : Emit α} (h : Spares z l l' x Q) : Spares z l l' (Asm.onCode x) Q := by
  intro s a p hrun hs
  obtain ⟨⟨code, pool⟩, scopes, locals, subroutines, letDepth, reports, appends⟩ := s
  simp only [Part.get, Asm.onCode] at hrun
  split at hrun
  · cases hrun
    exact h ⟨⟨code, pool⟩, scopes, locals, subroutines, letDepth, reports, appends⟩ _ _ ‹_› hs
  · cases hrun

theorem onAsm {x : Asm α} (h : Spares z l l' x Q) : Spares z l l' (Gen.onAsm x) Q := by
  intro s a p hrun hs
  obtain ⟨asm, scopes, locals, subroutines, letDepth, reports, appends⟩ := s
  simp only [Part.get, Gen.onAsm] at hrun
  split at hrun
  · cases hrun
    exact h ⟨asm, scopes, locals, subroutines, letDepth, reports, appends⟩ _ _ ‹_› hs
  · cases hrun

theorem onScopes {x : Scoping α} (h : Spares z l l' x Q) : Spares z l l' (Gen.onScopes x) Q := by
  intro s a p hrun hs
  obtain ⟨asm, scopes, locals, subroutines, letDepth, reports, appends⟩ := s
  simp only [Part.get, Gen.onScopes] at hrun
  split at hrun
  · cases hrun
    exact h ⟨asm, scopes, locals, subroutines, letDepth, reports, appends⟩ _ _ ‹_› hs
  · cases hrun

theorem inAsm {x : Emit α} (h : Spares z l l' x Q) : Spares z l l' (liftM x : Asm α) Q := h.onCode

theorem inGen {x : Emit α} (h : Spares z l l' x Q) : Spares z l l' (liftM x : Gen α) Q :=
  h.onCode.onAsm

theorem asmInGen {x : Asm α} (h : Spares z l l' x Q) : Spares z l l' (liftM x : Gen α) Q := h.onAsm

theorem scopesInGen {x : Scoping α} (h : Spares z l l' x Q) : Spares z l l' (liftM x : Gen α) Q :=
  h.onScopes

theorem liftExcept_bind {x : Except Error α} {f : α → Gen β}
    (h : ∀ a, x = .ok a → Spares z l l' (f a) R) :
    Spares z l l' (liftM x >>= f) R := by
  cases x with
  | ok a => exact h a rfl
  | error e => exact .throw

/-- A step on the code alone. -/
theorem of_code {x : Emit α}
    (h : ∀ c a c', x c = .ok a c' → z.Clear c → (l = true → c.reachable = true) → z.Spared c c' ∧
      (l' = true → c'.reachable = true) ∧ Q a) :
    Spares z l l' x Q := by
  intro s a c' hx hs
  obtain ⟨hspared, hlive, hQ⟩ := h s.asm.code a c' hx hs.toClear hs.live
  exact ⟨hs.withCode hspared.toClear hlive, hspared.same, hQ⟩

end Spares

namespace Steady

variable {σ α β : Type} [Part σ] {z : Zone} {l : Bool} {x : EStateM Error σ α}

theorem pure {a : α} : Steady z l (Pure.pure a : EStateM Error σ α) := Spares.pure trivial

theorem throw {e : Error} : Steady z l (MonadExcept.throw e : EStateM Error σ α) := Spares.throw

/-- A step before another one. -/
theorem next {l' : Bool} {f : α → EStateM Error σ β} {Q : β → Prop} (hx : Steady z l x)
    (hf : ∀ a, Spares z l l' (f a) Q) : Spares z l l' (x >>= f) Q := Spares.next hx hf

theorem ite {c : Prop} [Decidable c] {y : EStateM Error σ α} (hx : Steady z l x)
    (hy : Steady z l y) :
    Steady z l (if c then x else y) := Spares.ite (fun _ => hx) fun _ => hy

theorem answers {P : α → Prop} (h : Steady z l x) (hx : Answers x P) : Spares z l l x P :=
  fun s a p hrun hs => (h s a p hrun hs).imp_right (.imp_right fun _ => hx _ a p hrun)

/-- A step that may be left out. -/
theorem optional {c : Prop} [Decidable c] {y : EStateM Error σ PUnit} {l' : Bool}
    {f : PUnit → EStateM Error σ β} {Q : β → Prop} (hy : Steady z l y)
    (hf : ∀ a, Spares z l l' (f a) Q) : Spares z l l' (if c then y >>= f else f ⟨⟩) Q :=
  .ite (fun _ => hy.next hf) fun _ => hf _

theorem forM {xs : List α} {f : α → EStateM Error σ PUnit} (h : ∀ a ∈ xs, Steady z l (f a)) :
    Steady z l (xs.forM f) := by
  induction xs with
  | nil => exact .pure
  | cons a xs ih =>
      exact .next (h a (List.mem_cons_self ..)) fun _ => ih fun b hb =>
        h b (List.mem_cons_of_mem a hb)

theorem liftExcept {x : Except Error α} : Steady z l (liftM x : Gen α) := by
  cases x with
  | ok a => exact .pure
  | error e => exact .throw

/-- A step on the pool. -/
theorem pooled (put : Pool → UInt16 × Pool) : Steady z l (Asm.pooled put) := by
  rintro s _ _ ⟨⟩ hs
  exact ⟨⟨hs.toClear, hs.scopes, hs.live⟩, .refl _ _ _, trivial⟩

/-- A change of the code that concerns neither its bytes nor its branches. -/
theorem change {f : Code → Code} (h : ∀ c, (f c).wide = c.wide ∧ (f c).bytes = c.bytes ∧
    (f c).pending = c.pending ∧ (f c).alive = c.alive) : Steady z l (modify f : Emit Unit) := by
  refine .of_code fun c _ c' hrun hc hlive => ?_
  cases hrun
  obtain ⟨hwide, hbytes, hpending, halive⟩ := h c
  refine ⟨hc.still hwide hbytes hpending, fun hl => ?_, trivial⟩
  rw [Code.reachable, hpending, halive]
  exact hlive hl

theorem modifyGet {f : Code → α × Code} (h : ∀ c, (f c).2.wide = c.wide ∧ (f c).2.bytes = c.bytes ∧
    (f c).2.pending = c.pending ∧ (f c).2.alive = c.alive) : Steady z l (modifyGet f : Emit α) := by
  refine .of_code fun c _ c' hrun hc hlive => ?_
  cases hrun
  obtain ⟨hwide, hbytes, hpending, halive⟩ := h c
  refine ⟨hc.still hwide hbytes hpending, fun hl => ?_, trivial⟩
  rw [Code.reachable, hpending, halive]
  exact hlive hl

end Steady

/-! ### Writing -/

namespace Emit

variable {z : Zone} {l : Bool}

/-- An instruction is written behind the zone. -/
theorem Writes.steady {x : Emit Unit} {enc : Array UInt8} {e : Effect} {P : Prop}
    (h : Writes x enc e P) (he : l = true → e.goesOn = true) : Steady z l x := by
  refine .of_code fun c _ c' hrun hc hlive => ?_
  obtain ⟨c₁, hpending, hc'⟩ := h c c' hrun
  have hspared := hc.resolvePending hpending
  rcases hc' with ⟨hdead, rfl⟩ | ⟨halive, -, -, rfl⟩
  · refine ⟨hspared, fun hl => ?_, trivial⟩
    rw [alive_resolvePending (hlive hl) hpending] at hdead
    cases hdead
  · have hline := hspared.trans hspared.toClear.markLine
    have hwritten := hline.trans (hline.toClear.written enc)
    refine ⟨hwritten.trans (hwritten.toClear.applyEffect e), fun hl => ?_, trivial⟩
    refine Code.reachable_of_alive ?_
    rw [Code.alive_applyEffect, he hl, Bool.and_true]
    show c₁.markLine.alive = true
    rw [Code.alive_markLine, halive]

theorem steady_plain {op : Opcode} (h : l = true → op.IsStraight) : Steady z l (plain op) :=
  (writes_plain op).steady fun hl => (h hl).2.2

/-- Any instruction, if it need not be known that control goes on. -/
theorem steady_last (op : Opcode) : Steady z false (plain op) := steady_plain nofun

theorem steady_byte {op : Opcode} (h : op.IsStraight) (b : UInt8) : Steady z l (byte op b) :=
  (writes_byte op b).steady fun _ => h.2.2

theorem steady_register {op : Opcode} (h : l = true → op.IsStraight) (reg : UInt16) :
    Steady z l (register op reg) := (writes_register op reg).steady fun hl => (h hl).2.2

theorem steady_short {op : Opcode} (h : op.IsStraight) (w : UInt16) : Steady z l (short op w) :=
  (writes_short op w).steady fun _ => h.2.2

theorem steady_ldc (index : UInt16) (k : Kind) : Steady z l (ldc index k) :=
  (writes_ldc index k).steady fun _ => rfl

theorem steady_field {op : Opcode} (index : UInt16) (k : Kind)
    (hop : op = .getstatic ∨ op = .putstatic ∨ op = .getfield ∨ op = .putfield) :
    Steady z l (field op index k) := by
  refine (writes_field op index k).steady fun _ => ?_
  rcases hop with rfl | rfl | rfl | rfl <;> rfl

theorem steady_invoke (op : Opcode) (index : UInt16) (words : ℕ) (k : Kind) :
    Steady z l (invoke op index words k) := (writes_invoke op index words k).steady fun _ => rfl

theorem steady_multiarray (dims : UInt8) (index : UInt16) : Steady z l (multiarray dims index) :=
  (writes_multiarray dims index).steady fun _ => rfl

theorem steady_iinc (reg : UInt16) (delta : Int16) : Steady z l (iinc reg delta) :=
  (writes_iinc reg delta).steady fun _ => rfl

theorem steady_pad (n : ℕ) : Steady z l (pad n) := by
  induction n with
  | zero => exact .pure
  | succ n ih => exact (steady_plain fun _ => by decide).next fun _ => ih

theorem steady_align (unit : ℕ) : Steady z l (align unit) := by
  refine .get_bind fun _ => .get_bind fun _ => .ite (fun _ => ?_) fun _ => .pure trivial
  exact (steady_plain fun _ => by decide).next fun _ => .get_bind fun _ => steady_pad _

/-! ### Branches -/

theorem spares_resolve {chain : Chain} {l : Bool} (h : z.Avoids chain) :
    Spares z l (l || !chain.isEmpty) (resolve chain) fun _ => True := by
  refine .of_code fun c _ c' hrun hc hlive => ?_
  obtain ⟨merged, hmerge, rfl⟩ := resolve_ok hrun
  refine ⟨hc.waiting (h.merge hc.pending hmerge), fun hl => ?_, trivial⟩
  have hempty : merged.isEmpty = (chain.isEmpty && c.pending.isEmpty) := by
    rw [(Chain.merge_perm hmerge).isEmpty_eq]
    cases chain <;> rfl
  show (c.alive || !merged.isEmpty) = true
  rw [hempty]
  rw [Code.reachable] at hlive
  cases l <;> cases hchain : chain.isEmpty <;> simp_all

theorem steady_resolve {chain : Chain} (h : z.Avoids chain) : Steady z l (resolve chain) := by
  cases l with
  | true => exact spares_resolve h
  | false => exact (spares_resolve h).forget

theorem steady_resolveTo {chain : Chain} (target : ℕ) (h : z.Avoids chain) :
    Steady z false (resolveTo chain target) := by
  refine .of_code fun c _ c' hrun hc _ => ⟨hc.resolveTo h hrun, nofun, trivial⟩

theorem spares_curPc : Spares z l l curPc fun pc => z.hi ≤ pc := by
  refine .of_code fun c pc c' hrun hc hlive => ?_
  obtain ⟨c₁, hpending, rfl, rfl⟩ := curPc_ok hrun
  have hspared := hc.resolvePending hpending
  have hline := hspared.trans hspared.toClear.markLine
  refine ⟨hline.trans (hline.toClear.still rfl rfl rfl), fun hl => Code.reachable_of_alive ?_,
    hline.behind⟩
  show c₁.markLine.alive = true
  rw [Code.alive_markLine]
  exact alive_resolvePending (hlive hl) hpending

/-- Control is brought here. -/
theorem spares_revive {f : Code → Code}
    (h : ∀ c, (f c).wide = c.wide ∧ (f c).bytes = c.bytes ∧ (f c).pending = c.pending ∧
      (f c).alive = true) :
    Spares z l true (modify f : Emit Unit) fun _ => True := by
  refine .of_code fun c _ c' hrun hc _ => ?_
  cases hrun
  obtain ⟨hwide, hbytes, hpending, halive⟩ := h c
  exact ⟨hc.still hwide hbytes hpending, fun _ => Code.reachable_of_alive halive, trivial⟩

theorem spares_entry : Spares z l true entry fun pc => z.hi ≤ pc :=
  spares_curPc.bind fun _ hpc => .next (spares_revive fun _ => ⟨rfl, rfl, rfl, rfl⟩)
    fun _ => .pure hpc

theorem spares_entryWith (frame : Frame) : Spares z l true (entryWith frame) fun pc => z.hi ≤ pc :=
  spares_curPc.bind fun _ hpc => .next (spares_revive fun _ => ⟨rfl, rfl, rfl, rfl⟩)
    fun _ => .pure hpc

theorem spares_entryPushed (frame : Frame) (k : Kind) :
    Spares z l true (entryPushed frame k) fun pc => z.hi ≤ pc :=
  (spares_entryWith frame).bind fun _ hpc => .next (Steady.change fun _ => ⟨rfl, rfl, rfl, rfl⟩)
    fun _ => .pure hpc

/-- A branch that is written where control is has bytes of its own, behind the zone. -/
theorem jump_spared {op : Opcode} (h : op.isConditional = true ∨ op = .goto ∨ op = .jsr)
    {c c' : Code} {pc : ℕ} (hrun : jump op c = .ok pc c') (hc : z.Clear c)
    (hlive : c.reachable = true) :
    z.Spared c c' ∧ c'.alive = op.effect.goesOn ∧ z.hi ≤ pc := by
  obtain ⟨c₁, hpending, hc'⟩ := jump_ok h hrun
  have halive := alive_resolvePending hlive hpending
  obtain ⟨rfl, rfl⟩ := hc' halive
  have hspared := hc.resolvePending hpending
  have hline := hspared.trans hspared.toClear.markLine
  have hwritten := hline.trans (hline.toClear.written (jumpBytes c.wide op))
  refine ⟨hwritten.trans (hwritten.toClear.applyEffect _), ?_, ?_⟩
  · rw [Code.alive_applyEffect]
    show (c₁.markLine.alive && _) = _
    rw [Code.alive_markLine, halive, Bool.true_and]
  · have hsize : (if c.wide then 5 else 3) ≤ (jumpBytes c.wide op).size := by
      unfold jumpBytes
      split
      · split <;> simp
      · simp
    have hbehind := hline.behind
    rw [Code.pc_applyEffect]
    simp only [Code.pc, Code.written, Array.size_append] at hbehind ⊢
    omega

theorem spares_jump {op : Opcode} (h : op.isConditional = true ∨ op = .goto ∨ op = .jsr) :
    Spares z true false (jump op) fun pc => z.hi ≤ pc := by
  refine .of_code fun c pc c' hrun hc hlive => ?_
  obtain ⟨hspared, -, hpc⟩ := jump_spared h hrun hc (hlive rfl)
  exact ⟨hspared, nofun, hpc⟩

/-- Control goes on behind a branch that is not a `goto`, and one that is ever taken is
written. -/
theorem spares_branch {op : Opcode} (h : op.IsTest) :
    Spares z l (l && op != .goto) (branch op) fun chain => z.Avoids chain ∧
      (l = true → op ≠ .never → chain ≠ []) := by
  refine .of_code fun c chain c' hrun hc hlive => ?_
  have hc₀ : z.Spared c (if op = .goto then { c with pending := [] } else c) := by
    split
    · exact hc.emptied
    · exact hc.refl
  have hrest : z.Avoids (if op = .goto then c.pending else []) := by
    split
    · exact hc.pending
    · exact Zone.Avoids.nil
  rcases branch_ok rfl rfl hrun with ⟨hskip, rfl, rfl⟩ | ⟨hnever, hreach, pc, c₁, hjump, rfl, rfl⟩
  · refine ⟨hc₀, fun hl => ?_, hrest, fun hl hnever => ?_⟩
    · simp only [Bool.and_eq_true, bne_iff_ne] at hl
      rw [if_neg hl.2]
      exact hlive hl.1
    · have hdead := hskip.resolve_left hnever
      have hreach := hlive hl
      split at hdead
      · simp_all [Code.reachable]
      · rw [hreach] at hdead
        cases hdead
  · have hop : op.isConditional = true ∨ op = .goto ∨ op = .jsr := by
      rcases h with hcond | hgoto | hnv
      · exact .inl hcond
      · exact .inr (.inl hgoto)
      · exact absurd hnv hnever
    obtain ⟨hspared, halive, hpc⟩ := jump_spared hop hjump hc₀.toClear hreach
    refine ⟨(hc₀.trans hspared).trans (hspared.toClear.still rfl rfl rfl), fun hl => ?_,
      ?_, by simp⟩
    · simp only [Bool.and_eq_true, bne_iff_ne] at hl
      refine Code.reachable_of_alive ?_
      have hgoes : op.effect.goesOn = true := by
        rcases h with hcond | hgoto | hnv
        · obtain ⟨-, n, hpop⟩ := effect_negate hcond
          rw [hpop]
          rfl
        · exact absurd hgoto hl.2
        · exact absurd hnv hnever
      simp [halive, hgoes, hl.2]
    · exact Zone.avoids_cons.mpr ⟨.inr hpc, hrest⟩

/-! ### Registers -/

theorem steady_newReg (k : Kind) : Steady z l (newReg k) := .modifyGet fun _ => ⟨rfl, rfl, rfl, rfl⟩

theorem steady_newVar (name : String) (ty : Ty) : Steady z l (newVar name ty) := by
  refine .modifyGet fun c => ?_
  unfold Code.newVar
  dsimp only
  split <;> exact ⟨rfl, rfl, rfl, rfl⟩

theorem steady_endVar (reg : ℕ) : Steady z l (endVar reg) := by
  have htake : Steady z l (modifyGet (·.takeSlot reg) : Emit (Option VarSlot)) := by
    refine .modifyGet fun c => ?_
    unfold Code.takeSlot
    split <;> exact ⟨rfl, rfl, rfl, rfl⟩
  refine htake.next fun slot => ?_
  split
  · exact spares_curPc.next fun _ => .ite (fun _ => Steady.change fun _ => ⟨rfl, rfl, rfl, rfl⟩)
      fun _ => .pure trivial
  · exact .pure trivial

theorem steady_endVars (reg n : ℕ) : Steady z l (endVars reg n) := by
  induction n generalizing reg with
  | zero => exact .pure
  | succ n ih => exact (steady_endVar reg).next fun _ => ih (reg + 1)

theorem steady_endScopes (first : ℕ) : Steady z l (endScopes first) := by
  refine .get_bind fun c => ?_
  dsimp only
  exact Steady.next (.change fun _ => ⟨rfl, rfl, rfl, rfl⟩) fun _ => steady_endVars _ _

end Emit

end StackCode
