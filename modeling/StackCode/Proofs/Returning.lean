import StackCode.Generate.Method
import StackCode.Proofs.Evaluating

/-!
# Statements that return

`Acts ζ x ends T` says of the code of a statement what it does to the machine: from a spot it
takes control to where `T` says, which is the end of the statement or a return, and if `ends` it
never comes to the end. The statements here are those of a method that has nothing to clean up on
its way out: returning a value, `if` without `else`, blocks, and one statement behind another.

The second half is about the method around its body. The parameters get one register after the
other, which is where a caller puts their values (`MethodDecl.Holds`), and `methodBody_succeeds`
says that a method with a body that returns can be generated, and that the machine, once it enters
the code at its beginning, returns what the body returns.
-/

set_option maxRecDepth 4000

namespace StackCode

/-! ### Statements -/

/-- No scope has a cleanup, so leaving one takes no code. -/
def Scopes.Quiet (scopes : Scopes) : Prop :=
  ∀ id, (scopes.get id).cleanup = none ∧ (scopes.get id).hasOpenGap = false

/-- The generator is at a statement of a method without protected regions. -/
structure MethodState.Calm (s : MethodState) : Prop where
  quiet : s.scopes.Quiet
  outer : 0 < s.scopes.depth ∧ (s.scopes.get Scopes.method).kind = .method
  plain : s.letDepth = 0

theorem MethodState.Calm.onward {s s' : MethodState} (h : s.Calm) (h' : s.Onward s') : s'.Calm :=
  ⟨h'.scopes ▸ h.quiet, h'.scopes ▸ h.outer, h'.letDepth.trans h.plain⟩

/-- The statement is generated and takes control to where `T` says. If `ends`, control does not
come behind it. -/
def Acts (ζ : Seating) (x : Gen Unit) (ends : Bool) (T : Spot → Outcome → Prop) : Prop :=
  ∀ ⦃s : MethodState⦄ ⦃O : List Link⦄, s.Ready ζ O 0 → s.Live → s.Flat 0 → s.Calm →
    SucceedsWith x s fun _ s' =>
    s.ControlFlow ζ s' O 0 T ∧ s'.Flat 0 ∧ (ends = true → ¬ s'.Live)

namespace Gen

variable {ζ : Seating} {s : MethodState} {O : List Link} {d : ℕ} {T : Spot → Outcome → Prop}
  {ends : Bool} {x : Gen Unit}

/-- Ending a variable enters at most a row into a table. -/
theorem endVar_succeeds (h : s.Ready ζ O d) (reg : ℕ) :
    SucceedsWith (Emit.endVar reg) s fun _ s' => s.Idles ζ s' O d := by
  have htake : s.asm.code.Idles (s.asm.code.takeSlot reg).2 O d [] := by
    unfold Code.takeSlot
    split <;> exact h.code.idles ⟨rfl, rfl, rfl, fun _ => rfl⟩ rfl rfl rfl rfl rfl ⟨rfl, rfl⟩
  have hs₁ : s.Idles ζ (Part.put (s.asm.code.takeSlot reg).2 s) O d := .of_code h htake
  refine SucceedsWith.bind (P := fun _ s' => s.Idles ζ s' O d) ⟨_, _, rfl, hs₁⟩
    fun slot s₁ hs₁ => ?_
  split
  · refine (Emit.curPc_succeeds hs₁.controlFlow.ready).bind fun pc s₂ hs₂ => ?_
    dsimp only
    split
    · have hrow (vars : Array VarRow) : s₂.asm.code.Idles { s₂.asm.code with vars } O d [] :=
        hs₂.controlFlow.ready.code.idles ⟨rfl, rfl, rfl, fun _ => rfl⟩ rfl rfl rfl rfl
          rfl ⟨rfl, rfl⟩
      exact ⟨(), _, rfl, (hs₁.trans hs₂).trans (.of_code hs₂.controlFlow.ready (hrow _))⟩
    · exact .pure (hs₁.trans hs₂)
  · exact .pure hs₁

theorem endVars_succeeds (h : s.Ready ζ O d) (reg n : ℕ) :
    SucceedsWith (Emit.endVars reg n) s fun _ s' => s.Idles ζ s' O d := by
  induction n generalizing s reg with
  | zero => exact .pure (.refl h)
  | succ n ih =>
      refine (endVar_succeeds h reg).bind fun _ s₁ hs₁ => ?_
      exact (ih hs₁.controlFlow.ready (reg + 1)).mono fun _ s₂ hs₂ => hs₁.trans hs₂

/-- Registers that have not been taken need not be given back. -/
theorem endScopes_succeeds (h : s.Ready ζ O d) {first : ℕ} (hfirst : s.asm.code.nextReg = first) :
    SucceedsWith (Emit.endScopes first) s fun _ s' => s.Idles ζ s' O d := by
  subst hfirst
  refine SucceedsWith.get_bind ?_
  refine SucceedsWith.bind (P := fun _ s' => s = s') ⟨(), s.asm.code, rfl, rfl⟩ ?_
  rintro _ _ rfl
  exact endVars_succeeds h _ _

theorem freeing_acts (h : Acts ζ x ends T) : Acts ζ (freeing x) ends T := by
  intro s O hs hlive hflat hcalm
  refine SucceedsWith.bind (P := fun first s' => s = s' ∧ s.asm.code.nextReg = first)
    (.peek ⟨rfl, rfl⟩) ?_
  rintro first _ ⟨rfl, hfirst⟩
  refine (h hs hlive hflat hcalm).bind fun _ s₁ ⟨hs₁, hflat₁, hends⟩ => ?_
  refine (SucceedsWith.emit
    (endScopes_succeeds hs₁.ready (hs₁.onward.code.nextReg.trans hfirst))).bind
      fun _ s₂ hs₂ => .pure ?_
  exact ⟨MethodState.Idles.after hs₁ hs₂, hs₂.flat hflat₁, fun he hl => hends he (hs₂.live.mp hl)⟩

theorem ranged_acts (h : Acts ζ x ends T) (span : Span) (flags : UInt16) :
    Acts ζ (ranged span flags x) ends T := by
  intro s O hs hlive hflat hcalm
  refine ranged_succeeds hs fun s₁ hs₁ => ?_
  refine (h hs₁.controlFlow.ready (hs₁.live.mpr hlive) (hs₁.flat hflat)
    (hcalm.onward hs₁.controlFlow.onward)).mono ?_
  rintro _ s₂ ⟨hs₂, hflat₂, hends⟩
  refine ⟨O, 0, hs₂.ready, fun s₃ hs₃ =>
    ⟨hs₁.before (MethodState.Idles.after hs₂ hs₃), hs₃.flat hflat₂, ?_⟩⟩
  exact fun he hl => hends he (hs₃.live.mp hl)

/-- Beginning a line and looking at the depth of the stack do not show. -/
theorem statement_acts (h : Acts ζ x ends T) (info : StmtInfo) (declared : Option LocalVar)
    (env : Env) :
    Acts ζ (statement info declared env x) ends T := by
  intro s O hs hlive hflat hcalm
  refine SucceedsWith.bind (P := fun b s' => s = s' ∧ b = true) (.peek ⟨rfl, hlive⟩) ?_
  rintro _ _ ⟨rfl, rfl⟩
  refine SucceedsWith.bind (P := fun _ s' => s = s') (.peek rfl) ?_
  rintro before _ rfl
  have hline : s.asm.code.Idles (s.asm.code.beginLine info.span.firstLine) O 0 [] := by
    unfold Code.beginLine
    split <;> exact hs.code.idles ⟨rfl, rfl, rfl, fun _ => rfl⟩ rfl rfl rfl rfl rfl ⟨rfl, rfl⟩
  refine (touch_succeeds (f := (·.beginLine info.span.firstLine)) hs hline).bind fun _ s₁ hs₁ => ?_
  refine (h hs₁.controlFlow.ready (hs₁.live.mpr hlive) (hs₁.flat hflat)
    (hcalm.onward hs₁.controlFlow.onward)).bind ?_
  rintro _ s₂ ⟨hs₂, hflat₂, hends⟩
  refine SucceedsWith.bind (P := fun after s' => s₂ = s' ∧ after = 0) (.peek ⟨rfl, hflat₂.1⟩) ?_
  rintro _ _ ⟨rfl, rfl⟩
  refine SucceedsWith.get_bind ?_
  have hplain : s₂.letDepth = 0 := ((hcalm.onward hs₁.controlFlow.onward).onward hs₂.onward).plain
  show SucceedsWith (if (0 : ℕ) ≠ (if s₂.letDepth = 0 then 0 else before) then _ else _) s₂ _
  rw [if_pos hplain, if_neg fun h => h rfl]
  exact .pure ⟨hs₁.before hs₂, hflat₂, hends⟩

/-- A statement that control does not come to is left out. -/
theorem statement_skipped (hlive : ¬ s.Live) (info : StmtInfo) (env : Env) :
    SucceedsWith (statement info none env x) s fun _ s' => s = s' := by
  refine SucceedsWith.bind (P := fun b s' => s = s' ∧ b = false)
    (.peek ⟨rfl, by simpa [MethodState.Live] using hlive⟩) ?_
  rintro _ _ ⟨rfl, rfl⟩
  refine SucceedsWith.bind (P := fun _ s' => s = s') ⟨_, s, rfl, rfl⟩ ?_
  rintro kind _ rfl
  split <;> exact .pure rfl

theorem forM_still {α : Type} {f : α → Gen Unit} (h : ∀ a, SucceedsWith (f a) s fun _ s' => s = s')
    (l : List α) :
    SucceedsWith (l.forM f) s fun _ s' => s = s' := by
  induction l with
  | nil => exact .pure rfl
  | cons a l ih =>
      refine (h a).bind ?_
      rintro _ _ rfl
      exact ih

/-- Nothing has to be done on the way out. -/
theorem unwind_succeeds (hs : s.Calm) (env : Env) (last : ScopeId) :
    SucceedsWith (unwind env last) s fun _ s' => s = s' := by
  refine SucceedsWith.bind (P := fun _ s' => s = s') ⟨_, s, rfl, rfl⟩ ?_
  rintro path _ rfl
  refine forM_still (fun id => ?_) path
  refine SucceedsWith.bind (P := fun _ s' => s = s') (.peek rfl) ?_
  rintro reachable _ rfl
  split
  · refine SucceedsWith.bind (P := fun c s' => s = s' ∧ c = none)
      ⟨_, s, rfl, rfl, (hs.quiet id).1⟩ ?_
    rintro _ _ ⟨rfl, rfl⟩
    exact .pure rfl
  · exact .pure rfl

theorem closeGaps_succeeds (hs : s.Calm) (env : Env) (last : ScopeId) :
    SucceedsWith (closeGaps env last) s fun _ s' => s = s' := by
  refine SucceedsWith.bind (P := fun _ s' => s = s') ⟨_, s, rfl, rfl⟩ ?_
  rintro path _ rfl
  refine forM_still (fun id => ?_) path
  refine SucceedsWith.bind (P := fun b s' => s = s' ∧ b = false)
    ⟨_, s, rfl, rfl, (hs.quiet id).2⟩ ?_
  rintro _ _ ⟨rfl, rfl⟩
  exact .pure rfl

theorem hasFinally_quiet {scopes : Scopes} (h : scopes.Quiet) (id : ScopeId) :
    scopes.hasFinally id = false := by
  simp [Scopes.hasFinally, Scope.hasFinally, (h _).1]

/-- A value is returned. -/
theorem retValue_acts {e : ExprCode} {t : Ty} {w : Fetch} (h : e.YieldsValue ζ t w)
    (ht : t.kind.widen = .int) (env : Env) :
    Acts ζ (retValue e t env) true fun a o => o = .answer (w a.vals).1 (w a.vals).2 := by
  refine freeing_acts fun s O hs hlive _ hcalm => ?_
  have hop : Opcode.ireturn + t.kind.widen.code = .ireturn := by rw [ht]; decide
  refine SucceedsWith.bind (P := fun j s' => (∃ k, j = .stack k) ∧
    s.ControlFlow ζ s' O 1 (Spot.To (Spot.eval w)) ∧ s'.Live) ?_ ?_
  · exact (h.value hs hlive).bind fun _ _ hi => .asm hi.2
  rintro _ s₁ ⟨⟨k, rfl⟩, hs₁, hlive₁⟩
  have hcalm₁ := hcalm.onward hs₁.onward
  refine SucceedsWith.get_bind ?_
  have hno : s₁.scopes.hasFinally env.scope = false := hasFinally_quiet hcalm₁.quiet _
  rw [show (Part.get s₁ : MethodState).scopes.hasFinally env.scope = false from hno,
    if_neg (by decide)]
  refine (SucceedsWith.pure (Q := fun i s' => s₁ = s' ∧ i = .stack k) ⟨rfl, rfl⟩).bind ?_
  rintro _ _ ⟨rfl, rfl⟩
  refine (unwind_succeeds hcalm₁ env _).bind ?_
  rintro _ _ rfl
  refine SucceedsWith.bind (P := fun _ s' => s₁ = s') (.asm (.pure rfl)) ?_
  rintro _ _ rfl
  rw [hop]
  refine (SucceedsWith.emit (Emit.ireturn_controlFlow hs₁.ready hlive₁)).bind
    fun _ s₂ ⟨hs₂, halive, hpending, hframe⟩ => ?_
  refine (closeGaps_succeeds (hcalm₁.onward hs₂.onward) env _).mono ?_
  rintro _ _ rfl
  refine ⟨hs₁.trans hs₂ ?_, hframe, fun _ hl => ?_⟩
  · rintro a _ rfl
    exact ⟨_, rfl, _, _, rfl, rfl⟩
  · simp [MethodState.Live, Code.reachable, halive, hpending] at hl

/-- A branch without another one to choose. -/
theorem ite_acts {test : ExprCode} {E : Test} (h : test.YieldsTest ζ E) {body : StmtCode}
    {env : Env} (hbody : Acts ζ (body.gen env) ends T) :
    Acts ζ (ite test body none env) false fun a o =>
      if (E a.vals).1 then T (a.tested E) o else o = .here (a.tested E) := by
  refine freeing_acts fun s O hs hlive hflat hcalm => ?_
  refine (h.bareTest _ hs hlive).bind fun k s₁ hs₁ => ?_
  refine hs₁.fork (fun x => liftM x) SucceedsWith.emit false true 0 T (fun _ => ⟨rfl, hflat⟩) ?_ ?_
  · intro s₂ O' honward hs₂ hlive₂ hflat₂
    refine (ranged_acts hbody _ _ hs₂ hlive₂ (hflat₂ rfl) (hcalm.onward honward)).mono
      fun _ s₃ ⟨hs₃, hflat₃, _⟩ => ?_
    exact ⟨hs₃, fun hl => (by cases hl), fun _ => hflat₃⟩
  intro no out s₂ hs₂ hlive₂ hflat₂
  refine hs₂.fork (x := pure ()) (r := fun _ => liftM (Emit.resolve out))
    (fun x => liftM x) SucceedsWith.emit false true
    (Spot.To id) hlive₂ hflat₂ ?_ ?_
  · exact fun s₃ O' _ hs₃ hlive₃ hflat₃ => .pure ⟨.refl hs₃, fun hl => (by cases hl), hflat₃⟩
  intro s₃ hs₃ _ hflat₃
  refine (SucceedsWith.emit hs₃.resolve).mono fun _ s₄ hs₄ =>
    ⟨hs₄.1.mono fun a o ho => ?_, hs₄.2.2 (hflat₃ rfl), ?_⟩
  · by_cases hb : (E a.vals).1 = true
    · rwa [if_pos hb] at ho ⊢
    · rwa [if_neg hb] at ho ⊢
  · exact fun hl => by cases hl

end Gen

/-- Control has left before, or it goes on. -/
theorem MethodState.ControlFlow.seq {ζ : Seating} {s s₁ s₂ : MethodState} {O : List Link} {d d' : ℕ}
    {T T' T'' : Spot → Outcome → Prop} (h : s.ControlFlow ζ s₁ O d T)
    (h' : s₁.ControlFlow ζ s₂ O d' T')
    (hT : ∀ a o, T'' a o → (∃ v ν, o = .answer v ν ∧ T a o) ∨ ∃ b, T a (.here b) ∧ T' b o) :
    s.ControlFlow ζ s₂ O d' T'' where
  onward := h.onward.trans h'.onward
  ready := h'.ready
  back := fun hover hF => by
    obtain ⟨g₁, hg₁, hback₁⟩ := h'.back hover hF
    obtain ⟨g, hg, hback⟩ := h.back hover hg₁
    refine ⟨g, hg, fun m a o ho hm => ?_⟩
    obtain ⟨v, ν, rfl, ho⟩ | ⟨b, hb, ho⟩ := hT a o ho
    · exact hback m a _ ho hm
    · exact hback₁ m b o ho (hback m a _ hb hm)

/-- Where control does not come behind a step, it has left before. -/
theorem MethodState.ControlFlow.ended {ζ : Seating} {s s₁ : MethodState} {O : List Link} {d : ℕ}
    {T T'' : Spot → Outcome → Prop} (h : s.ControlFlow ζ s₁ O d T) (hdead : ¬ s₁.Live)
    (hT : ∀ a o, T'' a o → (∃ v ν, o = .answer v ν ∧ T a o) ∨ ∃ b, T a (.here b)) :
    s.ControlFlow ζ s₁ O d T'' where
  onward := h.onward
  ready := h.ready
  back := fun hover hF => by
    obtain ⟨g, hg, hback⟩ := h.back hover hF
    refine ⟨g, hg, fun m a o ho hm => ?_⟩
    obtain ⟨v, ν, rfl, ho⟩ | ⟨b, hb⟩ := hT a o ho
    · exact hback m a _ ho hm
    · exact absurd (hback m a _ hb hm).live hdead

namespace Gen

variable {ζ : Seating} {T T' T'' : Spot → Outcome → Prop} {ends : Bool} {x y : Gen Unit}

/-- A statement behind another one. -/
theorem seq_acts {info : StmtInfo} {env : Env} (h : Acts ζ x false T) (h' : Acts ζ y true T')
    (hT : ∀ a o, T'' a o → (∃ v ν, o = .answer v ν ∧ T a o) ∨ ∃ b, T a (.here b) ∧ T' b o) :
    Acts ζ (x >>= fun _ => statement info none env y) true T'' := by
  intro s O hs hlive hflat hcalm
  refine (h hs hlive hflat hcalm).bind fun _ s₁ ⟨hs₁, hflat₁, _⟩ => ?_
  by_cases hlive₁ : s₁.Live
  · refine (statement_acts h' info none env hs₁.ready hlive₁ hflat₁ (hcalm.onward hs₁.onward)).mono
      fun _ s₂ hs₂ => ?_
    exact ⟨hs₁.seq hs₂.1 hT, hs₂.2⟩
  · refine (statement_skipped hlive₁ info env).mono ?_
    rintro _ _ rfl
    refine ⟨hs₁.ended hlive₁ fun a o ho => ?_, hflat₁, fun _ => hlive₁⟩
    exact (hT a o ho).imp id fun ⟨b, hb, _⟩ => ⟨b, hb⟩

/-- A scope that is closed as it was opened leaves no trace. -/
theorem closeScope_push {scopes : Scopes} {inner : Scope} (hexit : inner.exit = [])
    (hcont : inner.cont = []) :
    Scoping.closeScope scopes.depth ⟨scopes.table.push inner⟩ = .ok () scopes := by
  have hdepth : scopes.depth + 1 = Scopes.depth ⟨scopes.table.push inner⟩ := by simp [Scopes.depth]
  have hget : Scopes.get ⟨scopes.table.push inner⟩ scopes.depth = inner := by
    simp [Scopes.get, Scopes.depth]
  unfold Scoping.closeScope
  refine EStateM.bind_eq_ok.mpr ⟨_, _, rfl, ?_⟩
  rw [if_neg fun h => h hdepth]
  dsimp only
  rw [hget, hexit, hcont]
  refine EStateM.bind_eq_ok.mpr ⟨(), scopes, ?_, rfl⟩
  show EStateM.Result.ok () (Scopes.mk (scopes.table.push inner).pop) = _
  rw [Array.pop_push]

/-- What a step does in a scope of its own it does where it stands. -/
theorem withScope_acts {body : Env → Gen Unit} (h : ∀ env, Acts ζ (body env) ends T)
    (kind : ScopeKind) (info : StmtInfo) (env : Env) :
    Acts ζ (withScope kind info env body) ends T := by
  intro s O hs hlive hflat hcalm
  obtain ⟨inner, hinner⟩ : ∃ inner : Scope,
      inner = { kind, tree := some info.id, parent := some env.scope } := ⟨_, rfl⟩
  obtain ⟨s₀, hs₀⟩ : ∃ s₀ : MethodState, s₀ = { s with scopes := ⟨s.scopes.table.push inner⟩ } :=
    ⟨_, rfl⟩
  have hget (id : ScopeId) : s₀.scopes.get id = if id = s.scopes.depth then inner
      else s.scopes.get id := by
    rw [hs₀, Scopes.get, Scopes.get]
    simp only [Array.getD_eq_getD_getElem?, Array.getElem?_push, Scopes.depth]
    split <;> rfl
  have hcalm₀ : s₀.Calm := by
    refine ⟨fun id => ?_, ⟨?_, ?_⟩, by rw [hs₀]; exact hcalm.plain⟩
    · rw [hget]
      split
      · rw [hinner]
        exact ⟨rfl, rfl⟩
      · exact hcalm.quiet id
    · rw [hs₀]
      simp [Scopes.depth]
    · rw [hget, if_neg (show ¬ Scopes.method = s.scopes.depth from Nat.ne_of_lt hcalm.outer.1)]
      exact hcalm.outer.2
  refine SucceedsWith.bind (P := fun id s' => s₀ = s' ∧ id = s.scopes.depth)
    ⟨_, s₀, ?_, rfl, rfl⟩ ?_
  · rw [hs₀, hinner]
    rfl
  rintro _ _ ⟨rfl, rfl⟩
  have hready : s₀.Ready ζ O 0 := by rw [hs₀]; exact ⟨hs.code, hs.pool, hs.locals⟩
  have hlive₀ : s₀.Live := by rw [hs₀]; exact hlive
  have hflat₀ : s₀.Flat 0 := by rw [hs₀]; exact hflat
  refine (h _ hready hlive₀ hflat₀ hcalm₀).bind fun _ s₁ ⟨hs₁, hflat₁, hends⟩ => ?_
  have hscopes : s₁.scopes = ⟨s.scopes.table.push inner⟩ := hs₁.onward.scopes.trans (by rw [hs₀])
  refine ⟨(), { s₁ with scopes := s.scopes }, ?_, ?_, hflat₁, hends⟩
  · show Gen.onScopes (Scoping.closeScope s.scopes.depth) s₁ = _
    rw [Gen.onScopes, hscopes, closeScope_push (by rw [hinner]) (by rw [hinner])]
  · subst hs₀
    refine ⟨⟨hs₁.onward.code, hs₁.onward.locals, rfl, hs₁.onward.letDepth⟩,
      ⟨hs₁.ready.code, hs₁.ready.pool, hs₁.ready.locals⟩, fun hover hF => ?_⟩
    obtain ⟨g, hg, hback⟩ := hs₁.back hover ⟨hF.code, hF.pool, hF.small⟩
    refine ⟨g, ⟨hg.code, hg.pool, hg.small⟩, fun m a o ho hm => ?_⟩
    cases o <;> exact hback m a _ ho hm

/-- The outermost block of a method. -/
theorem block_acts {stats : Env → Gen Unit} (h : ∀ env, Acts ζ (stats env) ends T)
    (info : StmtInfo) :
    Acts ζ (block info stats Env.outermost) ends T := by
  intro s O hs hlive hflat hcalm
  refine SucceedsWith.bind (P := fun _ s' => s = s') (.peek rfl) ?_
  rintro first _ rfl
  refine (withScope_acts h .block info Env.outermost hs hlive hflat hcalm).bind fun _ s₁ hs₁ => ?_
  have hkind : (s₁.scopes.get Scopes.method).kind = .method := (hcalm.onward hs₁.1.onward).outer.2
  refine SucceedsWith.bind (P := fun k s' => s₁ = s' ∧ k = ScopeKind.method)
    ⟨_, s₁, rfl, rfl, hkind⟩ ?_
  rintro _ _ ⟨rfl, rfl⟩
  exact .pure hs₁

/-- A method that has returned does not come to its end. -/
theorem fallOff_acts (h : Acts ζ x true T) (ctx : Context) (line : ℕ) :
    Acts ζ (x >>= fun _ => fallOff ctx line) true T := by
  intro s O hs hlive hflat hcalm
  refine (h hs hlive hflat hcalm).bind fun _ s₁ hs₁ => ?_
  refine SucceedsWith.bind (P := fun depth s' => s₁ = s' ∧ depth = 0) (.peek ⟨rfl, hs₁.2.1.1⟩) ?_
  rintro _ _ ⟨rfl, rfl⟩
  rw [if_neg fun h => h rfl]
  refine SucceedsWith.bind (P := fun b s' => s₁ = s' ∧ b = false)
    (.peek ⟨rfl, by simpa [MethodState.Live] using hs₁.2.2 rfl⟩) ?_
  rintro _ _ ⟨rfl, rfl⟩
  exact .pure hs₁

end Gen

/-! ### Parameters -/

/-- The registers that variables take from `n` on. -/
def homes (n : ℕ) : List LocalVar → List (LocalVar × ℕ)
  | [] => []
  | x :: xs => (x, n) :: homes (n + max x.ty.kind.width 1) xs

/-- The parameters of a method with their registers. -/
def MethodDecl.homes (m : MethodDecl) : List (LocalVar × ℕ) :=
  StackCode.homes (if m.isStatic then 0 else 1) m.params

/-- The registers hold the values of the parameters. -/
def MethodDecl.Holds (m : MethodDecl) (ν : Valuation) (R : ℕ → Int32) : Prop :=
  ∀ h ∈ m.homes, R h.2 = ν.word h.1

instance (m : MethodDecl) (ν : Valuation) (R : ℕ → Int32) : Decidable (m.Holds ν R) :=
  inferInstanceAs (Decidable (∀ h ∈ m.homes, R h.2 = ν.word h.1))

theorem le_of_mem_homes {n : ℕ} {xs : List LocalVar} {h : LocalVar × ℕ}
    (hh : h ∈ homes n xs) : n ≤ h.2 := by
  induction xs generalizing n with
  | nil => cases hh
  | cons x xs ih =>
      rcases List.mem_cons.mp hh with rfl | hh
      · exact Nat.le_refl _
      · exact Nat.le_trans (Nat.le_add_right _ _) (ih hh)

/-- No register is taken twice. -/
theorem homes_apart {n : ℕ} {xs : List LocalVar} {h h' : LocalVar × ℕ} (hh : h ∈ homes n xs)
    (hh' : h' ∈ homes n xs) (hsame : h.2 = h'.2) : h = h' := by
  induction xs generalizing n with
  | nil => cases hh
  | cons x xs ih =>
      have hbelow {h : LocalVar × ℕ} (hh : h ∈ homes (n + max x.ty.kind.width 1) xs) : n < h.2 :=
        Nat.lt_of_lt_of_le (Nat.lt_add_of_pos_right
          (Nat.lt_of_lt_of_le Nat.one_pos (Nat.le_max_right _ _))) (le_of_mem_homes hh)
      rcases List.mem_cons.mp hh with rfl | hh <;> rcases List.mem_cons.mp hh' with rfl | hh'
      · rfl
      · exact absurd hsame (Nat.ne_of_lt (hbelow hh'))
      · exact absurd hsame.symm (Nat.ne_of_lt (hbelow hh))
      · exact ih hh hh'

theorem exists_mem_homes {n : ℕ} {xs : List LocalVar} {x : LocalVar} (hx : x ∈ xs) :
    ∃ k, (x, k) ∈ homes n xs := by
  induction xs generalizing n with
  | nil => cases hx
  | cons y ys ih =>
      rcases List.mem_cons.mp hx with rfl | hx
      · exact ⟨n, List.mem_cons_self⟩
      · obtain ⟨k, hk⟩ := ih (n := n + max y.ty.kind.width 1) hx
        exact ⟨k, List.mem_cons_of_mem _ hk⟩

theorem mem_of_mem_homes {n : ℕ} {xs : List LocalVar} {h : LocalVar × ℕ}
    (hh : h ∈ homes n xs) : h.1 ∈ xs := by
  induction xs generalizing n with
  | nil => cases hh
  | cons x xs ih =>
      rcases List.mem_cons.mp hh with rfl | hh
      · exact List.mem_cons_self
      · exact List.mem_cons_of_mem _ (ih hh)

/-- The code of a method of which nothing is written yet. -/
structure Code.Fresh (c : Code) (wide : Bool) : Prop where
  bytes : c.bytes = #[]
  pending : c.pending = []
  alive : c.alive = true
  frame : c.frame = {}
  needsWide : c.needsWide = false
  wide : c.wide = wide

theorem Code.Fresh.ready {c : Code} {wide : Bool} (h : c.Fresh wide) : c.Ready [] 0 [] where
  apart := by rw [h.pending]; exact .nil
  within := by rw [h.pending]; exact fun _ hl => by cases hl
  firm := by rw [h.pending]; exact fun _ _ hl => by cases hl
  loose := by rw [h.pending]; exact fun _ hl => by cases hl
  level := fun _ => by rw [h.frame]; exact ⟨rfl, rfl⟩
  joins := by rw [h.pending]; exact fun _ hl => by cases hl

namespace Gen

variable {wide : Bool}

/-- What the parameters leave: nothing is written, and the variables are in their registers. -/
structure Allotted (s s' : MethodState) (wide : Bool) (n : ℕ) (xs : List LocalVar) : Prop where
  fresh : s'.asm.code.Fresh wide
  pool : s'.asm.pool = s.asm.pool
  scopes : s'.scopes = s.scopes
  letDepth : s'.letDepth = s.letDepth
  homes : ∀ h ∈ homes n xs, s'.locals[h.1.id]? = some (.ofNat h.2)
  others : ∀ id, id ∉ xs.map LocalVar.id → s'.locals[id]? = s.locals[id]?

/-- Taking a register writes nothing. -/
theorem fresh_newVar {c : Code} (h : c.Fresh wide) (name : String) (ty : Ty) :
    (c.newVar name ty).2.Fresh wide ∧
    (c.newVar name ty).1 = .ofNat c.nextReg ∧
      (c.newVar name ty).2.nextReg = c.nextReg + max ty.kind.width 1 := by
  unfold Code.newVar Code.newReg
  dsimp only
  split <;> exact ⟨⟨h.bytes, h.pending, h.alive, h.frame, h.needsWide, h.wide⟩, rfl, rfl⟩

theorem fresh_define {c : Code} (h : c.Fresh wide) (reg : UInt16) : (c.define reg).Fresh wide :=
  ⟨h.bytes, h.pending, h.alive, h.frame, h.needsWide, h.wide⟩

/-- The parameters get one register after the other. -/
theorem params_succeeds {s : MethodState} (h : s.asm.code.Fresh wide) (span : Span)
    {xs : List LocalVar} (hxs : (xs.map LocalVar.id).Nodup) :
    SucceedsWith (xs.forM fun p => do
      let reg ← declare p
      touch (·.define reg)
      checkDimensions span p.ty) s fun _ s' => Allotted s s' wide s.asm.code.nextReg xs := by
  induction xs generalizing s with
  | nil => exact .pure ⟨h, rfl, rfl, rfl, fun _ hh => (by cases hh), fun _ _ => rfl⟩
  | cons x xs ih =>
      obtain ⟨hnot, hxs⟩ := List.nodup_cons.mp hxs
      obtain ⟨hfresh, hreg, hnext⟩ := fresh_newVar h x.name x.ty
      obtain ⟨c₁, hc₁⟩ : ∃ c₁, c₁ = (s.asm.code.newVar x.name x.ty).2.define
          (.ofNat s.asm.code.nextReg) := ⟨_, rfl⟩
      obtain ⟨s₁, hs₁⟩ : ∃ s₁ : MethodState, s₁ = { s with
          asm := ⟨c₁, s.asm.pool⟩, locals := s.locals.insert x.id (.ofNat s.asm.code.nextReg)
          reports := s.reports.checkDimensions span x.ty } := ⟨_, rfl⟩
      have hfresh₁ : s₁.asm.code.Fresh wide := by rw [hs₁, hc₁]; exact fresh_define hfresh _
      have hnext₁ : s₁.asm.code.nextReg = s.asm.code.nextReg + max x.ty.kind.width 1 := by
        rw [hs₁, hc₁]; exact hnext
      refine SucceedsWith.bind (P := fun _ s' => s₁ = s') ⟨(), s₁, ?_, rfl⟩ ?_
      · rw [hs₁, hc₁, ← hreg]
        rfl
      rintro _ _ rfl
      refine (ih hfresh₁ hxs).mono fun _ s₂ hs₂ => ?_
      have hpool : s₁.asm.pool = s.asm.pool := by rw [hs₁]
      have hscopes : s₁.scopes = s.scopes := by rw [hs₁]
      have hdepth : s₁.letDepth = s.letDepth := by rw [hs₁]
      have hlocals (id : VarId) :
          s₁.locals[id]? = if x.id = id then some (.ofNat s.asm.code.nextReg)
            else s.locals[id]? := by
        rw [hs₁, Std.TreeMap.getElem?_insert]
        simp only [Nat.compare_eq_eq]
      refine ⟨hs₂.fresh, hs₂.pool.trans hpool, hs₂.scopes.trans hscopes, hs₂.letDepth.trans hdepth,
        fun h hh => ?_, ?_⟩
      · rcases List.mem_cons.mp hh with rfl | hh
        · rw [hs₂.others _ hnot, hlocals, if_pos rfl]
        · exact hs₂.homes h (hnext₁ ▸ hh)
      · intro id hid
        obtain ⟨hne, hid⟩ : id ≠ x.id ∧ id ∉ xs.map LocalVar.id := by simpa using hid
        rw [hs₂.others id hid, hlocals, if_neg (Ne.symm hne)]

theorem parameters_succeeds {s : MethodState} {ctx : Context} (h : s.asm.code.Fresh wide)
    (hnext : s.asm.code.nextReg = 0) (hids : (ctx.method.params.map LocalVar.id).Nodup) :
    SucceedsWith (parameters ctx) s fun _ s' => Allotted s s' wide
      (if ctx.method.isStatic then 0 else 1) ctx.method.params := by
  unfold parameters
  cases hstatic : ctx.method.isStatic with
  | true =>
      have hparams := params_succeeds h ctx.method.span hids
      rw [hnext] at hparams
      exact hparams
  | false =>
      obtain ⟨hfresh, hreg, hnext'⟩ := fresh_newVar h "this" (.cls ctx.cls)
      obtain ⟨reg, c₁, hnew⟩ : ∃ reg c₁, s.asm.code.newVar "this" (.cls ctx.cls) = (reg, c₁) :=
        ⟨_, _, rfl⟩
      rw [hnew] at hfresh hnext'
      have hnext₁ : c₁.nextReg = 1 := hnext'.trans (by rw [hnext]; rfl)
      refine SucceedsWith.bind (P := fun r s' => reg = r ∧ Part.put c₁ s = s')
        (.emit ⟨_, _, rfl, ?_⟩) ?_
      · show reg = (s.asm.code.newVar "this" (.cls ctx.cls)).1 ∧
          _ = Part.put (s.asm.code.newVar "this" (.cls ctx.cls)).2 s
        rw [hnew]
        exact ⟨rfl, rfl⟩
      rintro _ _ ⟨rfl, rfl⟩
      refine SucceedsWith.bind (P := fun _ s' => Part.put (c₁.define reg) s = s') (.touch rfl) ?_
      rintro _ _ rfl
      have hparams := params_succeeds (s := Part.put (c₁.define reg) s)
        (fresh_define hfresh reg) ctx.method.span hids
      rw [show (Part.put (c₁.define reg) s : MethodState).asm.code.nextReg =
        1 from hnext₁] at hparams
      exact hparams.mono fun _ s₂ hs₂ =>
        ⟨hs₂.fresh, hs₂.pool, hs₂.scopes, hs₂.letDepth, hs₂.homes, hs₂.others⟩

variable {s s' : MethodState} {n : ℕ} {xs : List LocalVar}

theorem toNat_home {k : ℕ} (hk : k ≤ Limit.max16) : (UInt16.ofNat k).toNat = k :=
  UInt16.toNat_ofNat_of_lt (Nat.lt_succ_of_le hk)

/-- The registers of the parameters. -/
def Allotted.seating (h : Allotted s s' wide n xs)
    (hfit : ∀ h ∈ StackCode.homes n xs, h.2 ≤ Limit.max16) : Seating where
  vars := xs
  locals := s'.locals
  seated := fun x hx => by
    obtain ⟨k, hk⟩ := exists_mem_homes hx
    exact ⟨_, h.homes _ hk⟩
  apart := fun x hx y hy hsame => by
    obtain ⟨k, hk⟩ := exists_mem_homes hx
    obtain ⟨l, hl⟩ := exists_mem_homes hy
    rw [h.homes _ hk, h.homes _ hl] at hsame
    have hnat := congrArg UInt16.toNat (Option.some.inj hsame)
    rw [toNat_home (hfit _ hk), toNat_home (hfit _ hl)] at hnat
    exact congrArg Prod.fst (homes_apart hk hl hnat)

theorem Allotted.seats_iff (h : Allotted s s' wide n xs)
    (hfit : ∀ h ∈ StackCode.homes n xs, h.2 ≤ Limit.max16) {ν : Valuation} {R : ℕ → Int32} :
    (h.seating hfit).Seats ν R ↔ ∀ h ∈ StackCode.homes n xs, R h.2 = ν.word h.1 := by
  constructor
  · intro hseats k hk
    rw [← hseats k.1 (mem_of_mem_homes hk) _ (h.homes k hk), toNat_home (hfit k hk)]
  · intro hR x hx reg hreg
    obtain ⟨k, hk⟩ := exists_mem_homes (n := n) hx
    obtain rfl := Option.some.inj (hreg.symm.trans (h.homes _ hk))
    rw [toNat_home (hfit _ hk)]
    exact hR _ hk

/-- A method is entered where it begins. -/
theorem entry_succeeds {ζ : Seating} {O : List Link} {d : ℕ} (h : s.Ready ζ O d) (hlive : s.Live) :
    SucceedsWith Emit.entry s fun _ s' => s.Idles ζ s' O d := by
  obtain ⟨pc, c', hrun, hc, halive⟩ := Emit.curPc_idles h.code
  have hsame : { c' with alive := true } = c' := by
    rw [← show c'.alive = true from halive.trans hlive]
  refine ⟨pc, c', ?_, .of_code h hc⟩
  refine EStateM.bind_eq_ok.mpr ⟨pc, c', hrun, ?_⟩
  refine EStateM.bind_eq_ok.mpr ⟨(), c', ?_, rfl⟩
  show EStateM.Result.ok () { c' with alive := true } = _
  rw [hsame]

/-- Code that control does not come out of is a program. -/
theorem becomes_self {c : Code} {pool : Pool} (hdead : c.reachable = false)
    (hnarrow : c.needsWide = false) (hshort : c.bytes.size ≤ 0xFFFF) :
    c.Becomes ∅ ⟨c.bytes, pool⟩ 0 := by
  have hpending : c.pending = [] := by
    simpa [Code.reachable] using (Bool.or_eq_false_iff.mp hdead).2
  refine ⟨⟨c.pc, .inl rfl, ?_⟩, hnarrow, hshort⟩
  rw [hpending, Chain.toward_nil, Set.empty_union]
  exact ⟨Nat.le_refl _, fun _ _ _ => rfl, fun _ ho => by cases ho⟩

/-- Which registers are free makes no difference to the code. -/
theorem ready_free {c : Code} {O : List Link} {d : ℕ} {locks : List UInt16} (h : c.Ready O d locks)
    (nextReg : ℕ) :
    ({ c with nextReg } : Code).Ready O d locks where
  apart := h.apart
  within := h.within
  firm := fun halive l hl hloose => h.firm halive l hl ⟨hloose.ends, hloose.opcode, hloose.unseen⟩
  loose := fun l hl hloose => h.loose l hl ⟨hloose.ends, hloose.opcode, hloose.unseen⟩
  level := h.level
  joins := h.joins

theorem becomes_of_free {c : Code} {H : Plan} {p : Program} {g nextReg : ℕ}
    (h : ({ c with nextReg } : Code).Becomes H p g) :
    c.Becomes H p g := by
  obtain ⟨⟨n, hstays, hfits⟩, hnarrow, hshort⟩ := h
  exact ⟨⟨n, hstays.imp id fun ⟨hloose, ho⟩ => ⟨⟨hloose.ends, hloose.opcode, hloose.unseen⟩, ho⟩,
    hfits⟩, hnarrow, hshort⟩

/-- The method returns what its body returns. -/
theorem methodBody_succeeds {ctx : Context} {body : Stmt} {w : Fetch}
    (hfresh : s.asm.code.Fresh wide) (hnext : s.asm.code.nextReg = 0) (hpool : s.asm.pool.Indexed)
    (hcalm : s.Calm) (hids : (ctx.method.params.map LocalVar.id).Nodup)
    (hfit : ∀ h ∈ ctx.method.homes, h.2 ≤ Limit.max16)
    (hbody : ∀ ζ : Seating, ζ.vars = ctx.method.params →
      Acts ζ ((body.code ctx).gen Env.outermost) true fun a o => o = .answer (w a.vals).1
        (w a.vals).2) :
    ∃ s', methodBody ctx body s = .ok () s' ∧ (wide = true → s'.asm.code.needsWide = false) ∧
      (s'.asm.code.needsWide = false → s'.asm.code.bytes.size ≤ 0xFFFF →
        ∀ pool : Pool, s'.asm.pool.Extends pool →
        pool.size ≤ 0x10000 → ∀ ν R, ctx.method.Holds ν R → ∃ R', ctx.method.Holds (w ν).2 R' ∧
          Program.Returns ⟨s'.asm.code.bytes, pool⟩ ⟨0, [], R⟩ ⟨(w ν).1, R'⟩) := by
  suffices hsucceeds : SucceedsWith (methodBody ctx body) s fun _ s' =>
      (wide = true → s'.asm.code.needsWide = false) ∧
      (s'.asm.code.needsWide = false → s'.asm.code.bytes.size ≤ 0xFFFF →
        ∀ pool : Pool, s'.asm.pool.Extends pool →
        pool.size ≤ 0x10000 → ∀ ν R, ctx.method.Holds ν R → ∃ R', ctx.method.Holds (w ν).2 R' ∧
          Program.Returns ⟨s'.asm.code.bytes, pool⟩ ⟨0, [], R⟩ ⟨(w ν).1, R'⟩) by
    obtain ⟨_, s', hrun, hs'⟩ := hsucceeds
    exact ⟨s', hrun, hs'⟩
  refine (parameters_succeeds hfresh hnext hids).bind fun _ s₁ hs₁ => ?_
  obtain ⟨ζ, hζ⟩ : ∃ ζ, ζ = hs₁.seating hfit := ⟨_, rfl⟩
  have hseats {ν : Valuation} {R : ℕ → Int32} : ζ.Seats ν R ↔ ctx.method.Holds ν R :=
    hζ ▸ hs₁.seats_iff hfit
  have hready₁ : s₁.Ready ζ [] 0 := ⟨hs₁.fresh.ready, hs₁.pool ▸ hpool, by rw [hζ]; rfl⟩
  have hlive₁ : s₁.Live := by simp [MethodState.Live, Code.reachable, hs₁.fresh.alive]
  have hflat₁ : s₁.Flat 0 := hs₁.fresh.ready.level hs₁.fresh.alive
  have hcalm₁ : s₁.Calm := ⟨hs₁.scopes ▸ hcalm.quiet, hs₁.scopes ▸ hcalm.outer,
    hs₁.letDepth.trans hcalm.plain⟩
  refine (SucceedsWith.emit (entry_succeeds hready₁ hlive₁)).bind fun _ s₂ hs₂ => ?_
  have hacts := ranged_acts (fallOff_acts (hbody ζ (by rw [hζ]; rfl)) ctx body.span.lastLine)
    body.span RangeFlag.block
  refine (hacts hs₂.controlFlow.ready (hs₂.live.mpr hlive₁) (hs₂.flat hflat₁)
    (hcalm₁.onward hs₂.controlFlow.onward)).bind ?_
  rintro _ s₃ ⟨hs₃, -, hdead⟩
  have hflow := hs₂.before hs₃
  -- giving back all registers leaves the code as it is
  obtain ⟨s₄, hs₄⟩ : ∃ s₄ : MethodState, s₄ = Part.put { s₃.asm.code with nextReg := 0 } s₃ :=
    ⟨_, rfl⟩
  have hready₄ : s₄.Ready ζ [] 0 := by
    rw [hs₄]
    exact hs₃.ready.put (ready_free hs₃.ready.code 0)
  refine SucceedsWith.emit (SucceedsWith.get_bind
    (SucceedsWith.bind (P := fun _ s' => s₄ = s') ⟨(), _, rfl, hs₄⟩ ?_))
  rintro _ _ rfl
  refine (endVars_succeeds hready₄ _ _).mono fun _ s₅ hs₅ => ⟨fun hwide => ?_, ?_⟩
  · have hfar := hflow.onward.code.far (hs₁.fresh.wide.trans hwide)
    have hfar' := hs₅.controlFlow.onward.code.far
      (by rw [hs₄]; exact hflow.onward.code.wide.trans (hs₁.fresh.wide.trans hwide))
    rw [hfar', hs₄]
    exact hfar.trans hs₁.fresh.needsWide
  intro hnarrow hshort pool hext hsmall ν R hR
  have hdead₅ : s₅.asm.code.reachable = false := by
    have hdead₅ : ¬ s₅.Live :=
      fun hl => hdead rfl (by have := hs₅.live.mp hl; rw [hs₄] at this; exact this)
    simpa [MethodState.Live] using hdead₅
  have hF₅ : s₅.Future ∅ ⟨s₅.asm.code.bytes, pool⟩ 0 :=
    ⟨becomes_self hdead₅ hnarrow hshort, hext, hsmall⟩
  obtain ⟨g₄, hF₄, -⟩ := hs₅.controlFlow.back (H := ∅) (fun _ ho => by cases ho) hF₅
  have hF₃ : s₃.Future ∅ ⟨s₅.asm.code.bytes, pool⟩ g₄ := by
    rw [hs₄] at hF₄
    exact ⟨becomes_of_free hF₄.code, hF₄.pool, hF₄.small⟩
  obtain ⟨g₁, -, hback⟩ := hflow.back (H := ∅) (fun _ ho => by cases ho) hF₃
  have hstart : s₁.Meets ζ ⟨s₅.asm.code.bytes, pool⟩ g₁ ⟨0, [], R⟩ (.here ⟨[], ν⟩) := by
    refine ⟨0, .inl ⟨hs₁.fresh.alive, ?_⟩, R, hseats.mpr hR, .refl _ _⟩
    rw [Code.pc, hs₁.fresh.bytes]
    rfl
  obtain ⟨R', hR', hreturns⟩ := hback _ _ _ rfl hstart
  exact ⟨R', hseats.mp hR', hreturns⟩

end Gen

end StackCode
