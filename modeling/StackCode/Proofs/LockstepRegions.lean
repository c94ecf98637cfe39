import StackCode.Proofs.LockstepStatements

/-!
# Protected regions in lockstep

The rows of the exception table are positions in the code and so differ between the two runs,
but nothing that is written depends on them. A statement without handlers keeps in step for
that reason, whether its cleanup is written at every exit or once as a subroutine. Where there
are handlers, they are left out if the region is empty, and that may depend on the jumps.
-/

set_option maxRecDepth 4000

namespace StackCode

/-- A look at a scope that may differ between the runs. -/
theorem Runs.peekScope_any {α β : Type} {limited : Bool} {g : Ghost} {m : Multiset ℕ}
    {f : Scope → α} {h h' : α → Gen β} {Q : Ghost → Multiset ℕ → β → β → Prop} (id : ScopeId)
    (hf : ∀ a b, Runs limited g m (h a) (h' b) Q) :
    Runs limited g m (Gen.peekScope id f >>= h) (Gen.peekScope id f >>= h') Q := by
  intro F s t hst b p b' q hx hy hlim
  obtain ⟨a, p₁, hget, hxa⟩ := EStateM.bind_eq_ok.mp hx
  obtain ⟨a', q₁, hget', hya⟩ := EStateM.bind_eq_ok.mp hy
  cases hget
  cases hget'
  exact hf _ _ F s t hst b p b' q hxa hya hlim

namespace Gen

variable {g : Ghost} {env : Env} {limited : Bool}

/-! ### Rows -/

theorem addCatch_runs (span : Span) (row row' : CatchRow) :
    Runs limited g 0 (addCatch span row) (addCatch span row') (Plain fun g' _ _ => g' = g) := by
  intro F s t hst a p b q hx hy _
  obtain ⟨catches, reports, rfl⟩ := addCatch_ok hx
  obtain ⟨catches', reports', rfl⟩ := addCatch_ok hy
  exact ⟨g, 0, { hst with code := { hst.code with } }, .refl _ _, rfl, rfl⟩

theorem addCatches_runs (span : Span) (pc pc' : ℕ) (type : UInt16) (start start' : ℕ)
    {gaps gaps' : List ℕ} (h : gaps.length = gaps'.length) :
    Runs limited g 0 (addCatches span pc type start gaps) (addCatches span pc' type start' gaps')
      (Plain fun g' _ _ => g' = g) := by
  induction start, gaps using addCatches.induct generalizing start' gaps' with
  | case1 start =>
      rw [List.length_nil, eq_comm, List.length_eq_zero_iff] at h
      subst h
      exact .pure ⟨rfl, rfl⟩
  | case2 start gap =>
      rw [List.length_singleton, eq_comm, List.length_eq_one_iff] at h
      obtain ⟨gap', rfl⟩ := h
      exact (addCatch_runs span _ _).step fun _ _ _ _ _ => .throw
  | case3 start gap next rest ih =>
      obtain _ | ⟨gap', _ | ⟨next', rest'⟩⟩ := gaps'
      · simp at h
      · simp at h
      · refine (addCatch_runs span _ _).step fun g₁ _ _ _ hg₁ => ?_
        subst hg₁
        exact ih next' (by simpa using h)

theorem straight_startLine (line : ℕ) : Straight (startLine line) :=
  straight_touch (Emit.straight_aside fun c =>
    (c.aside_beginLine line).trans (Code.aside_markLine _))

theorem straight_newSegment : Straight (touch (·.newSegment)) := by
  refine straight_touch (Emit.straight_change (fun g c d h => ?_) fun _ => ⟨rfl, rfl⟩)
  exact { h with nextReg := h.maxLocals }

/-! ### Cleanup on the way of an exception -/

theorem marches_subroutine (finalLine : ℕ) (henv : env.InStep) :
    Marches (subroutine finalLine env) := by
  have hcomp (reg : UInt16) : Composed (fun _ => True) true (do
      Emit.register .ret reg
      touch (·.kill) : Gen Unit) :=
    (Emit.composed_register _ _).inGen.bind fun _ => composed_kill
  refine ⟨composed_subroutine finalLine henv.isComposed, fun g => ?_⟩
  refine (Scoping.takeCont_runs _).scopesInGen.next ?_
  rintro g₁ m calls calls' ⟨-, hcalls⟩
  refine .ite (by rw [hcalls.isEmpty_eq]) (fun _ => ?_) fun _ => ?_
  · exact (Runs.pure ⟨rfl, trivial⟩).forget (Multiset.zero_le m)
  · refine .spendAll (Emit.resolve_runs hcalls).inGen fun g₂ _ _ _ => ?_
    refine (straight_startLine finalLine).step fun g₃ _ _ _ => ?_
    refine (Emit.straight_newReg _).inGen.step fun g₄ reg _ _ => ?_
    refine (Item.straight_store _).asmInGen.step fun g₅ _ _ _ => ?_
    refine (marches_cleanup henv _).step (fun _ => hcomp reg) fun g₆ _ _ => ?_
    refine (Emit.runs_register .ret reg (by decide) (by decide)).inGen.step ?_
    intro g₇ _ _ _ ⟨hlive, hsolid⟩
    refine (Emit.kill_runs fun hg => hsolid ?_).touch
    rw [hlive, Bool.and_eq_true] at hg
    exact hg.1

theorem catchAll_runs (span : Span) {frame frame' : Frame} (hframe : frame.Level frame')
    (start start' finalLine : ℕ) (henv : env.InStep) :
    Runs true g 0 (catchAll span frame start finalLine env)
      (catchAll span frame' start' finalLine env)
      (Plain fun _ _ _ => True) := by
  have hend : Marches (do
      Emit.plain .athrow
      touch (·.kill)
      subroutine finalLine env : Gen Unit) := by
    have hsub := marches_subroutine finalLine henv
    refine ⟨(Emit.composed_plain _).inGen.bind fun _ => composed_kill.bind fun _ =>
      hsub.composed, ?_⟩
    intro g
    refine (Emit.plain_runs (by decide) (by decide)).inGen.step fun g₁ _ _ _ ⟨hlive, _⟩ => ?_
    have hdead : g₁.live = false := by
      rw [hlive]
      exact Bool.and_false _
    refine (Emit.kill_runs fun hg => ?_).touch.step fun g₂ _ _ _ _ => hsub.runs g₂
    rw [hdead] at hg
    cases hg
  refine straight_newSegment.step fun g₁ _ _ _ => ?_
  refine (Emit.entryPushed_runs .object hframe).inGen.step fun g₂ pc pc' _ _ => ?_
  refine (Scoping.takeGaps_runs _).scopesInGen.step fun g₃ gaps gaps' _ ⟨_, hgaps⟩ => ?_
  refine (addCatches_runs span pc pc' 0 start start' hgaps).step fun g₄ start start' _ _ => ?_
  refine (straight_startLine finalLine).step fun g₅ _ _ _ => ?_
  refine (Emit.straight_newReg _).inGen.step fun g₆ reg _ _ => ?_
  refine (Item.straight_store _).asmInGen.step fun g₇ _ _ _ => ?_
  refine (marches_leave henv _).step (fun _ => ?_) fun g₈ _ _ => ?_
  · refine (Item.composed_load _).onAsm.bind fun _ =>
      (composed_onScopes (Scoping.noOverflow_takeGap _)).bind fun gap => ?_
    cases gap with
    | none => exact .bind (composed_throw rfl) fun _ => hend.composed
    | some stop => exact (composed_addCatch _ _).bind fun _ => hend.composed
  refine (Item.straight_load (i := .var .object reg) rfl).asmInGen.step fun g₉ _ _ _ => ?_
  refine (Scoping.takeGap_runs _).scopesInGen.step fun g₁₀ gap gap' _ ⟨_, hgap⟩ => ?_
  match gap, gap', hgap with
  | none, none, _ => exact Runs.throw
  | some stop, some stop', _ =>
      exact (addCatch_runs span _ _).step fun g₁₁ _ _ _ _ => hend.runs g₁₁

theorem marches_protect (info : StmtInfo) {body : StmtCode} (hb : Paces body.gen) (finalLine : ℕ)
    (henv : env.InStep) : Marches (protect info body [] finalLine env) := by
  have hgap := Marches.of_straight (straight_closeGap env.scope) (composed_closeGap env.scope)
  have hcatch (frame : Frame) (start : ℕ) : Composed (fun _ => True) true
      (catchAll body.span frame start finalLine env) := composed_catchAll _ _ _ _ henv.isComposed
  -- behind the way out of the region there is only the handler that runs the cleanup
  have hend (frame : Frame) (start stop : ℕ) (hasCleanup : Bool) (gaps : List ℕ) :
      Composed (fun _ => True) true (do
        touch (·.beginLine info.span.lastLine)
        let exit ← Emit.branch .goto
        closeGap env.scope
        let exit ←
          if start ≠ stop then handlers info frame hasCleanup start stop gaps env [] exit
          else pure exit
        if hasCleanup then catchAll body.span frame start finalLine env
        Emit.resolve exit : Gen Unit) := by
    refine (composed_beginLine _).bind fun _ => (Emit.composed_branch _).inGen.bind fun exit =>
      hgap.composed.bind fun _ => .ite (.bind ?_ fun exit => ?_) (.bind .pure fun exit => ?_)
    · exact composed_handlers info frame hasCleanup start stop gaps henv.isComposed (by simp) exit
    all_goals exact .optional (hcatch frame start) fun _ => (Emit.composed_resolve exit).inGen
  have hout (frame : Frame) (start : ℕ) : Composed (fun _ => True) true (do
      let stop ← Emit.curPc
      let hasCleanup ← peekScope env.scope fun s => s.cleanup.any (·.isActive)
      let gaps ← peekScope env.scope fun s => (s.gaps.getD #[]).toList
      touch (·.beginLine body.span.lastLine)
      leave env env.scope
      touch (·.beginLine info.span.lastLine)
      let exit ← Emit.branch .goto
      closeGap env.scope
      let exit ←
        if start ≠ stop then handlers info frame hasCleanup start stop gaps env [] exit
        else pure exit
      if hasCleanup then catchAll body.span frame start finalLine env
      Emit.resolve exit : Gen Unit) :=
    Emit.composed_curPc.inGen.bind fun stop => (composed_peekScope _ _).bind fun hasCleanup =>
      (composed_peekScope _ _).bind fun gaps => (composed_beginLine _).bind fun _ =>
      (composed_leave henv.isComposed _).bind fun _ => hend frame start stop hasCleanup gaps
  refine marches_freeing ⟨?_, fun g => ?_⟩
  · exact Emit.composed_curPc.inGen.bind fun start => composed_peek (fun _ _ _ => rfl) fun frame =>
      (composed_rangedStat hb.composed henv.isComposed _).bind fun _ => hout frame start
  · refine Emit.curPc_runs.inGen.step fun g₁ start start' _ _ => .peek_bind fun F s t hst => ?_
    have hframe := hst.code.frame
    refine (marches_rangedStat hb henv _).step (fun _ => hout _ start') fun g₂ _ _ => ?_
    refine Emit.curPc_runs.inGen.step fun g₃ stop stop' _ _ => ?_
    refine .peekScope_bind _ (fun _ _ _ _ h => by rw [h.cleanup]) fun hasCleanup => ?_
    refine .peekScope_any _ fun gaps gaps' => ?_
    refine (straight_beginLine _).step fun g₄ _ _ _ => ?_
    refine (marches_leave henv _).step (fun _ => hend _ start' stop' hasCleanup gaps')
      fun g₅ _ _ => ?_
    refine (straight_beginLine _).step fun g₆ _ _ _ => ?_
    refine (Emit.branch_runs (.inr (.inl rfl))).inGen.next fun g₇ m exit exit' hexit => ?_
    refine (straight_closeGap _).step fun g₈ _ hg₈ _ => ?_
    -- without handlers it does not matter whether the region is empty
    have hexit₈ := hexit.1.grown hg₈ le_rfl
    simp only [handlers, ite_self]
    refine .ite .rfl (fun _ => ?_) fun _ => land_runs hexit₈
    refine .along (catchAll_runs body.span hframe start start' finalLine henv) (hcatch _ _)
      (fun _ => (Emit.composed_resolve exit').inGen) fun g₉ _ _ hg₉ _ => ?_
    exact land_runs (hexit₈.grown hg₉ le_rfl)

/-! ### Synchronized and try statements -/

theorem openProtected_runs (kind : ScopeKind) (info : StmtInfo) (cleanup : Cleanup) (env : Env) :
    Runs limited g 0 (openProtected kind info cleanup env) (openProtected kind info cleanup env)
      (Plain fun g' a b => g' = g ∧ a = b) := by
  refine (Scoping.openScope_runs kind (some info.id) env.scope).scopesInGen.step ?_
  rintro _ id _ - ⟨rfl, rfl⟩
  refine (Scoping.modifyScope_runs id fun a b n h => ?_).scopesInGen.step ?_
  · exact ⟨n, Multiset.le_add_right _ _, { h with cleanup := rfl, gaps := rfl }⟩
  · rintro _ _ _ - rfl
    exact .pure ⟨rfl, rfl, rfl⟩

/-- A region in a scope of its own. -/
theorem marches_inProtected (kind : ScopeKind) (info : StmtInfo) (cleanup : Cleanup) (env : Env)
    {body : StmtCode} (hb : Paces body.gen) (finalLine : ℕ) {inner : ScopeId → Env}
    (hinner : ∀ id, (inner id).InStep) : Marches (do
      let id ← openProtected kind info cleanup env
      protect info body [] finalLine (inner id)
      Scoping.closeScope id : Gen Unit) := by
  have hprotect (id : ScopeId) := marches_protect info hb finalLine (hinner id)
  have hclose (id : ScopeId) :
      Composed (fun _ => True) true (liftM (Scoping.closeScope id) : Gen Unit) :=
    composed_onScopes (Scoping.noOverflow_closeScope id)
  refine ⟨(composed_openProtected _ _ _ _).bind fun id => (hprotect id).composed.bind
    fun _ => hclose id,
    fun g => ?_⟩
  refine (openProtected_runs _ _ _ _).step fun g₁ id _ _ ⟨_, hid⟩ => ?_
  subst hid
  refine (hprotect id).step (fun _ => hclose id) fun g₂ _ _ => ?_
  exact (Scoping.closeScope_runs id).scopesInGen.mono fun _ _ _ _ h => ⟨h.1, trivial⟩

theorem proceeds_sync (info : StmtInfo) {lock : ExprCode} (hl : lock.Paces) {body : StmtCode}
    (hb : Paces body.gen) (henv : env.InStep) : Proceeds (sync info lock body env) := by
  have hregion (reg : UInt16) := marches_inProtected .monitor info (.monitor reg) env hb
    info.span.lastLine fun id => henv.inside id
  refine proceeds_freeing ⟨?_, fun g hg => ?_⟩
  · exact (Emit.composed_newReg _).inGen.bind fun reg => (hl.composed.push _).bind fun _ =>
      (Item.composed_duplicate _).onAsm.bind fun _ => (Item.composed_store _).onAsm.bind fun _ =>
      (Emit.composed_plain _).inGen.bind fun _ =>
      .bind (composed_set fun _ _ _ => ⟨⟨⟨rfl, rfl, rfl⟩, rfl, rfl⟩, rfl⟩) fun _ =>
        (hregion reg).composed
  · refine (Emit.straight_newReg _).inGen.step fun g₁ reg _ hlive₁ => ?_
    refine (hl.push _ g₁).step fun g₂ monitor _ _ ⟨hmonitor, hplain, hlive₂⟩ => ?_
    subst hmonitor
    refine (Item.straight_duplicate hplain).asmInGen.step fun g₃ _ _ hlive₃ => ?_
    refine (Item.straight_store _).asmInGen.step fun g₄ _ _ hlive₄ => ?_
    refine (Emit.plain_runs (by decide) (by decide)).inGen.step fun g₅ _ _ _ ⟨_, hsolid⟩ => ?_
    have hsolid₅ := hsolid (hlive₄ (hlive₃ (hlive₂ (hlive₁ hg))))
    exact (Emit.frame_runs (·.lock reg) hsolid₅ (fun _ _ h => h.lock reg) fun _ => rfl).touch.step
      fun g₆ _ _ _ _ => (hregion reg).runs g₆

theorem marches_tryCatch (ctx : Context) (info : StmtInfo) {body : StmtCode} (hb : Paces body.gen)
    (final : Option Stmt) {finalCode : Option StmtCode} (hf : ∀ s ∈ finalCode, Paces s.gen)
    (henv : env.InStep) : Marches (tryCatch ctx info body [] final finalCode env) := by
  have hwant {g : Ghost} : Runs false g 0 (modify fun s : MethodState =>
      { s with subroutines := wantsSubroutines ctx.config final } : Gen Unit)
      (modify fun s => { s with subroutines := wantsSubroutines ctx.config final })
      (Plain fun _ _ _ => True) := by
    rintro F s t hst a p b q ⟨⟩ ⟨⟩ -
    exact ⟨g, 0, { hst with subroutines := rfl }, .refl _ _, rfl, trivial⟩
  have hregion {inner : ScopeId → Env} (hinner : ∀ id, (inner id).InStep) (finalLine : ℕ) :=
    marches_inProtected .tryBlock info (.finallyBlock final.isSome) env hb finalLine hinner
  refine ⟨composed_tryCatch ctx info hb.composed (by simp) final (fun s hs => (hf s hs).composed)
    henv.isComposed, fun g => .get_bind fun F s t hst => ?_⟩
  have hsame : (Part.get s : MethodState).subroutines = true ↔
      (Part.get t : MethodState).subroutines = true := by
    show s.subroutines = true ↔ t.subroutines = true
    rw [hst.subroutines]
  cases finalCode with
  | none =>
      have hrest := hregion fun id => henv.inside id
      exact .ite hsame (fun _ => (hrest _).runs g) fun _ => hwant.step fun g₁ _ _ _ _ =>
        (hrest _).runs g₁
  | some f =>
      have hrest := hregion fun id =>
        henv.insideTry id (marches_rangedStat (hf f rfl) henv RangeFlag.block)
      exact .ite hsame (fun _ => (hrest _).runs g) fun _ => hwant.step fun g₁ _ _ _ _ =>
        (hrest _).runs g₁

end Gen

end StackCode
