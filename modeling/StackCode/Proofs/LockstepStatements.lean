import StackCode.Proofs.LockstepLeaving

/-!
# Statements in lockstep

Blocks, declarations, branches, loops and jumps keep in step if their parts do. What a branch
or a loop still has to let land is carried along as its open branches, and the beginning of a
loop as a place that both codes have.
-/

set_option maxRecDepth 4000

namespace StackCode

/-- The code of a statement or of several, by its surroundings, keeps in step in all that
do. -/
structure Paces (p : Env → Gen Unit) : Prop where
  composed : ∀ env : Env, env.IsComposed (fun _ => True) → Composed (fun _ => True) true (p env)
  runs : ∀ env : Env, env.InStep → ∀ g, Runs true g 0 (p env) (p env) (Plain fun _ _ _ => True)

theorem Paces.marches {p : Env → Gen Unit} {env : Env} (h : Paces p) (henv : env.InStep) :
    Marches (p env) := ⟨h.composed env henv.isComposed, h.runs env henv⟩

/-- The step keeps in step where control comes to it. -/
structure Proceeds (x : Gen Unit) : Prop where
  composed : Composed (fun _ => True) true x
  runs : ∀ g, g.live = true → Runs true g 0 x x (Plain fun _ _ _ => True)

theorem Marches.proceeds {x : Gen Unit} (h : Marches x) : Proceeds x :=
  ⟨h.composed, fun g _ => h.runs g⟩

/-- A step that holds a statement, and then another one. -/
theorem Proceeds.step {α : Type} {x : Gen Unit} {f f' : Unit → Gen α} {g : Ghost} {m : Multiset ℕ}
    {R : Ghost → Multiset ℕ → α → α → Prop} (hx : Proceeds x) (hg : g.live = true)
    (hcomp : ∀ u, Composed (fun _ => True) true (f' u))
    (hf : ∀ g' u, Grown m g g' → Runs true g' m (f u) (f' u) R) :
    Runs true g m (x >>= f) (x >>= f') R :=
  .along (hx.runs g hg) hx.composed hcomp fun g' u _ hg' _ => hf g' u hg'

/-- The code of an expression keeps in step and is composed of elementary steps. -/
structure ExprCode.Paces (e : ExprCode) : Prop extends e.InStep where
  composed : e.IsComposed (fun _ => True) true

namespace Gen

variable {g : Ghost} {env : Env} {limited : Bool}

/-! ### What statements share -/

theorem straight_beginLine (line : ℕ) : Straight (touch (·.beginLine line)) :=
  straight_touch (Emit.straight_beginLine line)

theorem straight_checkDepth (info : StmtInfo) (before : ℕ) : Straight (do
    let after ← peek (·.frame.depth)
    let expected := if (← get).letDepth = 0 then 0 else before
    if after ≠ expected then throw (.stackDepth after info.span.firstLine) : Gen Unit) := by
  refine fun g => .peek_even (fun _ _ h => h.frame.depth) fun after => .get_bind fun F s t hst => ?_
  have hdepth : (Part.get s : MethodState).letDepth = (Part.get t : MethodState).letDepth :=
    hst.letDepth
  simp only [hdepth]
  exact .ite .rfl (fun _ => .throw) fun _ => .pure ⟨rfl, rfl, id⟩

theorem straight_declareIfAny (env : Env) (declared : Option LocalVar) : Straight (do
    if (← peekScope env.scope (·.kind)) = .switch then
      if let some v := declared then
        let _ ← declare v : Gen Unit) := by
  refine fun g => .peekScope_bind env.scope (fun _ _ _ _ h => h.kind) fun kind => ?_
  refine Straight.ite ?_ .pure g
  cases declared with
  | none => exact .pure
  | some v => exact (straight_declare v).bind fun _ => .pure

theorem marches_statement (info : StmtInfo) (declared : Option LocalVar) (env : Env)
    {body : Gen Unit} (h : Proceeds body) : Marches (statement info declared env body) := by
  refine ⟨composed_statement info declared env h.composed, fun g => ?_⟩
  refine .reachable_bind (.ite .rfl (fun hg => ?_) fun _ => ?_)
  · refine .peek_even (fun _ _ h => h.frame.depth) fun before => ?_
    refine (straight_beginLine _).step fun g₁ _ _ hlive => ?_
    exact h.step (hlive hg) (fun _ => composed_checkDepth info before) fun g₂ _ _ =>
      (Marches.of_straight (straight_checkDepth info before) (composed_checkDepth info before)).runs
        g₂
  · exact (Marches.of_straight (straight_declareIfAny env declared)
      (composed_declareIfAny env declared)).runs g

theorem marches_freeing {x : Gen Unit} (h : Marches x) : Marches (freeing x) :=
  ⟨composed_freeing h.composed, fun g =>
    freeing_runs (fun _ => h.composed) (h.runs g) fun _ _ _ _ _ _ _ h => ⟨h.1, trivial⟩⟩

theorem proceeds_freeing {x : Gen Unit} (h : Proceeds x) : Proceeds (freeing x) :=
  ⟨composed_freeing h.composed, fun g hg =>
    freeing_runs (fun _ => h.composed) (h.runs g hg) fun _ _ _ _ _ _ _ h => ⟨h.1, trivial⟩⟩

theorem marches_ranged (span : Span) (flags : UInt16) {x : Gen Unit} (h : Marches x) :
    Marches (ranged span flags x) :=
  ⟨composed_ranged span flags h.composed, fun _ =>
    ranged_runs span flags (fun _ => h.composed) (fun g' _ => h.runs g')
      fun _ _ _ _ _ _ _ h => ⟨h.1, trivial⟩⟩

theorem marches_rangedStat {s : StmtCode} (h : Paces s.gen) (henv : env.InStep) (flags : UInt16) :
    Marches (rangedStat s env flags) :=
  marches_ranged _ _ (h.marches henv)

theorem marches_rangedStats (stats : List Stmt) (flags : UInt16) {body : Gen Unit}
    (h : Marches body) :
    Marches (rangedStats stats flags body) := by
  unfold rangedStats
  split
  · exact h
  · exact marches_ranged _ _ h
  · exact marches_ranged _ _ h

theorem withScope_runs (kind : ScopeKind) (info : StmtInfo) (env : Env) {body : Env → Gen Unit}
    (hcomp : ∀ id, Composed (fun _ => True) true (body (env.inside id)))
    (h : ∀ id, Runs true g 0 (body (env.inside id)) (body (env.inside id))
      (Plain fun _ _ _ => True)) :
    Runs true g 0 (withScope kind info env body) (withScope kind info env body)
      (Plain fun _ _ _ => True) := by
  refine (Scoping.openScope_runs kind (some info.id) env.scope).scopesInGen.step ?_
  rintro _ id _ - ⟨rfl, rfl⟩
  refine .along (h id) (hcomp id) (fun _ => composed_onScopes (Scoping.noOverflow_closeScope id))
    fun g₁ _ _ _ _ => ?_
  exact (Scoping.closeScope_runs id).scopesInGen.mono fun _ _ _ _ h => ⟨h.1, trivial⟩

theorem marches_withScope (kind : ScopeKind) (info : StmtInfo) (henv : env.InStep)
    {body : Env → Gen Unit} (h : Paces body) : Marches (withScope kind info env body) :=
  ⟨composed_withScope kind info henv.isComposed h.composed, fun g => withScope_runs kind info env
    (fun id => (h.marches (henv.inside id)).composed) fun id => (h.marches (henv.inside id)).runs g⟩

/-! ### Blocks, declarations and expressions -/

theorem marches_block (info : StmtInfo) {stats : Env → Gen Unit} (h : Paces stats)
    (henv : env.InStep) : Marches (block info stats env) := by
  have hline : Straight (touch fun c => { c with pendingLine := none }) := by
    refine straight_touch (Emit.straight_aside fun c => ?_)
    exact ⟨none, c.lines, c.vars, c.catches, c.ranges, rfl, rfl⟩
  have hend (first : ℕ) : Marches (do
      if (← peekScope env.scope (·.kind)) ≠ .method then
        touch (·.beginLine info.span.lastLine)
        Emit.endScopes first
        touch fun c => { c with pendingLine := none } : Gen Unit) := by
    refine .of_straight (fun g => ?_) ?_
    · refine .peekScope_bind env.scope (fun _ _ _ _ h => h.kind) fun kind => ?_
      refine Straight.ite ?_ .pure g
      exact (straight_beginLine _).bind fun _ => (Emit.straight_endScopes first).inGen.bind
        fun _ => hline
    · refine (composed_peekScope _ _).bind fun _ => .ite ?_ .pure
      exact (composed_beginLine _).bind fun _ => (Emit.composed_endScopes _).inGen.bind fun _ =>
        composed_set fun _ _ _ => ⟨⟨⟨rfl, rfl, rfl⟩, rfl, rfl⟩, rfl⟩
  refine ⟨composed_block info henv.isComposed h.composed, fun g => ?_⟩
  refine .peek_even (fun _ _ h => h.nextReg) fun first => ?_
  exact (marches_withScope .block info henv h).step (fun _ => (hend first).composed) fun g₁ _ _ =>
    (hend first).runs g₁

theorem marches_varDef (ctx : Context) (info : StmtInfo) (v : LocalVar) {init : Option ExprCode}
    (h : ∀ e ∈ init, e.Paces) : Marches (varDef ctx info v init) := by
  refine .of_straight ?_ (composed_varDef ctx info v fun e he => (h e he).composed)
  refine (straight_declare v).bind fun reg => ?_
  cases init with
  | none => exact .reporting _
  | some e =>
      refine (Straight.reporting _).bind fun _ => .ite ?_ (.reporting _)
      exact ((h e rfl).straight_push _).bind fun _ => (Item.straight_store _).asmInGen.bind fun _ =>
        .reporting _

theorem marches_exec {e : ExprCode} (h : e.Paces) : Marches (exec e) := by
  refine ⟨composed_exec h.composed, fun g => ?_⟩
  refine (h.effect g).use (fun i hi => ?_) fun g₁ m i j _ _ hitems => ?_
  · exact Answers.bind (Item.isDoomed_coerce hi _).asmInGen fun j hj =>
      (Item.fails_discard hj).asmInGen
  · refine .bind (Item.coerce_runs hitems _).asmInGen fun g₂ m₂ i j _ hval => ?_
    rw [add_zero]
    exact (Item.discard_runs hval.1).asmInGen.mono fun _ _ _ _ h => ⟨h.1, trivial⟩

/-! ### Branches and loops -/

/-- Open branches come to land at the end of a statement. -/
theorem land_runs {m : Multiset ℕ} {c d : Chain} (h : Chains g.segs c d m) : Runs limited g m
    (liftM (Emit.resolve c) : Gen Unit) (liftM (Emit.resolve d)) (Plain fun _ _ _ => True) :=
  (Emit.resolve_runs h).inGen.mono fun _ _ _ _ h => ⟨h.1, trivial⟩

/-- What follows the true part of an `if`: the false part, where control comes to it, and the
join. -/
theorem composed_otherwise {onFalse : Option StmtCode}
    (h : ∀ s ∈ onFalse, Composed (fun _ => True) true (rangedStat s env targetFlags))
    (no exit : Chain) :
    Composed (fun _ => True) true (do
      unless no.isEmpty do
        Emit.resolve no
        if let some s := onFalse then rangedStat s env targetFlags
      Emit.resolve exit : Gen Unit) := by
  have hland (exit : Chain) :
      Composed (fun _ => True) true (liftM (Emit.resolve exit) : Gen Unit) :=
    (Emit.composed_resolve exit).inGen
  refine .ite (hland exit) ((hland no).bind fun _ => ?_)
  cases onFalse with
  | none => exact hland exit
  | some s => exact (h s rfl).bind fun _ => hland exit

theorem marches_ite {test : ExprCode} {onTrue : StmtCode} {onFalse : Option StmtCode}
    (ht : test.Paces) (hT : Paces onTrue.gen) (hF : ∀ s ∈ onFalse, Paces s.gen)
    (henv : env.InStep) : Marches (ite test onTrue onFalse env) := by
  have htrue := marches_rangedStat hT henv targetFlags
  have hend := composed_otherwise fun s hs =>
    (marches_rangedStat (hF s hs) henv targetFlags).composed
  refine marches_freeing ⟨?_, fun g => ?_⟩
  · refine (ht.composed.bareTest _).bind fun c => c.composed_jumpFalse.inGen.bind
      fun no => .ite ?_ ?_
    · exact Composed.pure.bind (hend no)
    · exact (Emit.composed_resolve _).inGen.bind fun _ => htrue.composed.bind fun _ =>
        (Emit.composed_branch _).inGen.bind (hend no)
  · refine (ht.bareTest _ g).next fun g₁ m c d hval => ?_
    refine .fork liftM Runs.inGen hval.1 false (fun _ => ⟨htrue.composed, fun no =>
      (Emit.composed_branch _).inGen.bind (hend no)⟩)
      (fun g₂ _ => (htrue.runs g₂).mono fun _ _ _ _ h => ⟨h.1, nofun⟩) ?_
    intro g₂ no no' out out' m n hno hout _
    cases onFalse with
    | none =>
        refine .ite (by rw [hno.isEmpty_eq]) (fun _ => ?_) fun _ => ?_
        · exact (land_runs hout).forget (Multiset.le_add_left _ _)
        · exact .spend (Emit.resolve_runs hno).inGen fun g₃ _ _ hg₃ _ =>
            land_runs (hout.grown hg₃ le_rfl)
    | some s =>
        have hfalse := marches_rangedStat (hF s rfl) henv targetFlags
        refine .otherwise liftM Runs.inGen hno false (fun _ => ⟨hfalse.composed, fun _ =>
            (Emit.composed_resolve out').inGen⟩)
          (fun g₃ _ => (hfalse.runs g₃).mono fun _ _ _ _ h => ⟨h.1, nofun⟩) fun g₃ hg₃ _ => ?_
        exact land_runs (hout.grown hg₃ le_rfl)

theorem loopTest_runs {test : Option ExprCode} (h : ∀ e ∈ test, e.Paces) (g : Ghost) :
    Runs false g 0 (loopTest test) (loopTest test) (Valued Conds g) := by
  cases test with
  | none => exact .pure ⟨.ofBool true, id⟩
  | some e =>
      refine (straight_beginLine _).step fun g₁ _ _ hlive => ((h e rfl).bareTest _ g₁).mono ?_
      exact fun _ _ _ _ hval => hval.after hlive

theorem straight_resolveExit (id : ScopeId) : Straight (resolveExit id) := by
  refine fun g => (Scoping.takeExit_runs id).scopesInGen.next ?_
  rintro _ m c d ⟨rfl, hch⟩
  refine (Emit.resolve_runs hch).inGen.mono ?_
  rintro g' _ _ _ ⟨rfl, hlive⟩
  exact ⟨rfl, rfl, fun hg => by rw [hlive, hg, Bool.true_or]⟩

theorem straight_resolveCont (id : ScopeId) : Straight (resolveCont id) := by
  refine fun g => (Scoping.takeCont_runs id).scopesInGen.next ?_
  rintro _ m c d ⟨rfl, hch⟩
  refine (Emit.resolve_runs hch).inGen.mono ?_
  rintro g' _ _ _ ⟨rfl, hlive⟩
  exact ⟨rfl, rfl, fun hg => by rw [hlive, hg, Bool.true_or]⟩

theorem marches_testFirstLoop (info : StmtInfo) {test : Option ExprCode} {step : Env → Gen Unit}
    {body : StmtCode} (ht : ∀ e ∈ test, e.Paces) (hstep : Paces step) (hb : Paces body.gen)
    (henv : env.InStep) : Marches (testFirstLoop info test step body env) := by
  have hback (inner : Env) (start : ℕ) (done : Chain) : Composed (fun _ => True) true (do
      Emit.resolveTo (← Emit.branch .goto) start
      Emit.resolve done
      resolveExit inner.scope : Gen Unit) :=
    (Emit.composed_branch _).inGen.bind fun _ => (Emit.composed_resolveTo _ _).inGen.bind fun _ =>
      (Emit.composed_resolve _).inGen.bind fun _ => composed_resolveExit _
  have hround {inner : Env} (hinner : inner.IsComposed fun _ => True) (start : ℕ) (done : Chain) :
      Composed (fun _ => True) true (do
        resolveCont inner.scope
        step inner
        Emit.resolveTo (← Emit.branch .goto) start
        Emit.resolve done
        resolveExit inner.scope : Gen Unit) :=
    (composed_resolveCont _).bind fun _ => (hstep.composed inner hinner).bind fun _ =>
      hback inner start done
  refine marches_withScope .loop info henv ⟨fun inner hinner => ?_, fun inner hinner g => ?_⟩
  · exact Emit.composed_entry.inGen.bind fun start =>
      (composed_loopTest fun e he => (ht e he).composed).bind fun c =>
      c.composed_jumpFalse.inGen.bind fun done => (Emit.composed_resolve _).inGen.bind fun _ =>
      (composed_rangedStat hb.composed hinner _).bind fun _ => hround hinner start done
  · refine Emit.entry_runs.inGen.step fun g₁ start start' _ hstart => ?_
    refine .value (loopTest_runs ht g₁) fun g₂ m c d hg₂ hval => ?_
    refine jumpFalse_runs hval.1 fun g₃ m done done' hg₃ hdone _ _ => ?_
    rw [add_zero]
    refine (marches_rangedStat hb hinner targetFlags).step
      (fun _ => hround hinner.isComposed start' done') fun g₄ _ hg₄ => ?_
    refine (straight_resolveCont inner.scope).step fun g₅ _ hg₅ _ => ?_
    refine (hstep.marches hinner).step (fun _ => hback inner start' done') fun g₆ _ hg₆ => ?_
    have hdone₆ := ((hdone.grown hg₄ le_rfl).grown hg₅ le_rfl).grown hg₆ le_rfl
    have hat₆ := ((((hstart.place.grown hg₂).grown hg₃).grown hg₄).grown hg₅).grown hg₆
    refine .value (Emit.branch_runs (.inr (.inl rfl))).inGen fun g₇ n back back' hg₇ hback => ?_
    refine .spend (Emit.resolveTo_runs hback.1 (hat₆.grown hg₇)).inGen fun g₈ _ _ hg₈ _ => ?_
    have hdone₈ := (hdone₆.grown hg₇ le_rfl).grown hg₈ le_rfl
    refine .spendAll (Emit.resolve_runs hdone₈).inGen fun g₉ _ _ _ => ?_
    exact (Marches.of_straight (straight_resolveExit _) (composed_resolveExit _)).runs g₉

theorem marches_testLastLoop (info : StmtInfo) {test : ExprCode} {body : StmtCode} (ht : test.Paces)
    (hb : Paces body.gen) (henv : env.InStep) : Marches (testLastLoop info test body env) := by
  have htest : ∀ e ∈ some test, e.Paces := fun e he => Option.some.inj he ▸ ht
  have hround (inner : Env) (start : ℕ) : Composed (fun _ => True) true (do
      resolveCont inner.scope
      if ← peek (·.reachable) then
        let c ← loopTest (some test)
        Emit.resolveTo (← c.jumpTrue) start
        Emit.resolve c.onFalse
      resolveExit inner.scope : Gen Unit) :=
    (composed_resolveCont _).bind fun _ => composed_peek (fun _ _ _ => rfl) fun _ => .ite
      ((composed_loopTest fun e he => (htest e he).composed).bind fun c =>
        c.composed_jumpTrue.inGen.bind fun _ => (Emit.composed_resolveTo _ _).inGen.bind fun _ =>
        (Emit.composed_resolve _).inGen.bind fun _ => composed_resolveExit _)
      (composed_resolveExit _)
  have hexit (inner : Env) := (Marches.of_straight (straight_resolveExit inner.scope)
    (composed_resolveExit inner.scope)).runs
  refine marches_withScope .loop info henv ⟨fun inner hinner => ?_, fun inner hinner g => ?_⟩
  · exact Emit.composed_entry.inGen.bind fun start =>
      (composed_rangedStat hb.composed hinner _).bind fun _ => hround inner start
  · refine Emit.entry_runs.inGen.step fun g₁ start start' _ hstart => ?_
    refine (marches_rangedStat hb hinner targetFlags).step (fun _ => hround inner start')
      fun g₂ _ hg₂ => ?_
    refine (straight_resolveCont inner.scope).step fun g₃ _ hg₃ _ => ?_
    refine .reachable_bind (.ite .rfl (fun _ => ?_) fun _ => hexit inner g₃)
    refine .value (loopTest_runs htest g₃) fun g₄ m c d hg₄ hval => ?_
    obtain ⟨onTrue, onFalse, hT, hF, rfl⟩ := hval.1.chains
    have hat₄ := ((hstart.place.grown hg₂).grown hg₃).grown hg₄
    rw [add_zero]
    refine .bind (Cond.jumpTrue_runs hval.1.op hval.1.test hT).inGen
      fun g₅ n yes yes' hg₅ hyes => ?_
    refine .spend (Emit.resolveTo_runs hyes.chains (hat₄.grown hg₅)).inGen fun g₆ _ _ hg₆ _ => ?_
    have hF₆ := (hF.grown hg₅ le_rfl).grown hg₆ le_rfl
    exact .spendAll (Emit.resolve_runs hF₆).inGen fun g₇ _ _ _ => hexit inner g₇

theorem marches_forLoop (info : StmtInfo) {init step : Env → Gen Unit} {test : Option ExprCode}
    {body : StmtCode} (hinit : Paces init) (ht : ∀ e ∈ test, e.Paces) (hstep : Paces step)
    (hb : Paces body.gen) (henv : env.InStep) : Marches (forLoop info init test step body env) :=
  marches_freeing ((hinit.marches henv).bind fun _ => marches_testFirstLoop info ht hstep hb henv)

theorem marches_labelled (info : StmtInfo) {body : StmtCode} (hb : Paces body.gen)
    (henv : env.InStep) : Marches (labelled info body env) := by
  refine marches_withScope .labelled info henv ⟨fun inner hinner => ?_, fun inner hinner => ?_⟩
  · exact (composed_rangedStat hb.composed hinner _).bind fun _ => composed_resolveExit _
  · exact ((marches_rangedStat hb hinner _).bind fun _ =>
      .of_straight (straight_resolveExit _) (composed_resolveExit _)).runs

/-! ### Jumps -/

/-- A line may be begun again. -/
theorem pendingLine_runs (line line' : Option ℕ) : Runs limited g 0
    (touch fun c => { c with pendingLine := line }) (touch fun c => { c with pendingLine := line' })
    (Plain fun g' _ _ => g' = g) := by
  refine (Emit.aside_runs (fun c c' hc => ?_) fun d d' hd => ?_).touch
  · cases hc
    exact ⟨line, c.lines, c.vars, c.catches, c.ranges, rfl, rfl⟩
  · cases hd
    exact ⟨line', d.lines, d.vars, d.catches, d.ranges, rfl, rfl⟩

theorem marches_jumpTo (info : StmtInfo) (target : NodeId) (nextRound : Bool) (henv : env.InStep) :
    Marches (jumpTo info target nextRound env) := by
  have hgaps (id : ScopeId) :=
    Marches.of_straight (straight_closeGaps env id) (composed_closeGaps env id)
  have hcomp (id : ScopeId) (line : Option ℕ) : Composed (fun _ => True) true (do
      touch fun c => { c with pendingLine := line }
      let chain ← Emit.branch .goto
      if nextRound then Scoping.addCont id chain else Scoping.addExit id chain
      closeGaps env id : Gen Unit) := by
    refine .bind (composed_set fun _ _ _ => ⟨⟨⟨rfl, rfl, rfl⟩, rfl, rfl⟩, rfl⟩) fun _ =>
      (Emit.composed_branch _).inGen.bind fun chain => .ite ?_ ?_
    · exact (composed_onScopes (Scoping.noOverflow_addCont id chain)).bind fun _ =>
        (hgaps id).composed
    · exact (composed_onScopes (Scoping.noOverflow_addExit id chain)).bind fun _ =>
        (hgaps id).composed
  refine ⟨composed_jumpTo info target nextRound henv.isComposed, fun g => ?_⟩
  refine .peek_even (fun _ _ h => h.frame.depth) fun depth => ?_
  refine .optional (P := fun _ _ _ => True) .rfl (fun _ => .throw) (fun _ => trivial)
    fun g₁ _ _ _ _ => ?_
  refine .peek_bind fun F s t _ => .get_bind fun F s' t' hst => ?_
  obtain ⟨_, _, _, hscopes, _⟩ := hst.links
  have htarget : (Part.get s' : MethodState).scopes.findTarget env.scope target =
    (Part.get t' : MethodState).scopes.findTarget env.scope target := hscopes.findTarget_eq _ _
  rw [htarget]
  refine .liftExcept_bind fun id _ => ?_
  refine (marches_unwind henv id).step (fun _ => hcomp id _) fun g₂ _ _ => ?_
  refine (pendingLine_runs _ _).step fun g₃ _ _ _ _ => ?_
  refine (Emit.branch_runs (.inr (.inl rfl))).inGen.next fun g₄ m chain chain' hch =>
    .ite .rfl ?_ ?_
  · exact fun _ => .spendAll (Scoping.addCont_runs id hch.1).scopesInGen fun g₅ _ _ _ =>
      (hgaps id).runs g₅
  · exact fun _ => .spendAll (Scoping.addExit_runs id hch.1).scopesInGen fun g₅ _ _ _ =>
      (hgaps id).runs g₅

theorem marches_retValue {value : ExprCode} (h : value.Paces) (t : Ty) (henv : env.InStep) :
    Marches (retValue value t env) := by
  have hgaps := Marches.of_straight (straight_closeGaps env Scopes.method)
    (composed_closeGaps env Scopes.method)
  have hcomp (result : Item) : Composed (fun _ => True) true (do
      let _ ← result.load
      Emit.plain (Opcode.ireturn + t.kind.widen.code)
      closeGaps env Scopes.method : Gen Unit) :=
    (Item.composed_load _).onAsm.bind fun _ => (Emit.composed_plain _).inGen.bind fun _ =>
      hgaps.composed
  have hend (result : Item) (hresult : result.isCond = false) : Marches (do
      unwind env Scopes.method
      let _ ← result.load
      Emit.plain (Opcode.ireturn + t.kind.widen.code)
      closeGaps env Scopes.method : Gen Unit) := by
    refine (marches_unwind henv _).bind fun _ => ⟨hcomp result, fun g => ?_⟩
    refine (Item.straight_load hresult).asmInGen.step fun g₁ _ _ _ => ?_
    refine (Emit.plain_runs ?_ ?_).inGen.step fun g₂ _ _ _ _ => hgaps.runs g₂
    all_goals cases t.kind <;> decide
  refine marches_freeing ⟨?_, fun g => ?_⟩
  · have hwait (result : Item) : Composed (fun _ => True) true (do
        unwind env Scopes.method
        let _ ← result.load
        Emit.plain (Opcode.ireturn + t.kind.widen.code)
        closeGaps env Scopes.method : Gen Unit) :=
      (composed_unwind henv.isComposed _).bind fun _ => hcomp result
    refine (h.composed.push t).bind fun v => .look (fun _ _ _ _ _ => rfl) fun _ => .ite ?_ ?_
    · exact (Emit.composed_newReg _).inGen.bind fun _ => (Item.composed_store _).onAsm.bind fun _ =>
        Composed.pure.bind hwait
    · exact Composed.pure.bind hwait
  · refine (h.push t g).step fun g₁ v _ _ ⟨hv, hresult, _⟩ => ?_
    subst hv
    refine .get_bind fun F s s' hst => ?_
    obtain ⟨_, _, _, hscopes, _⟩ := hst.links
    refine .ite ?_ (fun _ => ?_) fun _ => (hend v hresult).runs g₁
    · show s.scopes.hasFinally env.scope = true ↔ s'.scopes.hasFinally env.scope = true
      rw [hscopes.hasFinally_eq]
    · refine (Emit.straight_newReg t.kind).inGen.step fun g₂ reg _ _ => ?_
      refine (Item.straight_store _).asmInGen.step fun g₃ _ _ _ => ?_
      exact (hend (.var t.kind reg) rfl).runs g₃

theorem marches_retVoid (henv : env.InStep) : Marches (retVoid env) := by
  have hgaps := Marches.of_straight (straight_closeGaps env Scopes.method)
    (composed_closeGaps env Scopes.method)
  have hcomp (line : Option ℕ) : Composed (fun _ => True) true (do
      touch fun c => Code.markLine { c with pendingLine := line }
      Emit.plain .vreturn
      closeGaps env Scopes.method : Gen Unit) :=
    .bind (composed_touch (Code.changes_lineAt _)) fun _ =>
      (Emit.composed_plain _).inGen.bind fun _ =>
      hgaps.composed
  refine marches_freeing ⟨?_, fun g => ?_⟩
  · exact composed_peek (fun _ _ _ => rfl) fun line =>
      (composed_unwind henv.isComposed _).bind fun _ => hcomp line
  · refine .peek_bind fun F s t _ => ?_
    refine (marches_unwind henv _).step (fun _ => hcomp _) fun g₁ _ _ => ?_
    have hline (line : Option ℕ) (c : Code) :
        c.Aside (Code.markLine { c with pendingLine := line }) :=
      .trans ⟨line, c.lines, c.vars, c.catches, c.ranges, rfl, rfl⟩ (Code.aside_markLine _)
    refine (Emit.aside_runs (fun c c' hc => ?_) fun d d' hd => ?_).touch.step fun g₂ _ _ _ _ => ?_
    · cases hc
      exact hline _ c
    · cases hd
      exact hline _ d
    · exact (Emit.plain_runs (by decide) (by decide)).inGen.step fun g₃ _ _ _ _ => hgaps.runs g₃

theorem marches_raise {value : ExprCode} (h : value.Paces) : Marches (raise value) := by
  refine ⟨composed_raise h.composed, fun g => ?_⟩
  refine (h.straight_push _).step fun g₁ _ _ _ => ?_
  exact (Emit.plain_runs (by decide) (by decide)).inGen.mono fun _ _ _ _ h => ⟨h.1, trivial⟩

end Gen

end StackCode
