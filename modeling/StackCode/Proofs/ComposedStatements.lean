import StackCode.Generate.Method
import StackCode.Proofs.ComposedExpressions

/-!
# What methods are composed of

Every statement is composed of elementary steps if its parts are and if the `finally`
blocks around it are, and so is the code of a whole method. `Expr.isComposed_code` and
`Stmt.composed_code` follow the tree, `Gen.composed_methodBody` puts the parts of a method
together.

A statement works on the scopes, so an expression does without only if no `letIn` occurs
in it.
-/

namespace StackCode

/-! ### Scopes -/

namespace NoOverflow

variable {σ α β : Type} {x : EStateM Error σ α} {f : α → EStateM Error σ β}

theorem bind (hx : NoOverflow x) (hf : ∀ a, NoOverflow (f a)) : NoOverflow (x >>= f) := by
  intro s e s' h
  simp only [Bind.bind, EStateM.bind] at h
  split at h
  · exact hf _ _ _ _ h
  · cases h
    exact hx _ _ _ ‹_›

theorem pure {a : α} : NoOverflow (pure a : EStateM Error σ α) := fun _ _ _ h => nomatch h

theorem modifyGet {g : σ → α × σ} : NoOverflow (modifyGet g : EStateM Error σ α) :=
  fun _ _ _ h => nomatch h

theorem modify {g : σ → σ} : NoOverflow (modify g : EStateM Error σ Unit) := modifyGet

theorem get : NoOverflow (get : EStateM Error σ σ) := fun _ _ _ h => nomatch h

theorem throw {e : Error} (he : e.isOverflow = false) :
    NoOverflow (throw e : EStateM Error σ α) := by
  intro s e' s' h
  cases h
  exact he

theorem ite {c : Prop} [Decidable c] {y : EStateM Error σ α} (hx : NoOverflow x)
    (hy : NoOverflow y) :
    NoOverflow (if c then x else y) := by
  split
  · exact hx
  · exact hy

theorem mapM {γ : Type} {xs : List γ} {f : γ → EStateM Error σ α} (h : ∀ a, NoOverflow (f a)) :
    NoOverflow (xs.mapM f) := by
  induction xs with
  | nil =>
      rw [List.mapM_nil]
      exact pure
  | cons a xs ih =>
      rw [List.mapM_cons]
      exact (h a).bind fun _ => ih.bind fun _ => pure

end NoOverflow

namespace Scoping

theorem noOverflow_closeScope (id : ScopeId) : NoOverflow (closeScope id) := by
  refine .bind .get fun s => .ite (.bind (.throw rfl) fun _ => ?_) ?_
  · exact .bind .modify fun _ => .ite (.throw rfl) .pure
  · exact .bind .modify fun _ => .ite (.throw rfl) .pure

theorem noOverflow_takeExit (id : ScopeId) : NoOverflow (takeExit id) :=
  .bind .get fun _ => .bind .modify fun _ => .pure

theorem noOverflow_takeCont (id : ScopeId) : NoOverflow (takeCont id) :=
  .bind .get fun _ => .bind .modify fun _ => .pure

theorem noOverflow_addExit (id : ScopeId) (chain : Chain) : NoOverflow (addExit id chain) := by
  refine (noOverflow_takeExit id).bind fun exit => ?_
  split
  · exact .modify
  · exact .throw (Error.isPlain_iff.mp (Chain.merge_plain ‹_›)).1

theorem noOverflow_addCont (id : ScopeId) (chain : Chain) : NoOverflow (addCont id chain) := by
  refine (noOverflow_takeCont id).bind fun cont => ?_
  split
  · exact .modify
  · exact .throw (Error.isPlain_iff.mp (Chain.merge_plain ‹_›)).1

theorem noOverflow_openGap (id : ScopeId) (pc : Nat) : NoOverflow (openGap id pc) :=
  .bind .get fun _ => .ite (.bind (.throw rfl) fun _ => .modify) .modify

theorem noOverflow_takeGap (id : ScopeId) : NoOverflow (takeGap id) :=
  .bind .get fun _ => .bind .modify fun _ => .pure

theorem noOverflow_takeGaps (id : ScopeId) : NoOverflow (takeGaps id) :=
  .bind .get fun _ => .bind .modify fun _ => .pure

end Scoping

/-- Every `finally` block around is composed of elementary steps. -/
def Env.IsComposed (asks : Resolver → Prop) (env : Env) : Prop :=
  ∀ id, Composed asks true (env.finallyOf id)

namespace Env.IsComposed

variable {asks : Resolver → Prop} {env : Env}

theorem outermost : Env.outermost.IsComposed asks := fun _ => .pure

theorem inside (h : env.IsComposed asks) (id : ScopeId) : (env.inside id).IsComposed asks := h

theorem insideTry (h : env.IsComposed asks) (id : ScopeId) {block : Gen Unit}
    (hb : Composed asks true block) :
    (env.insideTry id block).IsComposed asks := fun _ => .ite hb (h _)

end Env.IsComposed

/-- The code of a statement is composed of elementary steps. -/
def StmtCode.IsComposed (asks : Resolver → Prop) (s : StmtCode) : Prop :=
  ∀ env : Env, env.IsComposed asks → Composed asks true (s.gen env)

namespace Gen

variable {asks : Resolver → Prop} {scopes : Bool} {env : Env}

theorem composed_onScopes {α : Type} {x : Scoping α} (h : NoOverflow x) :
    Composed asks true (liftM x : Gen α) :=
  .onScopes rfl h

theorem composed_throw {α : Type} {e : Error} (h : e.isOverflow = false) :
    Composed asks true (throw e : Gen α) := by
  have hthrow : Composed asks true (Gen.onScopes (throw e) : Gen α) := .onScopes rfl (.throw h)
  exact hthrow

theorem composed_findTarget (scopes : Scopes) (id : ScopeId) (target : NodeId) :
    Composed asks true (liftM (scopes.findTarget id target) : Gen ScopeId) := by
  unfold Scopes.findTarget
  split
  · exact .pure
  · exact composed_throw rfl

theorem composed_beginLine (line : Nat) : Composed asks scopes (touch (·.beginLine line)) :=
  composed_touch (Code.changes_beginLine line)

/-! ### Leaving protected regions -/

/-- Giving back a monitor. -/
theorem composed_giveBack (reg : UInt16) : Composed asks scopes (do
    let _ ← (Item.var .object reg).load
    Emit.plain .monitorexit
    let frame ← (← peek (·.frame)).unlock reg
    touch fun c => { c with frame } : Gen Unit) := by
  refine (Item.composed_load _).onAsm.bind fun _ => (Emit.composed_plain _).inGen.bind fun _ =>
    composed_peek (fun _ _ _ => rfl) fun frame => .bind (.liftExcept fun e he => ?_) fun _ =>
      composed_set fun _ _ _ => ⟨⟨⟨rfl, rfl, rfl⟩, rfl, rfl⟩, rfl⟩
  unfold Frame.unlock at he
  split at he
  · cases he
  · cases he
    rfl

theorem composed_cleanup (henv : env.IsComposed asks) (id : ScopeId) :
    Composed asks true (cleanup env id) := by
  refine (composed_peekScope _ _).bind fun cleanup => ?_
  split
  · exact henv id
  · exact composed_peek (fun _ _ _ => rfl) fun _ => .ite (composed_giveBack _) .pure
  · exact .pure

theorem composed_openGap (id : ScopeId) :
    Composed asks true (do Scoping.openGap id (← Emit.curPc) : Gen Unit) :=
  Emit.composed_curPc.inGen.bind fun _ => composed_onScopes (Scoping.noOverflow_openGap _ _)

theorem composed_leave (henv : env.IsComposed asks) (id : ScopeId) :
    Composed asks true (leave env id) := by
  refine composed_peek (fun _ _ _ => rfl) fun _ =>
    .ite ((composed_peekScope _ _).bind fun cleanup => ?_) .pure
  split
  · exact .pure
  · refine .look (fun _ _ _ _ _ => rfl) fun s => .ite (.ite ?_ (composed_openGap id)) ?_
    · exact composed_peek (fun _ _ _ => rfl) fun _ => (Emit.composed_jump _).inGen.bind fun _ =>
        (composed_onScopes .modify).bind fun _ => composed_openGap id
    · exact Emit.composed_curPc.inGen.bind fun _ =>
        (composed_onScopes (Scoping.noOverflow_openGap _ _)).bind fun _ => composed_cleanup henv id
  · exact (composed_cleanup henv id).bind fun _ => composed_openGap id

theorem composed_pathTo (env : Env) (last : ScopeId) : Composed asks true (pathTo env last) :=
  .look (fun _ _ _ _ _ => rfl) fun _ => .pure

theorem composed_unwind (henv : env.IsComposed asks) (last : ScopeId) :
    Composed asks true (unwind env last) :=
  (composed_pathTo env last).bind fun _ => .forM fun id _ => composed_leave henv id

theorem composed_closeGap (id : ScopeId) : Composed asks true (closeGap id) :=
  (composed_peekScope _ _).bind fun _ => .ite
    (Emit.composed_curPc.inGen.bind fun _ => composed_onScopes .modify) .pure

theorem composed_closeGaps (env : Env) (last : ScopeId) : Composed asks true (closeGaps env last) :=
  (composed_pathTo env last).bind fun _ => .forM fun id _ => composed_closeGap id

/-! ### Statements -/

/-- In dead code a declaration may still take its register. -/
theorem composed_declareIfAny (env : Env) (declared : Option LocalVar) : Composed asks scopes (do
    if (← peekScope env.scope (·.kind)) = .switch then
      if let some v := declared then
        let _ ← declare v : Gen Unit) := by
  refine (composed_peekScope _ _).bind fun _ => .ite ?_ .pure
  cases declared with
  | none => exact .pure
  | some v => exact (composed_declare v).bind fun _ => .pure

theorem composed_checkDepth (info : StmtInfo) (before : Nat) : Composed asks scopes (do
    let after ← peek (·.frame.depth)
    let expected := if (← get).letDepth = 0 then 0 else before
    if after ≠ expected then throw (.stackDepth after info.span.firstLine) : Gen Unit) :=
  composed_peek (fun _ _ _ => rfl) fun _ => .look (fun _ _ _ _ _ => rfl) fun _ =>
    .ite (.throw rfl) .pure

theorem composed_statement (info : StmtInfo) (declared : Option LocalVar) (env : Env)
    {body : Gen Unit} (h : Composed asks scopes body) :
    Composed asks scopes (statement info declared env body) :=
  composed_peek (fun _ _ _ => rfl) fun _ => .ite
    (composed_peek (fun _ _ _ => rfl) fun _ => (composed_beginLine _).bind fun _ => h.bind fun _ =>
      composed_checkDepth info _)
    (composed_declareIfAny env declared)

theorem composed_rangedStat {s : StmtCode} (h : s.IsComposed asks) (henv : env.IsComposed asks)
    (flags : UInt16) :
    Composed asks true (rangedStat s env flags) :=
  composed_ranged _ _ (h env henv)

theorem composed_rangedStats (stats : List Stmt) (flags : UInt16) {body : Gen Unit}
    (h : Composed asks true body) : Composed asks true (rangedStats stats flags body) := by
  unfold rangedStats
  split
  · exact h
  · exact composed_ranged _ _ h
  · exact composed_ranged _ _ h

theorem composed_withScope (kind : ScopeKind) (info : StmtInfo) (henv : env.IsComposed asks)
    {body : Env → Gen Unit} (h : ∀ env : Env, env.IsComposed asks → Composed asks true (body env)) :
    Composed asks true (withScope kind info env body) :=
  (composed_onScopes .modifyGet).bind fun id => (h _ (henv.inside id)).bind fun _ =>
    composed_onScopes (Scoping.noOverflow_closeScope id)

theorem composed_block (info : StmtInfo) (henv : env.IsComposed asks) {stats : Env → Gen Unit}
    (h : ∀ env : Env, env.IsComposed asks → Composed asks true (stats env)) :
    Composed asks true (block info stats env) :=
  composed_peek (fun _ _ _ => rfl) fun _ => (composed_withScope _ _ henv h).bind fun _ =>
    (composed_peekScope _ _).bind fun _ => .ite
      ((composed_beginLine _).bind fun _ => (Emit.composed_endScopes _).inGen.bind fun _ =>
        composed_set fun _ _ _ => ⟨⟨⟨rfl, rfl, rfl⟩, rfl, rfl⟩, rfl⟩)
      .pure

theorem composed_varDef (ctx : Context) (info : StmtInfo) (v : LocalVar) {init : Option ExprCode}
    (h : ∀ e ∈ init, e.IsComposed asks scopes) : Composed asks scopes (varDef ctx info v init) := by
  refine (composed_declare v).bind fun reg => ?_
  cases init with
  | none => exact .checkDimensions _ _
  | some e =>
      refine (Composed.checkString _ _).bind fun _ => .ite ?_ (.checkDimensions _ _)
      exact ((h e rfl).push _).bind fun _ => (Item.composed_store _).onAsm.bind fun _ =>
        .checkDimensions _ _

theorem composed_exec {e : ExprCode} (h : e.IsComposed asks scopes) :
    Composed asks scopes (exec e) :=
  h.effect.bind fun _ => (Item.composed_coerce _ _).onAsm.bind fun _ =>
    (Item.composed_discard _).onAsm

theorem composed_ite {test : ExprCode} {onTrue : StmtCode} {onFalse : Option StmtCode}
    (ht : test.IsComposed asks true) (hT : onTrue.IsComposed asks)
    (hF : ∀ s ∈ onFalse, s.IsComposed asks) (henv : env.IsComposed asks) :
    Composed asks true (ite test onTrue onFalse env) := by
  refine composed_freeing <| (ht.bareTest _).bind fun c =>
    c.composed_jumpFalse.inGen.bind fun falseChain =>
    .ite (Composed.pure.bind fun exit => ?_) ((Emit.composed_resolve _).inGen.bind fun _ =>
      (composed_rangedStat hT henv _).bind fun _ => (Emit.composed_branch _).inGen.bind
        fun exit => ?_)
  all_goals
    refine .ite (Emit.composed_resolve exit).inGen
      ((Emit.composed_resolve falseChain).inGen.bind fun _ => ?_)
    cases onFalse with
    | none => exact (Emit.composed_resolve exit).inGen
    | some s =>
        exact (composed_rangedStat (hF s rfl) henv _).bind fun _ =>
          (Emit.composed_resolve exit).inGen

theorem composed_loopTest {test : Option ExprCode} (h : ∀ e ∈ test, e.IsComposed asks scopes) :
    Composed asks scopes (loopTest test) := by
  cases test with
  | none => exact .pure
  | some e => exact (composed_beginLine _).bind fun _ => (h e rfl).bareTest _

theorem composed_resolveExit (id : ScopeId) : Composed asks true (resolveExit id) :=
  (composed_onScopes (Scoping.noOverflow_takeExit id)).bind fun _ => (Emit.composed_resolve _).inGen

theorem composed_resolveCont (id : ScopeId) : Composed asks true (resolveCont id) :=
  (composed_onScopes (Scoping.noOverflow_takeCont id)).bind fun _ => (Emit.composed_resolve _).inGen

theorem composed_testFirstLoop (info : StmtInfo) {test : Option ExprCode} {step : Env → Gen Unit}
    {body : StmtCode} (ht : ∀ e ∈ test, e.IsComposed asks true)
    (hstep : ∀ env : Env, env.IsComposed asks → Composed asks true (step env))
    (hb : body.IsComposed asks) (henv : env.IsComposed asks) :
    Composed asks true (testFirstLoop info test step body env) :=
  composed_withScope _ _ henv fun _ hinner => Emit.composed_entry.inGen.bind fun _ =>
    (composed_loopTest ht).bind fun c => c.composed_jumpFalse.inGen.bind fun _ =>
    (Emit.composed_resolve _).inGen.bind fun _ => (composed_rangedStat hb hinner _).bind fun _ =>
    (composed_resolveCont _).bind fun _ => (hstep _ hinner).bind fun _ =>
    (Emit.composed_branch _).inGen.bind fun _ => (Emit.composed_resolveTo _ _).inGen.bind fun _ =>
    (Emit.composed_resolve _).inGen.bind fun _ => composed_resolveExit _

theorem composed_testLastLoop (info : StmtInfo) {test : ExprCode} {body : StmtCode}
    (ht : test.IsComposed asks true) (hb : body.IsComposed asks) (henv : env.IsComposed asks) :
    Composed asks true (testLastLoop info test body env) :=
  composed_withScope _ _ henv fun _ hinner => Emit.composed_entry.inGen.bind fun _ =>
    (composed_rangedStat hb hinner _).bind fun _ => (composed_resolveCont _).bind fun _ =>
    composed_peek (fun _ _ _ => rfl) fun _ => .ite
      ((composed_loopTest fun _ he => Option.some.inj he ▸ ht).bind fun c =>
        c.composed_jumpTrue.inGen.bind fun _ => (Emit.composed_resolveTo _ _).inGen.bind fun _ =>
        (Emit.composed_resolve _).inGen.bind fun _ => composed_resolveExit _)
      (composed_resolveExit _)

theorem composed_forLoop (info : StmtInfo) {init step : Env → Gen Unit} {test : Option ExprCode}
    {body : StmtCode} (hinit : ∀ env : Env, env.IsComposed asks → Composed asks true (init env))
    (ht : ∀ e ∈ test, e.IsComposed asks true)
    (hstep : ∀ env : Env, env.IsComposed asks → Composed asks true (step env))
    (hb : body.IsComposed asks) (henv : env.IsComposed asks) :
    Composed asks true (forLoop info init test step body env) :=
  composed_freeing <| (hinit env henv).bind fun _ => composed_testFirstLoop info ht hstep hb henv

theorem composed_labelled (info : StmtInfo) {body : StmtCode} (hb : body.IsComposed asks)
    (henv : env.IsComposed asks) : Composed asks true (labelled info body env) :=
  composed_withScope _ _ henv fun _ hinner => (composed_rangedStat hb hinner _).bind fun _ =>
    composed_resolveExit _

theorem composed_jumpTo (info : StmtInfo) (target : NodeId) (nextRound : Bool)
    (henv : env.IsComposed asks) :
    Composed asks true (jumpTo info target nextRound env) := by
  have hend (id : ScopeId) : ∀ _ : PUnit, Composed asks true (closeGaps env id) := fun _ =>
    composed_closeGaps env id
  refine composed_peek (fun _ _ _ => rfl) fun _ => .optional (.throw rfl) fun _ =>
    composed_peek (fun _ _ _ => rfl) fun _ =>
    .look (fun _ _ _ _ _ => rfl) fun s => (composed_findTarget _ _ _).bind fun id =>
    (composed_unwind henv id).bind fun _ =>
      .bind (composed_set fun _ _ _ => ⟨⟨⟨rfl, rfl, rfl⟩, rfl, rfl⟩, rfl⟩) fun _ =>
    (Emit.composed_branch _).inGen.bind fun chain => .ite ?_ ?_
  · exact (composed_onScopes (Scoping.noOverflow_addCont id chain)).bind (hend id)
  · exact (composed_onScopes (Scoping.noOverflow_addExit id chain)).bind (hend id)

theorem composed_retValue {value : ExprCode} (h : value.IsComposed asks true) (t : Ty)
    (henv : env.IsComposed asks) :
    Composed asks true (retValue value t env) := by
  have hend (result : Item) : Composed asks true (do
      unwind env Scopes.method
      let _ ← result.load
      Emit.plain (Opcode.ireturn + t.kind.widen.code)
      closeGaps env Scopes.method : Gen Unit) :=
    (composed_unwind henv _).bind fun _ => (Item.composed_load _).onAsm.bind fun _ =>
      (Emit.composed_plain _).inGen.bind fun _ => composed_closeGaps env _
  refine composed_freeing <| (h.push t).bind fun v => .look (fun _ _ _ _ _ => rfl)
    fun _ => .ite ?_ ?_
  · exact (Emit.composed_newReg _).inGen.bind fun _ => (Item.composed_store _).onAsm.bind fun _ =>
      Composed.pure.bind hend
  · exact Composed.pure.bind hend

theorem composed_retVoid (henv : env.IsComposed asks) : Composed asks true (retVoid env) :=
  composed_freeing <| composed_peek (fun _ _ _ => rfl) fun _ =>
    (composed_unwind henv _).bind fun _ =>
    .bind (composed_touch (Code.changes_lineAt _)) fun _ =>
    (Emit.composed_plain _).inGen.bind fun _ => composed_closeGaps env _

theorem composed_raise {value : ExprCode} (h : value.IsComposed asks scopes) :
    Composed asks scopes (raise value) :=
  (h.push _).bind fun _ => (Emit.composed_plain _).inGen

/-! ### Switches -/

theorem caseKeys_plain {cs : List CaseCode} {seen : Bool} {e : Error}
    (h : caseKeys cs seen = .error e) : e.isPlain = true := by
  induction cs generalizing seen e with
  | nil => cases h
  | cons c cs ih =>
      -- the key of the first case, and then those of the others
      have hrest (key : Option Int32) (h : (do
          return key :: (← caseKeys cs (seen || key.isNone)) : Except Error (List (Option Int32))) =
          .error e) : e.isPlain = true := by
        cases hkeys : caseKeys cs (seen || key.isNone) with
        | ok keys => rw [hkeys] at h; cases h
        | error e' => rw [hkeys] at h; cases h; exact ih hkeys
      unfold caseKeys at h
      split at h
      · split at h
        · exact hrest _ h
        · cases h
          rfl
      · split at h
        · cases h
          rfl
        · exact hrest _ h

theorem composed_openTable (keys : List Int32) : Composed asks scopes (openTable keys) := by
  unfold openTable
  refine Emit.composed_curPc.inGen.bind fun _ => (Emit.composed_plain _).inGen.bind fun _ =>
    (Emit.composed_align _).inGen.bind fun _ => Emit.composed_curPc.inGen.bind fun _ =>
    (composed_touch (Code.changes_put4 _)).bind fun _ => ?_
  split
  · exact (composed_touch (((Code.changes_put4 _).andThen (Code.changes_put4 _)).andThen
      (Code.changes_fill4 _ _))).bind fun _ => .pure
  · exact (composed_touch ((Code.changes_put4 _).andThen (Code.changes_fill4 _ _))).bind
      fun _ => .pure

theorem composed_cases (site : SwitchSite) (frame : Frame) (henv : env.IsComposed asks)
    {codes : List (CaseCode × Option Int32)}
    (h : ∀ c ∈ codes, ∀ env : Env, env.IsComposed asks → Composed asks true (c.1.gen env))
    (targets : Array KeyTarget) : Composed asks true (cases site frame env codes targets) := by
  induction codes generalizing targets with
  | nil => exact .pure
  | cons c rest ih =>
      obtain ⟨c, key⟩ := c
      have hrest (targets : Array KeyTarget) : Composed asks true (do
          rangedStats c.stats RangeFlag.flowTarget (c.gen env)
          cases site frame env rest targets : Gen (Array KeyTarget)) :=
        (composed_rangedStats _ _ (h _ (List.mem_cons_self ..) env henv)).bind fun _ =>
          ih (fun c' hc' => h c' (List.mem_cons_of_mem _ hc')) targets
      unfold cases
      refine (Emit.composed_entryWith frame).inGen.bind fun pc => ?_
      dsimp only
      split
      · exact (composed_touch (Code.changes_set4 _ _)).bind fun _ => Composed.pure.bind hrest
      · exact (composed_touch (Code.changes_set4 _ _)).bind fun _ => Composed.pure.bind hrest
      · exact Composed.pure.bind hrest

theorem composed_closeTable (site : SwitchSite) (frame : Frame) (targets : Array KeyTarget) :
    Composed asks scopes (closeTable site frame targets) := by
  refine composed_peek (fun _ _ _ => rfl) fun _ =>
    .ite ((Emit.composed_entryWith frame).inGen.bind fun _ =>
    (composed_touch (Code.changes_set4 _ _)).bind fun _ => ?_) ?_
  all_goals
    split
    · exact composed_touch (Code.changes_closeSlots ..)
    · exact composed_touch (Code.changes_writePairs ..)

theorem composed_table {codes : List CaseCode}
    (h : ∀ c ∈ codes, ∀ env : Env, env.IsComposed asks → Composed asks true (c.gen env))
    (henv : env.IsComposed asks) : Composed asks true (do
      let keys ← caseKeys codes false
      let site ← openTable (keys.filterMap id)
      let frame ← peek (·.frame)
      touch (·.kill)
      let targets ← cases site frame env (codes.zip keys) #[]
      resolveExit env.scope
      closeTable site frame targets : Gen Unit) := by
  refine (Composed.liftExcept fun _ => caseKeys_plain).bind
    fun keys => (composed_openTable _).bind fun site =>
      composed_peek (fun _ _ _ => rfl) fun frame =>
    .bind (composed_set fun _ _ _ => ⟨⟨⟨rfl, rfl, rfl⟩, rfl, rfl⟩, rfl⟩) fun _ => ?_
  refine (composed_cases site frame henv (fun c hc => h c.1 ?_) #[]).bind fun targets =>
    (composed_resolveExit _).bind fun _ => composed_closeTable site frame targets
  exact (List.of_mem_zip hc).1

theorem composed_switch (info : StmtInfo) {selector : ExprCode} (hs : selector.IsComposed asks true)
    {codes : List CaseCode}
    (h : ∀ c ∈ codes, ∀ env : Env, env.IsComposed asks → Composed asks true (c.gen env))
    (henv : env.IsComposed asks) :
    Composed asks true (switch info selector codes env) :=
  composed_freeing <| .optional (.throw rfl) fun _ =>
    (composed_ranged _ _ (hs.push _)).bind fun _ => .ite (Item.composed_discard _).onAsm <|
      composed_withScope _ _ henv fun _ hinner => composed_table h hinner

/-! ### Protected regions -/

theorem composed_addCatch (span : Span) (row : CatchRow) : Composed asks true (addCatch span row) :=
  .addCatch rfl span row

theorem composed_addCatches (span : Span) (handler : Nat) (type : UInt16) (start : Nat)
    (gaps : List Nat) : Composed asks true (addCatches span handler type start gaps) := by
  induction start, gaps using addCatches.induct with
  | case1 start => exact .pure
  | case2 start gap => exact (composed_addCatch _ _).bind fun _ => composed_throw rfl
  | case3 start gap next rest ih => exact (composed_addCatch _ _).bind fun _ => ih

theorem composed_handler {c : CatchCode} (h : c.body.IsComposed asks) (start stop : Nat)
    (gaps : List Nat) (henv : env.IsComposed asks) :
    Composed asks true (handler c start stop gaps env) := by
  refine (composed_typeIndex _ _).bind fun _ => Emit.composed_curPc.inGen.bind fun _ =>
    (composed_addCatches _ _ _ _ _).bind fun _ => .optional (composed_addCatch _ _) fun _ =>
    (composed_touch (Code.changes_startLine _)).bind fun _ =>
    (composed_freeing <| (composed_declare _).bind fun _ =>
      (Item.composed_store _).onAsm.bind fun _ =>
      ?_).bind fun _ => composed_beginLine _
  split
  · exact (composed_beginLine _).bind fun _ => composed_rangedStat h henv _
  · exact composed_rangedStat h henv _

theorem composed_handlers (info : StmtInfo) (frame : Frame) (hasCleanup : Bool) (start stop : Nat)
    (gaps : List Nat) (henv : env.IsComposed asks) {catches : List CatchCode}
    (h : ∀ c ∈ catches, c.body.IsComposed asks) (exit : Chain) :
    Composed asks true (handlers info frame hasCleanup start stop gaps env catches exit) := by
  induction catches generalizing exit with
  | nil => exact .pure
  | cons c cs ih =>
      have hrest (exit : Chain) : Composed asks true (do
          closeGap env.scope
          handlers info frame hasCleanup start stop gaps env cs exit : Gen Chain) :=
        (composed_closeGap _).bind fun _ =>
          ih (fun c' hc' => h c' (List.mem_cons_of_mem _ hc')) exit
      refine (Emit.composed_entryPushed _ _).inGen.bind fun _ =>
        (composed_handler (h c (List.mem_cons_self ..)) _ _ _ henv).bind fun _ =>
        (composed_leave henv _).bind fun _ => .ite ?_ (Composed.pure.bind hrest)
      exact (composed_beginLine _).bind fun _ => (Emit.composed_branch _).inGen.bind fun _ =>
        (Cond.composed_join _ _).inGen.bind hrest

theorem composed_startLine (line : Nat) : Composed asks scopes (startLine line) :=
  composed_touch (Code.changes_startLine _)

theorem composed_kill : Composed asks scopes (touch (·.kill)) :=
  composed_set fun _ _ _ => ⟨⟨⟨rfl, rfl, rfl⟩, rfl, rfl⟩, rfl⟩

theorem composed_subroutine (finalLine : Nat) (henv : env.IsComposed asks) :
    Composed asks true (subroutine finalLine env) :=
  (composed_onScopes (Scoping.noOverflow_takeCont _)).bind fun _ => .ite .pure <|
    (Emit.composed_resolve _).inGen.bind fun _ => (composed_startLine _).bind fun _ =>
    (Emit.composed_newReg _).inGen.bind fun _ => (Item.composed_store _).onAsm.bind fun _ =>
    (composed_cleanup henv _).bind fun _ => (Emit.composed_register _ _).inGen.bind fun _ =>
      composed_kill

theorem composed_catchAll (span : Span) (frame : Frame) (start finalLine : Nat)
    (henv : env.IsComposed asks) :
    Composed asks true (catchAll span frame start finalLine env) := by
  have hend : ∀ _ : PUnit, Composed asks true (do
      Emit.plain .athrow
      touch (·.kill)
      subroutine finalLine env : Gen Unit) := fun _ =>
    (Emit.composed_plain _).inGen.bind fun _ => composed_kill.bind fun _ =>
      composed_subroutine finalLine henv
  refine .bind (composed_set fun _ _ _ => ⟨⟨⟨rfl, rfl, rfl⟩, rfl, rfl⟩, rfl⟩) fun _ =>
    (Emit.composed_entryPushed _ _).inGen.bind fun _ =>
    (composed_onScopes (Scoping.noOverflow_takeGaps _)).bind fun _ =>
    (composed_addCatches _ _ _ _ _).bind fun _ => (composed_startLine _).bind fun _ =>
    (Emit.composed_newReg _).inGen.bind fun _ => (Item.composed_store _).onAsm.bind fun _ =>
    (composed_leave henv _).bind fun _ => (Item.composed_load _).onAsm.bind fun _ =>
    (composed_onScopes (Scoping.noOverflow_takeGap _)).bind fun gap => ?_
  cases gap with
  | none => exact .bind (composed_throw rfl) hend
  | some stop => exact (composed_addCatch _ _).bind hend

theorem composed_protect (info : StmtInfo) {body : StmtCode} (hb : body.IsComposed asks)
    {catches : List CatchCode} (h : ∀ c ∈ catches, c.body.IsComposed asks) (finalLine : Nat)
    (henv : env.IsComposed asks) :
    Composed asks true (protect info body catches finalLine env) := by
  have hend (frame : Frame) (start : Nat) (hasCleanup : Bool) (exit : Chain) :
      Composed asks true (do
      if hasCleanup then catchAll body.span frame start finalLine env
      Emit.resolve exit : Gen Unit) :=
    .optional (composed_catchAll _ _ _ _ henv) fun _ => (Emit.composed_resolve exit).inGen
  refine composed_freeing <| Emit.composed_curPc.inGen.bind fun start =>
    composed_peek (fun _ _ _ => rfl) fun frame =>
    (composed_rangedStat hb henv _).bind fun _ => Emit.composed_curPc.inGen.bind fun stop =>
    (composed_peekScope _ _).bind fun hasCleanup => (composed_peekScope _ _).bind fun gaps =>
    (composed_beginLine _).bind fun _ => (composed_leave henv _).bind fun _ =>
    (composed_beginLine _).bind fun _ => (Emit.composed_branch _).inGen.bind fun exit =>
    (composed_closeGap _).bind fun _ => .ite ?_ ?_
  · exact (composed_handlers info frame hasCleanup start stop gaps henv h exit).bind
      (hend frame start hasCleanup)
  · exact Composed.pure.bind (hend frame start hasCleanup)

theorem composed_openProtected (kind : ScopeKind) (info : StmtInfo) (cleanup : Cleanup)
    (env : Env) :
    Composed asks true (openProtected kind info cleanup env) :=
  (composed_onScopes .modifyGet).bind fun _ => (composed_onScopes .modify).bind fun _ => .pure

theorem composed_sync (info : StmtInfo) {lock : ExprCode} (hl : lock.IsComposed asks true)
    {body : StmtCode} (hb : body.IsComposed asks) (henv : env.IsComposed asks) :
    Composed asks true (sync info lock body env) :=
  composed_freeing <| (Emit.composed_newReg _).inGen.bind fun _ => (hl.push _).bind fun _ =>
    (Item.composed_duplicate _).onAsm.bind fun _ => (Item.composed_store _).onAsm.bind fun _ =>
    (Emit.composed_plain _).inGen.bind fun _ =>
    .bind (composed_set fun _ _ _ => ⟨⟨⟨rfl, rfl, rfl⟩, rfl, rfl⟩, rfl⟩) fun _ =>
    (composed_openProtected _ _ _ _).bind fun id =>
    (composed_protect info hb (fun _ hc => absurd hc List.not_mem_nil) _
      (henv.inside id)).bind fun _ =>
    composed_onScopes (Scoping.noOverflow_closeScope id)

theorem composed_tryCatch (ctx : Context) (info : StmtInfo) {body : StmtCode}
    (hb : body.IsComposed asks) {catches : List CatchCode}
    (h : ∀ c ∈ catches, c.body.IsComposed asks) (final : Option Stmt) {finalCode : Option StmtCode}
    (hf : ∀ s ∈ finalCode, s.IsComposed asks) (henv : env.IsComposed asks) :
    Composed asks true (tryCatch ctx info body catches final finalCode env) := by
  have hrest {inner : ScopeId → Env} (hinner : ∀ id, (inner id).IsComposed asks) (finalLine : Nat) :
      ∀ _ : PUnit, Composed asks true (do
        let id ← openProtected .tryBlock info (.finallyBlock final.isSome) env
        protect info body catches finalLine (inner id)
        Scoping.closeScope id : Gen Unit) := fun _ =>
    (composed_openProtected _ _ _ _).bind fun id =>
      (composed_protect info hb h _ (hinner id)).bind fun _ =>
      composed_onScopes (Scoping.noOverflow_closeScope id)
  have hwant : Composed asks true (modify fun s : MethodState =>
      { s with subroutines := wantsSubroutines ctx.config final } : Gen Unit) :=
    .note (fun s => (s.locals, wantsSubroutines ctx.config final, s.letDepth)) fun _ _ _ _ _ => rfl
  cases finalCode with
  | none =>
      have hinner (id : ScopeId) : (env.inside id).IsComposed asks := henv.inside id
      exact .look (fun _ _ _ _ _ => rfl) fun s =>
        .ite (hrest hinner _ ⟨⟩) (hwant.bind (hrest hinner _))
  | some f =>
      have hinner (id : ScopeId) :=
        henv.insideTry id (composed_rangedStat (hf f rfl) henv RangeFlag.block)
      exact .look (fun _ _ _ _ _ => rfl) fun s =>
        .ite (hrest hinner _ ⟨⟩) (hwant.bind (hrest hinner _))

end Gen

/-! ### Trees -/

mutual

/-- Whether no `letIn` occurs in an expression. -/
def Expr.letFree (e : Expr) : Bool :=
  match e with
  | .literal _ | .ident _ _ | .selfRef _ _ _ | .classLit _ _ => true
  | .select _ t _ => t.letFree
  | .apply _ f as => f.letFree && Expr.allLetFree as
  | .newClass _ _ as => Expr.allLetFree as
  | .newArray _ ds => Expr.allLetFree ds
  | .arrayInit _ es => Expr.allLetFree es
  | .parens _ a => a.letFree
  | .assign _ l r => l.letFree && r.letFree
  | .assignOp _ _ _ l r => l.letFree && r.letFree
  | .unary _ _ _ a => a.letFree
  | .binary _ _ _ l r => l.letFree && r.letFree
  | .cast _ _ a => a.letFree
  | .typeTest _ a _ => a.letFree
  | .index _ a x => a.letFree && x.letFree
  | .cond _ c t f => c.letFree && t.letFree && f.letFree
  | .letIn _ _ _ => false

/-- Whether no `letIn` occurs in any of the expressions. -/
def Expr.allLetFree (es : List Expr) : Bool :=
  match es with
  | [] => true
  | e :: es => e.letFree && Expr.allLetFree es

end

variable {ctx : Context} {asks : Resolver → Prop}

mutual

theorem Expr.isComposed_code (hr : asks ctx.resolver) {scopes : Bool} (env : Env) (e : Expr)
    (h : e.letFree = true ∨ scopes = true ∧ env.IsComposed asks) :
    (e.code ctx env).IsComposed asks scopes := by
  cases e with
  | literal i =>
      rw [Expr.code]
      exact ExprCode.isComposed_ofItem hr i fun t => Gen.composed_literal i t
  | ident i s =>
      rw [Expr.code]
      exact ExprCode.isComposed_ofItem hr i fun _ => Context.composed_ident i s
  | selfRef i isSuper ctor =>
      rw [Expr.code]
      exact ExprCode.isComposed_ofItem hr i fun _ => Gen.composed_selfRef isSuper ctor
  | select i t s =>
      simp only [Expr.letFree] at h
      rw [Expr.code]
      exact ExprCode.isComposed_ofItem hr i fun _ =>
        Context.composed_select hr (t.isComposed_code hr env h) _ s
  | classLit i t =>
      rw [Expr.code]
      exact ExprCode.isComposed_ofItem hr i fun _ => Gen.composed_classLit i t
  | apply i f as =>
      simp only [Expr.letFree, Bool.and_eq_true] at h
      rw [Expr.code]
      exact ExprCode.isComposed_ofItem hr i fun _ =>
        Gen.composed_apply (f.isComposed_code hr env (h.imp_left And.left))
          (Expr.isComposed_codes hr env as (h.imp_left And.right)) _
  | newClass i m as =>
      simp only [Expr.letFree] at h
      rw [Expr.code]
      exact ExprCode.isComposed_ofItem hr i fun _ =>
        Gen.composed_newClass i m (Expr.isComposed_codes hr env as h)
  | newArray i ds =>
      simp only [Expr.letFree] at h
      rw [Expr.code]
      exact ExprCode.isComposed_ofItem hr i fun _ =>
        Gen.composed_newArray i (Expr.isComposed_codes hr env ds h)
  | arrayInit i es =>
      simp only [Expr.letFree] at h
      rw [Expr.code]
      exact ExprCode.isComposed_ofItem hr i fun _ =>
        Gen.composed_arrayInit i (Expr.isComposed_codes hr env es h)
  | parens i a =>
      simp only [Expr.letFree] at h
      rw [Expr.code]
      exact ExprCode.isComposed_parens hr i _ (a.isComposed_code hr env h)
  | assign i l r =>
      simp only [Expr.letFree, Bool.and_eq_true] at h
      rw [Expr.code]
      exact ExprCode.isComposed_ofItem hr i fun _ =>
        Gen.composed_assign (l.isComposed_code hr env (h.imp_left And.left))
          (r.isComposed_code hr env (h.imp_left And.right))
  | assignOp i op t l r =>
      simp only [Expr.letFree, Bool.and_eq_true] at h
      rw [Expr.code]
      exact ExprCode.isComposed_ofItem hr i fun _ =>
        Context.composed_assignOp hr i op t (l.isComposed_code hr env (h.imp_left And.left))
          (r.isComposed_code hr env (h.imp_left And.right)) _
  | unary i op t a =>
      simp only [Expr.letFree] at h
      rw [Expr.code]
      exact Context.isComposed_unaryCode hr i op t (a.isComposed_code hr env h)
  | binary i op t l r =>
      simp only [Expr.letFree, Bool.and_eq_true] at h
      rw [Expr.code]
      exact Context.isComposed_binaryCode hr i op t (l.isComposed_code hr env (h.imp_left And.left))
        (r.isComposed_code hr env (h.imp_left And.right)) _
  | cast i t a =>
      simp only [Expr.letFree] at h
      rw [Expr.code]
      exact ExprCode.isComposed_ofItem hr i fun _ =>
        Context.composed_cast i t (a.isComposed_code hr env h)
  | typeTest i a t =>
      simp only [Expr.letFree] at h
      rw [Expr.code]
      exact ExprCode.isComposed_ofItem hr i fun _ =>
        Gen.composed_typeTest i (a.isComposed_code hr env h) t
  | index i a x =>
      simp only [Expr.letFree, Bool.and_eq_true] at h
      rw [Expr.code]
      exact ExprCode.isComposed_ofItem hr i fun _ =>
        Gen.composed_index i (a.isComposed_code hr env (h.imp_left And.left))
          (x.isComposed_code hr env (h.imp_left And.right))
  | cond i c t f =>
      simp only [Expr.letFree, Bool.and_eq_true] at h
      have hc := c.isComposed_code hr env (h.imp_left fun h => h.1.1)
      have ht := t.isComposed_code hr env (h.imp_left fun h => h.1.2)
      have hf := f.isComposed_code hr env (h.imp_left And.right)
      have hvalue := ExprCode.isComposed_ofItem hr i fun u => Gen.composed_condValue i hc ht hf u
      have hcond := Gen.composed_condCond hc ht hf
      rw [Expr.code]
      exact ⟨hvalue.item, hcond, hcond, hvalue.append, hvalue.effect⟩
  | letIn i ss v =>
      simp only [Expr.letFree, Bool.false_eq_true, false_or] at h
      obtain ⟨rfl, henv⟩ := h
      rw [Expr.code]
      exact ExprCode.isComposed_ofItem hr i fun _ =>
        Gen.composed_letIn (Stmt.composed_gens hr ss henv)
          (v.isComposed_code hr env (.inr ⟨rfl, henv⟩))

theorem Expr.isComposed_codes (hr : asks ctx.resolver) {scopes : Bool} (env : Env) (es : List Expr)
    (h : Expr.allLetFree es = true ∨ scopes = true ∧ env.IsComposed asks) :
    ∀ c ∈ Expr.codes ctx es env, c.IsComposed asks scopes := by
  cases es with
  | nil =>
      rw [Expr.codes]
      exact fun c hc => absurd hc List.not_mem_nil
  | cons e es =>
      simp only [Expr.allLetFree, Bool.and_eq_true] at h
      rw [Expr.codes]
      intro c hc
      rcases List.mem_cons.mp hc with rfl | hc
      · exact e.isComposed_code hr env (h.imp_left And.left)
      · exact Expr.isComposed_codes hr env es (h.imp_left And.right) c hc

theorem Stmt.composed_code (hr : asks ctx.resolver) (s : Stmt) {env : Env}
    (henv : env.IsComposed asks) :
    Composed asks true ((s.code ctx).gen env) := by
  cases s with
  | block i ss =>
      rw [Stmt.code]
      exact Gen.composed_statement i none env
        (Gen.composed_block i henv fun _ hinner => Stmt.composed_gens hr ss hinner)
  | varDef i v init =>
      cases init with
      | none =>
          rw [Stmt.code]
          exact Gen.composed_statement i (some v) env (Gen.composed_varDef ctx i v (by simp))
      | some e =>
          rw [Stmt.code]
          refine Gen.composed_statement i (some v) env (Gen.composed_varDef ctx i v ?_)
          rintro _ ⟨⟩
          exact e.isComposed_code hr env (.inr ⟨rfl, henv⟩)
  | skip i =>
      rw [Stmt.code]
      exact Gen.composed_statement i none env .pure
  | doLoop i b c =>
      rw [Stmt.code]
      exact Gen.composed_statement i none env (Gen.composed_testLastLoop i
        (c.isComposed_code hr env (.inr ⟨rfl, henv⟩))
        (fun _ hinner => b.composed_code hr hinner) henv)
  | whileLoop i c b =>
      rw [Stmt.code]
      refine Gen.composed_statement i none env (Gen.composed_testFirstLoop i ?_ (fun _ _ => .pure)
        (fun _ hinner => b.composed_code hr hinner) henv)
      rintro _ ⟨⟩
      exact c.isComposed_code hr env (.inr ⟨rfl, henv⟩)
  | forLoop i init test step b =>
      have hloop {test : Option ExprCode} (ht : ∀ e ∈ test, e.IsComposed asks true) :=
        Gen.composed_forLoop i (fun _ hinner => Stmt.composed_gens hr init hinner) ht
          (fun _ hinner => Stmt.composed_gens hr step hinner)
          (fun _ hinner => b.composed_code hr hinner) henv
      cases test with
      | none =>
          rw [Stmt.code]
          exact Gen.composed_statement i none env (hloop (by simp))
      | some c =>
          rw [Stmt.code]
          refine Gen.composed_statement i none env (hloop ?_)
          rintro _ ⟨⟩
          exact c.isComposed_code hr env (.inr ⟨rfl, henv⟩)
  | foreach i v e b =>
      rw [Stmt.code]
      exact Gen.composed_statement i none env (.throw rfl)
  | labelled i l b =>
      rw [Stmt.code]
      exact Gen.composed_statement i none env
        (Gen.composed_labelled i (fun _ hinner => b.composed_code hr hinner) henv)
  | switch i e cs =>
      rw [Stmt.code]
      exact Gen.composed_statement i none env (Gen.composed_switch i
        (e.isComposed_code hr env (.inr ⟨rfl, henv⟩)) (Case.composed_codes hr cs) henv)
  | sync i e b =>
      rw [Stmt.code]
      exact Gen.composed_statement i none env (Gen.composed_sync i
        (e.isComposed_code hr env (.inr ⟨rfl, henv⟩))
        (fun _ hinner => b.composed_code hr hinner) henv)
  | tryCatch i b cs final =>
      cases final with
      | none =>
          rw [Stmt.code]
          exact Gen.composed_statement i none env (Gen.composed_tryCatch ctx i
            (fun _ hinner => b.composed_code hr hinner) (Catch.composed_codes hr cs) none
            (by simp) henv)
      | some f =>
          rw [Stmt.code]
          refine Gen.composed_statement i none env (Gen.composed_tryCatch ctx i
            (fun _ hinner => b.composed_code hr hinner) (Catch.composed_codes hr cs)
            (some f) ?_ henv)
          rintro _ ⟨⟩ _ hinner
          exact f.composed_code hr hinner
  | ite i c t f =>
      cases f with
      | none =>
          rw [Stmt.code]
          exact Gen.composed_statement i none env (Gen.composed_ite
            (c.isComposed_code hr env (.inr ⟨rfl, henv⟩))
            (fun _ hinner => t.composed_code hr hinner)
            (by simp) henv)
      | some f =>
          rw [Stmt.code]
          refine Gen.composed_statement i none env (Gen.composed_ite
            (c.isComposed_code hr env (.inr ⟨rfl, henv⟩))
            (fun _ hinner => t.composed_code hr hinner)
            ?_ henv)
          rintro _ ⟨⟩ _ hinner
          exact f.composed_code hr hinner
  | exec i e =>
      rw [Stmt.code]
      exact Gen.composed_statement i none env
        (Gen.composed_exec (e.isComposed_code hr env (.inr ⟨rfl, henv⟩)))
  | breakTo i t | continueTo i t =>
      rw [Stmt.code]
      exact Gen.composed_statement i none env (Gen.composed_jumpTo i t _ henv)
  | ret i e =>
      cases e with
      | none =>
          rw [Stmt.code]
          exact Gen.composed_statement i none env (Gen.composed_retVoid henv)
      | some e =>
          rw [Stmt.code]
          exact Gen.composed_statement i none env
            (Gen.composed_retValue (e.isComposed_code hr env (.inr ⟨rfl, henv⟩)) _ henv)
  | raise i e =>
      rw [Stmt.code]
      exact Gen.composed_statement i none env
        (Gen.composed_raise (e.isComposed_code hr env (.inr ⟨rfl, henv⟩)))
  | assert i c d =>
      rw [Stmt.code]
      exact Gen.composed_statement i none env (.throw rfl)
  | localClass i c =>
      rw [Stmt.code]
      exact Gen.composed_statement i none env (.throw rfl)

theorem Stmt.composed_gens (hr : asks ctx.resolver) (ss : List Stmt) {env : Env}
    (henv : env.IsComposed asks) :
    Composed asks true (Stmt.gens ctx ss env) := by
  cases ss with
  | nil =>
      rw [Stmt.gens]
      exact .pure
  | cons s ss =>
      rw [Stmt.gens]
      exact (s.composed_code hr henv).bind fun _ => Stmt.composed_gens hr ss henv

theorem Case.composed_codes (hr : asks ctx.resolver) (cs : List Case) :
    ∀ c ∈ Case.codes ctx cs, ∀ env : Env, env.IsComposed asks → Composed asks true (c.gen env) := by
  cases cs with
  | nil =>
      rw [Case.codes]
      exact fun c hc => absurd hc List.not_mem_nil
  | cons c cs =>
      obtain ⟨span, label, ss⟩ := c
      rw [Case.codes]
      intro c hc env henv
      rcases List.mem_cons.mp hc with rfl | hc
      · exact Stmt.composed_gens hr ss henv
      · exact Case.composed_codes hr cs c hc env henv

theorem Catch.composed_codes (hr : asks ctx.resolver) (cs : List Catch) :
    ∀ c ∈ Catch.codes ctx cs, c.body.IsComposed asks := by
  cases cs with
  | nil =>
      rw [Catch.codes]
      exact fun c hc => absurd hc List.not_mem_nil
  | cons c cs =>
      obtain ⟨span, v, b⟩ := c
      rw [Catch.codes]
      intro c hc env henv
      rcases List.mem_cons.mp hc with rfl | hc
      · exact b.composed_code hr henv
      · exact Catch.composed_codes hr cs c hc env henv

end

/-! ### Methods -/

namespace Gen

theorem composed_parameters {scopes : Bool} (ctx : Context) :
    Composed asks scopes (parameters ctx) := by
  have hdefine (reg : UInt16) : Composed asks scopes (touch (·.define reg)) :=
    composed_set fun _ _ _ => ⟨⟨⟨rfl, rfl, rfl⟩, rfl, rfl⟩, rfl⟩
  have hparams : ∀ _ : PUnit, Composed asks scopes (ctx.method.params.forM fun p => do
      let reg ← declare p
      touch (·.define reg)
      checkDimensions ctx.method.span p.ty : Gen Unit) := fun _ =>
    .forM fun p _ => (composed_declare p).bind fun reg => (hdefine reg).bind fun _ =>
      .checkDimensions _ _
  exact .ite (hparams ⟨⟩) ((Emit.composed_newVar _ _).inGen.bind fun reg =>
    (hdefine reg).bind hparams)

theorem composed_fallOff {scopes : Bool} (ctx : Context) (line : Nat) :
    Composed asks scopes (fallOff ctx line) := by
  refine composed_peek (fun _ _ _ => rfl) fun depth => .optional (.throw rfl) fun _ =>
    composed_peek (fun _ _ _ => rfl) fun _ =>
    .ite ((composed_beginLine line).bind fun _ => .ite (Emit.composed_plain _).inGen ?_) .pure
  exact Emit.composed_entry.inGen.bind fun start => (Emit.composed_branch _).inGen.bind fun chain =>
    (Emit.composed_resolveTo chain start).inGen

theorem composed_methodBody (hr : asks ctx.resolver) (body : Stmt) :
    Composed asks true (methodBody ctx body) :=
  (composed_parameters ctx).bind fun _ => Emit.composed_entry.inGen.bind fun _ =>
    (composed_ranged _ _ <| (body.composed_code hr .outermost).bind fun _ =>
      composed_fallOff ctx _).bind fun _ => (Emit.composed_endScopes 0).inGen

theorem built_methodBody {r : Option Resolver} (hr : ctx.Asks r) (body : Stmt) :
    Built r true (methodBody ctx body) := by
  have h : Composed (Eq ctx.resolver) true (methodBody ctx body) := composed_methodBody rfl body
  exact h.built fun _ same => same ▸ ⟨hr.plain, hr.same⟩

end Gen

namespace ClassGen

/-- The state in which an attempt at a method begins. -/
def firstState (ctx : Context) (wide subroutines : Bool) (s : ClassState) : MethodState :=
  { asm := ⟨.new wide ctx.config, s.pool⟩, subroutines, reports := s.reports, appends := s.appends }

/-- What an attempt makes of the way its run ended. -/
def concluded :
    EStateM.Result Error MethodState Unit → EStateM.Result Error ClassState (Option Code)
  | .ok _ s => .ok (some s.asm.code) ⟨s.asm.pool, s.reports, s.appends⟩
  | .error .codeSizeOverflow s => .ok none ⟨s.asm.pool, s.reports, s.appends⟩
  | .error e s => .error e ⟨s.asm.pool, s.reports, s.appends⟩

theorem attempt_eq (ctx : Context) (body : Stmt) (wide subroutines : Bool) (s : ClassState) :
    attempt ctx body wide subroutines s =
      concluded (Gen.methodBody ctx body (firstState ctx wide subroutines s)) := rfl

end ClassGen

end StackCode
