import StackCode.Proofs.LockstepSwitch
import StackCode.Proofs.SparingExpressions

/-!
# Statements leave code alone

A statement hands jumps over to the scopes around it and settles those of the scopes that it has
opened itself. So all it takes for a zone to be spared is that the jumps in these scopes lie off
it, and where a statement begins, it has opened none yet.

In a switch, a statement also fills in a table, but one that it has written itself. Where control
does not come, such a table has no bytes of its own; its words are then filled in further behind.
-/

namespace StackCode

variable {z : Zone} {l : Bool}

/-! ### Scopes -/

namespace Zone.Apart

variable {σ : Scopes}

theorem modifyScope (h : z.Apart σ) (id : ℕ) {f : Scope → Scope}
    (hf : z.base ≤ id → ∀ scope, z.Avoids scope.exit ∧ z.Avoids scope.cont →
      z.Avoids (f scope).exit ∧ z.Avoids (f scope).cont) : z.Apart (σ.modifyScope id f) := by
  refine ⟨by rw [Scopes.depth_modifyScope]; exact h.base, fun i hi => ?_⟩
  by_cases hid : i = id
  · subst hid
    by_cases hlt : i < σ.depth
    · rw [Scopes.get_modifyScope_self hlt]
      exact hf hi _ (h.off i hi)
    · rw [Scopes.get_of_depth_le (by rw [Scopes.depth_modifyScope]; omega)]
      exact ⟨.nil, .nil⟩
  · rw [Scopes.get_modifyScope_of_ne _ hid]
    exact h.off i hi

theorem push (h : z.Apart σ) (kind : ScopeKind) (tree : Option NodeId) (parent : ScopeId) :
    z.Apart (σ.push kind tree parent).2 := by
  have hdepth := σ.depth_push kind tree parent
  refine ⟨by have := h.base; omega, fun i hi => ?_⟩
  rcases Nat.lt_trichotomy i σ.depth with hlt | rfl | hgt
  · rw [Scopes.get_push_of_lt hlt]
    exact h.off i hi
  · rw [Scopes.get_push_self]
    exact ⟨.nil, .nil⟩
  · rw [Scopes.get_of_depth_le (by omega)]
    exact ⟨.nil, .nil⟩

/-- The innermost scope is closed; it is one from the base on. -/
theorem pop (h : z.Apart σ) {id : ℕ} (hid : id + 1 = σ.depth) (hbase : z.base ≤ id) :
    z.Apart { σ with table := σ.table.pop } := by
  have hdepth : Scopes.depth { σ with table := σ.table.pop } = id := by
    have : σ.table.size = id + 1 := hid.symm
    simp [Scopes.depth, this]
  refine ⟨by omega, fun i hi => ?_⟩
  by_cases hlt : i < id
  · rw [Scopes.get_pop_of_lt (hid ▸ Nat.succ_lt_succ hlt)]
    exact h.off i hi
  · rw [Scopes.get_of_depth_le (by omega)]
    exact ⟨.nil, .nil⟩

end Zone.Apart

namespace Scoping

/-- A change of the scopes that leaves them apart from the zone. -/
theorem spares_modifyGet {α : Type} {f : Scopes → α × Scopes} {Q : α → Prop}
    (h : ∀ σ, z.Apart σ → z.Apart (f σ).2 ∧ Q (f σ).1) :
    Spares z l l (modifyGet f : Scoping α) Q := by
  rintro s _ _ ⟨⟩ hs
  exact ⟨⟨hs.toClear, (h _ hs.scopes).1, hs.live⟩, .refl _ _ _, (h _ hs.scopes).2⟩

theorem steady_modifyScope (id : ScopeId) {f : Scope → Scope}
    (hf : z.base ≤ id → ∀ scope, z.Avoids scope.exit ∧ z.Avoids scope.cont →
      z.Avoids (f scope).exit ∧ z.Avoids (f scope).cont) : Steady z l (modifyScope id f) :=
  spares_modifyGet fun _ hσ => ⟨hσ.modifyScope id hf, trivial⟩

theorem spares_openScope (kind : ScopeKind) (tree : Option NodeId) (parent : ScopeId) :
    Spares z l l (openScope kind tree parent) (z.base ≤ ·) :=
  spares_modifyGet fun _ hσ => ⟨hσ.push kind tree parent, hσ.base⟩

theorem steady_closeScope {id : ScopeId} (hid : z.base ≤ id) : Steady z l (closeScope id) := by
  intro s a p hrun hs
  obtain ⟨σ, _, hget, hrun⟩ := EStateM.bind_eq_ok.mp hrun
  cases hget
  split at hrun
  · cases hrun
  · rename_i hdepth
    have hpop : z.Apart { s.scopes with table := s.scopes.table.pop } :=
      hs.scopes.pop (Decidable.not_not.mp hdepth) hid
    obtain ⟨⟨⟩, σ', hmod, hrun⟩ := EStateM.bind_eq_ok.mp hrun
    cases hmod
    split at hrun
    · cases hrun
    · cases hrun
      exact ⟨⟨hs.toClear, hpop, hs.live⟩, .refl _ _ _, trivial⟩

theorem spares_takeExit (id : ScopeId) :
    Spares z l l (takeExit id) fun chain => z.base ≤ id → z.Avoids chain := by
  rintro s _ _ ⟨⟩ hs
  exact ⟨⟨hs.toClear, hs.scopes.modifyScope id fun _ _ h => ⟨.nil, h.2⟩, hs.live⟩, .refl _ _ _,
    fun hid => (hs.scopes.off id hid).1⟩

theorem spares_takeCont (id : ScopeId) :
    Spares z l l (takeCont id) fun chain => z.base ≤ id → z.Avoids chain := by
  rintro s _ _ ⟨⟩ hs
  exact ⟨⟨hs.toClear, hs.scopes.modifyScope id fun _ _ h => ⟨h.1, .nil⟩, hs.live⟩, .refl _ _ _,
    fun hid => (hs.scopes.off id hid).2⟩

theorem steady_addExit (id : ScopeId) {chain : Chain} (h : z.Avoids chain) :
    Steady z l (addExit id chain) := by
  refine (spares_takeExit id).bind fun exit hexit => ?_
  split
  · rename_i merged hmerge
    exact steady_modifyScope id fun hid _ hs => ⟨h.merge (hexit hid) hmerge, hs.2⟩
  · exact .throw

theorem steady_addCont (id : ScopeId) {chain : Chain} (h : z.Avoids chain) :
    Steady z l (addCont id chain) := by
  refine (spares_takeCont id).bind fun cont hcont => ?_
  split
  · rename_i merged hmerge
    exact steady_modifyScope id fun hid _ hs => ⟨hs.1, h.merge (hcont hid) hmerge⟩
  · exact .throw

theorem steady_openGap (id : ScopeId) (pc : ℕ) : Steady z l (openGap id pc) :=
  .get_bind fun _ => Steady.optional .throw fun _ => steady_modifyScope id fun _ _ h => h

theorem steady_closeGap (id : ScopeId) (pc : ℕ) : Steady z l (closeGap id pc) := by
  refine steady_modifyScope id fun _ scope h => ?_
  split <;> exact h

theorem steady_takeGap (id : ScopeId) : Steady z l (takeGap id) := by
  rintro s _ _ ⟨⟩ hs
  exact ⟨⟨hs.toClear, hs.scopes.modifyScope id fun _ _ h => h, hs.live⟩, .refl _ _ _, trivial⟩

theorem steady_takeGaps (id : ScopeId) : Steady z l (takeGaps id) := by
  rintro s _ _ ⟨⟩ hs
  exact ⟨⟨hs.toClear, hs.scopes.modifyScope id fun _ _ h => h, hs.live⟩, .refl _ _ _, trivial⟩

end Scoping

/-! ### Surroundings -/

/-- Every `finally` block around spares the zone. -/
def Env.Sparing (z : Zone) (env : Env) : Prop := ∀ id, Steady z false (env.finallyOf id)

namespace Env.Sparing

variable {env : Env}

theorem outermost : Env.outermost.Sparing z := fun _ => .pure

theorem inside (h : env.Sparing z) (id : ScopeId) : (env.inside id).Sparing z := h

theorem insideTry (h : env.Sparing z) (id : ScopeId) {block : Gen Unit}
    (hb : Steady z false block) :
    (env.insideTry id block).Sparing z := fun _ => .ite hb (h _)

end Env.Sparing

/-- The code of a statement spares the zone. -/
def StmtCode.Sparing (z : Zone) (s : StmtCode) : Prop :=
  ∀ env : Env, env.Sparing z → Steady z false (s.gen env)

namespace Gen

variable {env : Env}

theorem spares_peekScope {α β : Type} {l' : Bool} {R : β → Prop} {id : ScopeId} {f : Scope → α}
    {g : α → Gen β} (h : ∀ a, Spares z l l' (g a) R) : Spares z l l' (peekScope id f >>= g) R :=
  fun s b p hrun hs => h (f (s.scopes.get id)) s b p hrun hs

/-- Something is done where control comes. -/
theorem steady_whenReachable {α : Type} {x y : Gen α} (hx : Spares z true false x fun _ => True)
    (hy : Steady z false y) : Steady z false (do if ← peek (·.reachable) then x else y) := by
  intro s a p hrun hs
  have hrun : (if s.asm.code.reachable = true then x else y) s = .ok a p := hrun
  split at hrun
  · exact hx s a p hrun ⟨hs.toClear, hs.scopes, fun _ => ‹_›⟩
  · exact hy s a p hrun hs

/-- A change of the code that spares the zone. -/
theorem steady_change {f : Code → Code} (h : ∀ c, z.Clear c → z.Spared c (f c)) :
    Steady z false (touch f) := by
  refine Spares.inGen (.of_code fun c _ c' hrun hc _ => ?_)
  cases hrun
  exact ⟨h c hc, nofun, trivial⟩

theorem steady_beginLine (line : ℕ) : Steady z l (touch (·.beginLine line)) := by
  refine steady_touch fun c => ?_
  unfold Code.beginLine
  split <;> exact ⟨rfl, rfl, rfl, rfl⟩

theorem steady_kill : Steady z false (touch (·.kill)) :=
  steady_change fun _ hc => hc.still rfl rfl rfl

/-! ### Leaving protected regions -/

theorem steady_addCatch (span : Span) (row : CatchRow) : Steady z l (addCatch span row) := by
  refine Steady.ite .pure (.ite (steady_touch fun c => ?_)
    (spares_peek fun _ => Steady.ite ?_ .throw))
  · unfold Code.addCatch
    split <;> exact ⟨rfl, rfl, rfl, rfl⟩
  · exact steady_reporting _

theorem steady_cleanup (henv : env.Sparing z) (id : ScopeId) : Steady z false (cleanup env id) := by
  refine spares_peekScope fun cleanup => ?_
  split
  · exact henv id
  · refine spares_peek fun _ => Steady.ite ?_ .pure
    refine Spares.next (Item.spares_load (Item.off_of_not_isCond rfl)).asmInGen fun _ => ?_
    refine Spares.next (Emit.steady_last _).inGen fun _ => spares_peek fun frame => ?_
    exact Steady.liftExcept.next fun _ => steady_touch fun _ => ⟨rfl, rfl, rfl, rfl⟩
  · exact .pure trivial

theorem steady_openGap (id : ScopeId) :
    Steady z l (do Scoping.openGap id (← Emit.curPc) : Gen Unit) :=
  Spares.next Emit.spares_curPc.inGen fun _ => (Scoping.steady_openGap _ _).scopesInGen

theorem steady_leave (henv : env.Sparing z) (id : ScopeId) : Steady z false (leave env id) := by
  refine steady_whenReachable (spares_peekScope fun cleanup => ?_) .pure
  split
  · exact Spares.forget (.pure trivial)
  · refine .get_bind fun s => .ite (fun _ => .ite (fun _ => ?_) fun _ => ?_) fun _ => ?_
    · refine spares_peek fun frame => (Emit.spares_jump (.inr (.inr rfl))).inGen.bind
        fun pc hpc => ?_
      refine Steady.next (Spares.scopesInGen ?_) fun _ => steady_openGap id
      exact Scoping.steady_modifyScope id fun _ _ hs =>
        ⟨hs.1, Zone.avoids_cons.mpr ⟨.inr hpc, hs.2⟩⟩
    · exact (steady_openGap id).forget
    · refine Spares.anywhere (Spares.next Emit.spares_curPc.inGen fun _ => ?_)
      exact Steady.next (Scoping.steady_openGap _ _).scopesInGen fun _ => steady_cleanup henv id
  · exact Spares.anywhere ((steady_cleanup henv id).next fun _ => steady_openGap id)

theorem steady_pathTo (env : Env) (last : ScopeId) : Steady z l (pathTo env last) :=
  .get_bind fun _ => .pure trivial

theorem steady_unwind (henv : env.Sparing z) (last : ScopeId) : Steady z false (unwind env last) :=
  (steady_pathTo env last).next fun _ => Steady.forM fun id _ => steady_leave henv id

theorem steady_closeGap (id : ScopeId) : Steady z l (closeGap id) :=
  spares_peekScope fun _ => Steady.ite
    (Spares.next Emit.spares_curPc.inGen fun _ => (Scoping.steady_closeGap _ _).scopesInGen) .pure

theorem steady_closeGaps (env : Env) (last : ScopeId) : Steady z l (closeGaps env last) :=
  (steady_pathTo env last).next fun _ => Steady.forM fun id _ => steady_closeGap id

/-! ### What statements share -/

theorem steady_statement (info : StmtInfo) (declared : Option LocalVar) (env : Env)
    {body : Gen Unit} (h : Steady z false body) :
    Steady z false (statement info declared env body) := by
  refine spares_peek fun _ => Steady.ite (spares_peek fun _ => ?_)
    (spares_peekScope fun _ => Steady.ite ?_ .pure)
  · refine (steady_beginLine _).next fun _ => h.next fun _ => ?_
    exact spares_peek fun _ => .get_bind fun _ => Steady.ite .throw .pure
  · cases declared with
    | none => exact .pure
    | some v => exact (steady_declare v).next fun _ => .pure trivial

theorem steady_rangedStat {s : StmtCode} (h : s.Sparing z) (henv : env.Sparing z) (flags : UInt16) :
    Steady z false (rangedStat s env flags) := spares_ranged _ _ (h env henv)

theorem steady_rangedStats (stats : List Stmt) (flags : UInt16) {body : Gen Unit}
    (h : Steady z false body) :
    Steady z false (rangedStats stats flags body) := by
  unfold rangedStats
  split
  · exact h
  · exact spares_ranged _ _ h
  · exact spares_ranged _ _ h

theorem steady_withScope (kind : ScopeKind) (info : StmtInfo) (henv : env.Sparing z)
    {body : Env → Gen Unit}
    (h : ∀ env : Env, env.Sparing z → z.base ≤ env.scope → Steady z false (body env)) :
    Steady z false (withScope kind info env body) :=
  (Scoping.spares_openScope _ _ _).scopesInGen.bind fun id hid =>
    (h _ (henv.inside id) hid).next fun _ =>
    (Scoping.steady_closeScope hid).scopesInGen

theorem steady_block (info : StmtInfo) (henv : env.Sparing z) {stats : Env → Gen Unit}
    (h : ∀ env : Env, env.Sparing z → Steady z false (stats env)) :
    Steady z false (block info stats env) := by
  refine spares_peek fun _ => (steady_withScope _ _ henv fun _ hinner _ => h _ hinner).next fun _ =>
    ?_
  refine spares_peekScope fun _ => Steady.ite ((steady_beginLine _).next fun _ => ?_) .pure
  exact Spares.next (Emit.steady_endScopes _).inGen fun _ => steady_touch fun _ =>
    ⟨rfl, rfl, rfl, rfl⟩

theorem steady_varDef (ctx : Context) (info : StmtInfo) (v : LocalVar) {init : Option ExprCode}
    (h : ∀ e ∈ init, e.Sparing z false) : Steady z false (varDef ctx info v init) := by
  have hend : ∀ _ : PUnit, Steady z false (checkDimensions info.span v.ty) :=
    fun _ => steady_reporting _
  refine (steady_declare v).next fun reg => ?_
  cases init with
  | none => exact hend ⟨⟩
  | some e =>
      refine (steady_reporting _).next fun _ => .ite (fun _ => ?_) fun _ => hend ⟨⟩
      exact ((h e rfl).push _).next fun _ => Spares.next (Item.steady_store _).asmInGen hend

theorem steady_exec {e : ExprCode} (h : e.Sparing z l) : Steady z l (exec e) :=
  h.effect.bind fun _ hi => (Item.spares_coerce hi _).asmInGen.bind fun _ hi =>
    (Item.steady_discard hi).asmInGen

/-! ### Branches and loops -/

theorem steady_ite {test : ExprCode} {onTrue : StmtCode} {onFalse : Option StmtCode}
    (ht : test.Sparing z false) (hT : onTrue.Sparing z) (hF : ∀ s ∈ onFalse, s.Sparing z)
    (henv : env.Sparing z) : Steady z false (ite test onTrue onFalse env) := by
  refine spares_freeing ((ht.bareTest _).bind fun c hc => ?_)
  refine .fork (fun x => liftM x) Spares.inGen hc (steady_rangedStat hT henv _)
    fun no out hno hout _ => ?_
  have hend := (Emit.steady_resolve (l := false) hout).inGen
  cases onFalse with
  | none => exact Steady.ite hend (Spares.next (Emit.steady_resolve hno).inGen fun _ => hend)
  | some s =>
      exact .otherwise (fun x => liftM x) Spares.inGen hno
        (steady_rangedStat (hF s rfl) henv _) hend

theorem spares_loopTest {test : Option ExprCode} (h : ∀ e ∈ test, e.Sparing z l) :
    Spares z l l (loopTest test) (Cond.Off z) := by
  cases test with
  | none => exact .pure (Cond.off_ofBool true)
  | some e => exact (steady_beginLine _).next fun _ => (h e rfl).bareTest _

theorem steady_resolveExit {id : ScopeId} (hid : z.base ≤ id) : Steady z l (resolveExit id) :=
  (Scoping.spares_takeExit id).scopesInGen.bind fun _ h => (Emit.steady_resolve (h hid)).inGen

theorem steady_resolveCont {id : ScopeId} (hid : z.base ≤ id) : Steady z l (resolveCont id) :=
  (Scoping.spares_takeCont id).scopesInGen.bind fun _ h => (Emit.steady_resolve (h hid)).inGen

theorem steady_testFirstLoop (info : StmtInfo) {test : Option ExprCode} {step : Env → Gen Unit}
    {body : StmtCode} (ht : ∀ e ∈ test, e.Sparing z false)
    (hstep : ∀ env : Env, env.Sparing z → Steady z false (step env)) (hb : body.Sparing z)
    (henv : env.Sparing z) : Steady z false (testFirstLoop info test step body env) := by
  refine steady_withScope _ _ henv fun inner hinner hscope => ?_
  refine Spares.next Emit.spares_entry.forget.inGen fun start => (spares_loopTest ht).bind
    fun c hc => ?_
  refine .partFalse (fun x => liftM x) Spares.inGen hc nofun fun done hdone _ => ?_
  refine (steady_rangedStat hb hinner _).next fun _ => (steady_resolveCont hscope).next fun _ => ?_
  refine (hstep _ hinner).next fun _ => (Emit.spares_branch (.inr (.inl rfl))).inGen.bind
    fun back hback => ?_
  refine Spares.next (Emit.steady_resolveTo start hback.1).inGen fun _ => ?_
  exact Spares.next (Emit.steady_resolve hdone).inGen fun _ => steady_resolveExit hscope

theorem steady_testLastLoop (info : StmtInfo) {test : ExprCode} {body : StmtCode}
    (ht : test.Sparing z false) (hb : body.Sparing z) (henv : env.Sparing z) :
    Steady z false (testLastLoop info test body env) := by
  refine steady_withScope _ _ henv fun inner hinner hscope => ?_
  have hend : ∀ _ : PUnit, Steady z false (resolveExit inner.scope) :=
    fun _ => steady_resolveExit hscope
  refine Spares.next Emit.spares_entry.forget.inGen fun start =>
    (steady_rangedStat hb hinner _).next fun _ => ?_
  refine (steady_resolveCont hscope).next fun _ => spares_peek fun _ =>
    .ite (fun _ => ?_) fun _ => hend ⟨⟩
  refine (spares_loopTest fun _ he => Option.some.inj he ▸ ht).bind fun c hc => ?_
  refine (Cond.spares_jumpTrue hc).inGen.bind fun back hback => ?_
  exact Spares.next (Emit.steady_resolveTo start hback).inGen fun _ =>
    Spares.next (Emit.steady_resolve hc.onFalse).inGen hend

theorem steady_forLoop (info : StmtInfo) {init step : Env → Gen Unit} {test : Option ExprCode}
    {body : StmtCode} (hinit : ∀ env : Env, env.Sparing z → Steady z false (init env))
    (ht : ∀ e ∈ test, e.Sparing z false)
    (hstep : ∀ env : Env, env.Sparing z → Steady z false (step env)) (hb : body.Sparing z)
    (henv : env.Sparing z) : Steady z false (forLoop info init test step body env) :=
  spares_freeing ((hinit env henv).next fun _ => steady_testFirstLoop info ht hstep hb henv)

theorem steady_labelled (info : StmtInfo) {body : StmtCode} (hb : body.Sparing z)
    (henv : env.Sparing z) :
    Steady z false (labelled info body env) :=
  steady_withScope _ _ henv fun _ hinner hscope => (steady_rangedStat hb hinner _).next fun _ =>
    steady_resolveExit hscope

/-! ### Jumps -/

theorem steady_jumpTo (info : StmtInfo) (target : NodeId) (nextRound : Bool)
    (henv : env.Sparing z) :
    Steady z false (jumpTo info target nextRound env) := by
  have hend (id : ScopeId) : ∀ _ : PUnit, Steady z false (closeGaps env id) :=
    fun _ => steady_closeGaps env id
  refine spares_peek fun _ => Steady.optional .throw fun _ => spares_peek fun _ =>
    .get_bind fun s => ?_
  refine Steady.liftExcept.next fun id => (steady_unwind henv id).next fun _ => ?_
  refine Steady.next (steady_touch fun _ => ⟨rfl, rfl, rfl, rfl⟩) fun _ => ?_
  refine (Emit.spares_branch (.inr (.inl rfl))).inGen.bind fun chain hchain =>
    .ite (fun _ => ?_) fun _ => ?_
  · exact Spares.next (Scoping.steady_addCont id hchain.1).scopesInGen (hend id)
  · exact Spares.next (Scoping.steady_addExit id hchain.1).scopesInGen (hend id)

theorem steady_retValue {value : ExprCode} (h : value.Sparing z false) (t : Ty)
    (henv : env.Sparing z) :
    Steady z false (retValue value t env) := by
  have hend {result : Item} (hresult : result.isCond = false) : Steady z false (do
      unwind env Scopes.method
      let _ ← result.load
      Emit.plain (Opcode.ireturn + t.kind.widen.code)
      closeGaps env Scopes.method : Gen Unit) :=
    (steady_unwind henv _).next fun _ =>
      Spares.next (Item.spares_load (Item.off_of_not_isCond hresult)).asmInGen fun _ =>
        Spares.next (Emit.steady_last _).inGen fun _ => steady_closeGaps env _
  refine spares_freeing ((h.push t).bind fun v hv => .get_bind fun s =>
    .ite (fun _ => ?_) fun _ => hend hv)
  exact Spares.next (Emit.steady_newReg _).inGen fun reg =>
    Spares.next (Item.steady_store _).asmInGen fun _ =>
    hend rfl

theorem steady_retVoid (henv : env.Sparing z) : Steady z false (retVoid env) := by
  refine spares_freeing (spares_peek fun line => (steady_unwind henv _).next fun _ => ?_)
  refine Steady.next (steady_change fun c hc => ?_) fun _ =>
    Spares.next (Emit.steady_last _).inGen fun _ => steady_closeGaps env _
  have hline : z.Spared c { c with pendingLine := line } := hc.still rfl rfl rfl
  exact hline.trans hline.toClear.markLine

theorem steady_raise {value : ExprCode} (h : value.Sparing z false) :
    Steady z false (raise value) :=
  (h.push _).next fun _ => (Emit.steady_last _).inGen

theorem spares_letIn {stats : Gen Unit} {value : ExprCode} (hs : Steady z false stats)
    (hv : value.Sparing z false) : Spares z false false (letIn stats value) (Item.Off z) := by
  have hdepth (f : ℕ → ℕ) :
      Steady z false (modify fun s : MethodState => { s with letDepth := f s.letDepth } :
      Gen Unit) := by
    rintro s _ _ ⟨⟩ hs
    exact ⟨⟨hs.toClear, hs.scopes, hs.live⟩, .refl _ _ _, trivial⟩
  refine spares_freeing ((hdepth (· + 1)).next fun _ => hs.next fun _ =>
    (hv.push _).bind fun v hv => ?_)
  exact (hdepth (· - 1)).next fun _ => .pure (Item.off_of_not_isCond hv)

/-! ### Protected regions -/

theorem steady_addCatches (span : Span) (handler : Nat) (type : UInt16) (start : Nat)
    (gaps : List Nat) :
    Steady z l (addCatches span handler type start gaps) := by
  fun_induction addCatches span handler type start gaps with
  | case1 start => exact .pure
  | case2 start gap => exact (steady_addCatch _ _).next fun _ => .throw
  | case3 start gap next rest ih => exact (steady_addCatch _ _).next fun _ => ih

theorem steady_startLine (line : ℕ) : Steady z false (startLine line) := by
  refine steady_change fun c hc => ?_
  have hbegin : z.Spared c (c.beginLine line) := by
    unfold Code.beginLine
    split
    · exact hc.still rfl rfl rfl
    · exact hc.refl
  exact hbegin.trans hbegin.toClear.markLine

theorem steady_handler {c : CatchCode} (h : c.body.Sparing z) (start stop : Nat) (gaps : List Nat)
    (henv : env.Sparing z) : Steady z false (handler c start stop gaps env) := by
  refine (steady_typeIndex _ _).next fun _ => Spares.next Emit.spares_curPc.inGen fun _ => ?_
  refine (steady_addCatches _ _ _ _ _).next fun _ =>
    Steady.optional (steady_addCatch _ _) fun _ => ?_
  refine (steady_startLine _).next fun _ => Steady.next (spares_freeing ?_) fun _ =>
    steady_beginLine _
  refine (steady_declare _).next fun _ => Spares.next (Item.steady_store _).asmInGen fun _ => ?_
  split
  · exact (steady_beginLine _).next fun _ => steady_rangedStat h henv _
  · exact steady_rangedStat h henv _

theorem spares_handlers (info : StmtInfo) (frame : Frame) (hasCleanup : Bool) (start stop : Nat)
    (gaps : List Nat) (henv : env.Sparing z) {catches : List CatchCode}
    (h : ∀ c ∈ catches, c.body.Sparing z) {exit : Chain} (hexit : z.Avoids exit) :
    Spares z false false (handlers info frame hasCleanup start stop gaps env catches exit)
      z.Avoids := by
  induction catches generalizing exit with
  | nil => exact .pure hexit
  | cons c cs ih =>
      have hrest {exit : Chain} (hexit : z.Avoids exit) : Spares z false false (do
          closeGap env.scope
          handlers info frame hasCleanup start stop gaps env cs exit : Gen Chain) z.Avoids :=
        (steady_closeGap _).next fun _ => ih (fun c' hc' => h c' (List.mem_cons_of_mem _ hc')) hexit
      refine Spares.next (Emit.spares_entryPushed _ _).forget.inGen fun _ => ?_
      refine (steady_handler (h c (List.mem_cons_self ..)) _ _ _ henv).next fun _ => ?_
      refine (steady_leave henv _).next fun _ => .ite (fun _ => ?_) fun _ => hrest hexit
      refine (steady_beginLine _).next fun _ => (Emit.spares_branch (.inr (.inl rfl))).inGen.bind
        fun out hout => ?_
      exact (Cond.spares_join hexit hout.1).inGen.bind fun _ hjoined => hrest hjoined.1

theorem steady_subroutine (finalLine : Nat) (henv : env.Sparing z) (hscope : z.base ≤ env.scope) :
    Steady z false (subroutine finalLine env) := by
  refine (Scoping.spares_takeCont _).scopesInGen.bind fun calls hcalls => ?_
  refine Steady.ite .pure (Spares.next (Emit.steady_resolve (hcalls hscope)).inGen fun _ => ?_)
  refine (steady_startLine _).next fun _ => Spares.next (Emit.steady_newReg _).inGen fun _ => ?_
  refine Spares.next (Item.steady_store _).asmInGen fun _ =>
    (steady_cleanup henv _).next fun _ => ?_
  exact Spares.next (Emit.steady_register (l := false) nofun _).inGen fun _ => steady_kill

theorem steady_catchAll (span : Span) (frame : Frame) (start finalLine : Nat) (henv : env.Sparing z)
    (hscope : z.base ≤ env.scope) : Steady z false (catchAll span frame start finalLine env) := by
  have hend : ∀ _ : PUnit, Steady z false (do
      Emit.plain .athrow
      touch (·.kill)
      subroutine finalLine env : Gen Unit) := fun _ =>
    Spares.next (Emit.steady_last _).inGen fun _ => steady_kill.next fun _ =>
      steady_subroutine finalLine henv hscope
  refine Steady.next (steady_touch fun _ => ⟨rfl, rfl, rfl, rfl⟩) fun _ => ?_
  refine Spares.next (Emit.spares_entryPushed _ _).forget.inGen fun _ => ?_
  refine Spares.next (Scoping.steady_takeGaps _).scopesInGen fun _ =>
    (steady_addCatches _ _ _ _ _).next fun _ => ?_
  refine (steady_startLine _).next fun _ => Spares.next (Emit.steady_newReg _).inGen fun _ => ?_
  refine Spares.next (Item.steady_store _).asmInGen fun _ => (steady_leave henv _).next fun _ => ?_
  refine Spares.next (Item.spares_load (Item.off_of_not_isCond rfl)).asmInGen fun _ => ?_
  refine Spares.next (Scoping.steady_takeGap _).scopesInGen fun gap => ?_
  cases gap with
  | none => exact Steady.next .throw hend
  | some stop => exact (steady_addCatch _ _).next hend

theorem steady_protect (info : StmtInfo) {body : StmtCode} (hb : body.Sparing z)
    {catches : List CatchCode} (h : ∀ c ∈ catches, c.body.Sparing z) (finalLine : Nat)
    (henv : env.Sparing z) (hscope : z.base ≤ env.scope) :
    Steady z false (protect info body catches finalLine env) := by
  have hend (frame : Frame) (start : Nat) (hasCleanup : Bool) {exit : Chain}
      (hexit : z.Avoids exit) :
      Steady z false (do
        if hasCleanup then catchAll body.span frame start finalLine env
        Emit.resolve exit : Gen Unit) :=
    Steady.optional (steady_catchAll _ _ _ _ henv hscope) fun _ => (Emit.steady_resolve hexit).inGen
  refine spares_freeing (Spares.next Emit.spares_curPc.inGen fun start =>
    spares_peek fun frame => ?_)
  refine (steady_rangedStat hb henv _).next fun _ => Spares.next Emit.spares_curPc.inGen
    fun stop => ?_
  refine spares_peekScope fun hasCleanup => spares_peekScope fun gaps =>
    (steady_beginLine _).next fun _ => ?_
  refine (steady_leave henv _).next fun _ => (steady_beginLine _).next fun _ => ?_
  refine (Emit.spares_branch (.inr (.inl rfl))).inGen.bind fun exit hexit =>
    (steady_closeGap _).next fun _ => ?_
  refine .ite (fun _ => ?_) fun _ => hend frame start hasCleanup hexit.1
  exact (spares_handlers info frame hasCleanup start stop gaps henv h hexit.1).bind fun _ hexit =>
    hend frame start hasCleanup hexit

theorem spares_openProtected (kind : ScopeKind) (info : StmtInfo) (cleanup : Cleanup) (env : Env) :
    Spares z l l (openProtected kind info cleanup env) (z.base ≤ ·) := by
  refine (Scoping.spares_openScope _ _ _).scopesInGen.bind fun id hid => ?_
  exact Steady.next (Spares.scopesInGen (Scoping.steady_modifyScope id fun _ _ h => h))
    fun _ => .pure hid

theorem steady_sync (info : StmtInfo) {lock : ExprCode} (hl : lock.Sparing z false)
    {body : StmtCode} (hb : body.Sparing z) (henv : env.Sparing z) :
    Steady z false (sync info lock body env) := by
  refine spares_freeing (Spares.next (Emit.steady_newReg _).inGen fun reg =>
    (hl.push _).bind fun monitor hm => ?_)
  refine Spares.next (Item.steady_duplicate (Item.off_of_not_isCond hm)).asmInGen fun _ => ?_
  refine Spares.next (Item.steady_store _).asmInGen fun _ =>
    Spares.next (Emit.steady_last _).inGen fun _ => ?_
  refine Steady.next (steady_touch fun _ => ⟨rfl, rfl, rfl, rfl⟩) fun _ => ?_
  refine (spares_openProtected _ _ _ _).bind fun id hid => ?_
  exact (steady_protect info hb (fun _ hc => absurd hc List.not_mem_nil) _
    (henv.inside id) hid).next fun _ =>
    (Scoping.steady_closeScope hid).scopesInGen

theorem steady_tryCatch (ctx : Context) (info : StmtInfo) {body : StmtCode} (hb : body.Sparing z)
    {catches : List CatchCode} (h : ∀ c ∈ catches, c.body.Sparing z) (final : Option Stmt)
    {finalCode : Option StmtCode} (hf : ∀ s ∈ finalCode, s.Sparing z) (henv : env.Sparing z) :
    Steady z false (tryCatch ctx info body catches final finalCode env) := by
  have hrest {inner : ScopeId → Env} (hinner : ∀ id, (inner id).Sparing z ∧ (inner id).scope = id)
      (finalLine : Nat) :
      ∀ _ : PUnit, Steady z false (do
        let id ← openProtected .tryBlock info (.finallyBlock final.isSome) env
        protect info body catches finalLine (inner id)
        Scoping.closeScope id : Gen Unit) := fun _ =>
    (spares_openProtected _ _ _ _).bind fun id hid =>
      (steady_protect info hb h _ (hinner id).1 (hid.trans_eq (hinner id).2.symm)).next fun _ =>
        (Scoping.steady_closeScope hid).scopesInGen
  have hwant : Steady z false (modify fun s : MethodState =>
      { s with subroutines := wantsSubroutines ctx.config final } : Gen Unit) := by
    rintro s _ _ ⟨⟩ hs
    exact ⟨⟨hs.toClear, hs.scopes, hs.live⟩, .refl _ _ _, trivial⟩
  cases finalCode with
  | none =>
      have hinner (id : ScopeId) : (env.inside id).Sparing z ∧ (env.inside id).scope = id :=
        ⟨henv.inside id, rfl⟩
      exact .get_bind fun s => Steady.ite (hrest hinner _ ⟨⟩) (hwant.next (hrest hinner _))
  | some f =>
      have hinner (id : ScopeId) :=
        And.intro (henv.insideTry id (steady_rangedStat (hf f rfl) henv RangeFlag.block))
          (Eq.refl id)
      exact .get_bind fun s => Steady.ite (hrest hinner _ ⟨⟩) (hwant.next (hrest hinner _))

/-! ### Switches -/

theorem put4_spared {c : Code} (hc : z.Clear c) (n : Int32) : z.Spared c (c.put4 n) := by
  cases halive : c.alive with
  | true =>
      rw [Code.put4_alive halive]
      exact hc.written _
  | false =>
      rw [Code.put4_dead halive]
      exact hc.refl

theorem fill4_spared {c : Code} (hc : z.Clear c) (v : Int32) (n : ℕ) :
    z.Spared c (c.fill4 v n) := by
  induction n generalizing c with
  | zero => exact hc.refl
  | succ n ih => exact (put4_spared hc v).trans (ih (put4_spared hc v).toClear)

theorem closeSlots_spared {c : Code} (hc : z.Clear c) {pc : ℕ} (hpc : z.hi ≤ pc) (default : Int32)
    (n : ℕ) :
    z.Spared c (closeSlots default c pc n) := by
  induction n generalizing c pc with
  | zero => exact hc.refl
  | succ n ih =>
      unfold closeSlots
      dsimp only
      split
      · have hset := hc.set4 hpc default
        exact hset.trans (ih hset.toClear (by omega))
      · exact ih hc (by omega)

theorem writePairs_spared {c : Code} (hc : z.Clear c) {pc : ℕ} (hpc : z.hi ≤ pc)
    (pairs : List KeyTarget) :
    z.Spared c (writePairs c pc pairs) := by
  induction pairs generalizing c pc with
  | nil => exact hc.refl
  | cons pair rest ih =>
      obtain ⟨key, target⟩ := pair
      have hkey := hc.set4 hpc key
      have htarget := hkey.trans (hkey.toClear.set4 (by omega : z.hi ≤ pc + 4) target)
      rw [writePairs_cons]
      exact htarget.trans (ih htarget.toClear (by omega))

/-- A table is written behind the zone, if at all. -/
theorem spares_openTable (keys : List Int32) :
    Spares z false false (openTable keys) fun site => z.hi ≤ site.table := by
  unfold openTable
  refine Spares.next Emit.spares_curPc.inGen fun pc =>
    Spares.next (Emit.steady_last _).inGen fun _ => ?_
  refine Spares.next (Emit.steady_align _).inGen fun _ => Emit.spares_curPc.inGen.bind
    fun table htable => ?_
  refine Steady.next (steady_change fun c hc => put4_spared hc _) fun _ => ?_
  split
  · refine Steady.next (steady_change fun c hc => ?_) fun _ => .pure htable
    have hlo := put4_spared hc (keys.foldl min 0x7fffffff)
    have hhi := hlo.trans (put4_spared hlo.toClear (keys.foldl max (-0x80000000)))
    exact hhi.trans (fill4_spared hhi.toClear _ _)
  · refine Steady.next (steady_change fun c hc => ?_) fun _ => .pure htable
    have hcount := put4_spared hc (.ofNat keys.length)
    exact hcount.trans (fill4_spared hcount.toClear _ _)

theorem SwitchSite.table_le_slot (site : SwitchSite) (key : Int32) : site.table ≤ site.slot key :=
  Nat.le_add_right _ _

theorem steady_cases {site : SwitchSite} (hsite : z.hi ≤ site.table) (frame : Frame)
    (henv : env.Sparing z) {codes : List (CaseCode × Option Int32)}
    (h : ∀ c ∈ codes, ∀ env : Env, env.Sparing z → Steady z false (c.1.gen env))
    (targets : Array KeyTarget) :
    Steady z false (cases site frame env codes targets) := by
  induction codes generalizing targets with
  | nil => exact .pure
  | cons c rest ih =>
      obtain ⟨c, key⟩ := c
      have hrest (targets : Array KeyTarget) : Steady z false (do
          rangedStats c.stats RangeFlag.flowTarget (c.gen env)
          cases site frame env rest targets : Gen (Array KeyTarget)) :=
        (steady_rangedStats _ _ (h _ (List.mem_cons_self ..) env henv)).next fun _ =>
          ih (fun c' hc' => h c' (List.mem_cons_of_mem _ hc')) targets
      have hset {pc : ℕ} (hpc : z.hi ≤ pc) (v : Int32) : Steady z false (touch (·.set4 pc v)) :=
        steady_change fun c hc => hc.set4 hpc v
      unfold cases
      refine Spares.next (Emit.spares_entryWith frame).forget.inGen fun pc => ?_
      dsimp only
      split
      · exact (hset hsite _).next fun _ => hrest _
      · exact (hset (Nat.le_trans hsite (site.table_le_slot _)) _).next fun _ => hrest _
      · exact hrest _

theorem steady_closeTable {site : SwitchSite} (hsite : z.hi ≤ site.table) (frame : Frame)
    (targets : Array KeyTarget) : Steady z false (closeTable site frame targets) := by
  have hfill : Steady z false (touch (fillTable site targets)) := by
    refine steady_change fun c hc => ?_
    unfold fillTable
    split
    · exact closeSlots_spared hc (Nat.le_trans hsite (site.table_le_slot _)) _ _
    · exact writePairs_spared hc (by omega) _
  rw [closeTable_eq]
  refine spares_peek fun _ => .ite (fun _ => ?_) fun _ => ?_
  · refine Spares.next (Emit.spares_entryWith frame).forget.inGen fun _ => ?_
    exact Steady.next (steady_change fun c hc => hc.set4 hsite _) fun _ => hfill
  · exact hfill

theorem steady_table {codes : List CaseCode}
    (h : ∀ c ∈ codes, ∀ env : Env, env.Sparing z → Steady z false (c.gen env))
    (henv : env.Sparing z) (hscope : z.base ≤ env.scope) : Steady z false (do
      let keys ← caseKeys codes false
      let site ← openTable (keys.filterMap id)
      let frame ← peek (·.frame)
      touch (·.kill)
      let targets ← cases site frame env (codes.zip keys) #[]
      resolveExit env.scope
      closeTable site frame targets : Gen Unit) := by
  refine Steady.liftExcept.next fun keys => (spares_openTable _).bind fun site hsite => ?_
  refine spares_peek fun frame => steady_kill.next fun _ => ?_
  refine (steady_cases hsite frame henv (fun c hc => h c.1 (List.of_mem_zip hc).1) #[]).next
    fun targets => ?_
  exact (steady_resolveExit hscope).next fun _ => steady_closeTable hsite frame targets

theorem steady_switch (info : StmtInfo) {selector : ExprCode} (hs : selector.Sparing z false)
    {codes : List CaseCode}
    (h : ∀ c ∈ codes, ∀ env : Env, env.Sparing z → Steady z false (c.gen env))
    (henv : env.Sparing z) :
    Steady z false (switch info selector codes env) := by
  refine spares_freeing (Steady.optional .throw fun _ => ?_)
  refine (spares_ranged _ _ (hs.push _)).bind fun key hkey => Steady.ite ?_ ?_
  · exact (Item.steady_discard (Item.off_of_not_isCond hkey)).asmInGen
  · exact steady_withScope _ _ henv fun _ hinner hscope => steady_table h hinner hscope

end Gen

/-! ### Trees -/

section

variable {ctx : Context}

mutual

/-- An expression spares the zone; control goes on behind it if it has no `letIn`. -/
theorem Expr.sparing_code {l : Bool} (env : Env) (e : Expr)
    (h : e.letFree = true ∨ l = false ∧ env.Sparing z) :
    (e.code ctx env).Sparing z l := by
  cases e with
  | literal i =>
      rw [Expr.code]
      exact ExprCode.sparing_ofItem i fun t => Gen.spares_literal i t
  | ident i s =>
      rw [Expr.code]
      exact ExprCode.sparing_ofItem i fun _ => Context.spares_ident i s
  | selfRef i isSuper ctor =>
      rw [Expr.code]
      exact ExprCode.sparing_ofItem i fun _ => Gen.spares_selfRef isSuper ctor
  | select i t s =>
      simp only [Expr.letFree] at h
      rw [Expr.code]
      exact ExprCode.sparing_ofItem i fun _ => Context.spares_select (t.sparing_code env h) _ s
  | classLit i t =>
      rw [Expr.code]
      exact ExprCode.sparing_ofItem i fun _ => Gen.spares_classLit i t
  | apply i f as =>
      simp only [Expr.letFree, Bool.and_eq_true] at h
      rw [Expr.code]
      exact ExprCode.sparing_ofItem i fun _ =>
        Gen.spares_apply (f.sparing_code env (h.imp_left And.left))
        (Expr.sparing_codes env as (h.imp_left And.right)) _
  | newClass i m as =>
      simp only [Expr.letFree] at h
      rw [Expr.code]
      exact ExprCode.sparing_ofItem i fun _ => Gen.spares_newClass i m (Expr.sparing_codes env as h)
  | newArray i ds =>
      simp only [Expr.letFree] at h
      rw [Expr.code]
      exact ExprCode.sparing_ofItem i fun _ => Gen.spares_newArray i (Expr.sparing_codes env ds h)
  | arrayInit i es =>
      simp only [Expr.letFree] at h
      rw [Expr.code]
      exact ExprCode.sparing_ofItem i fun _ => Gen.spares_arrayInit i (Expr.sparing_codes env es h)
  | parens i a =>
      simp only [Expr.letFree] at h
      rw [Expr.code]
      exact ExprCode.sparing_parens i _ (a.sparing_code env h)
  | assign i l r =>
      simp only [Expr.letFree, Bool.and_eq_true] at h
      rw [Expr.code]
      exact ExprCode.sparing_ofItem i fun _ =>
        Gen.spares_assign (l.sparing_code env (h.imp_left And.left))
        (r.sparing_code env (h.imp_left And.right))
  | assignOp i op t l r =>
      simp only [Expr.letFree, Bool.and_eq_true] at h
      rw [Expr.code]
      exact ExprCode.sparing_ofItem i fun _ => Context.spares_assignOp i op t
        (l.sparing_code env (h.imp_left And.left)) (r.sparing_code env (h.imp_left And.right)) _
  | unary i op t a =>
      simp only [Expr.letFree] at h
      rw [Expr.code]
      exact Context.sparing_unaryCode i op t (a.sparing_code env h)
  | binary i op t l r =>
      simp only [Expr.letFree, Bool.and_eq_true] at h
      rw [Expr.code]
      exact Context.sparing_binaryCode i op t (l.sparing_code env (h.imp_left And.left))
        (r.sparing_code env (h.imp_left And.right)) _
  | cast i t a =>
      simp only [Expr.letFree] at h
      rw [Expr.code]
      exact ExprCode.sparing_ofItem i fun _ => Context.spares_cast i t (a.sparing_code env h)
  | typeTest i a t =>
      simp only [Expr.letFree] at h
      rw [Expr.code]
      exact ExprCode.sparing_ofItem i fun _ => Gen.spares_typeTest i (a.sparing_code env h) t
  | index i a x =>
      simp only [Expr.letFree, Bool.and_eq_true] at h
      rw [Expr.code]
      exact ExprCode.sparing_ofItem i fun _ =>
        Gen.spares_index i (a.sparing_code env (h.imp_left And.left))
        (x.sparing_code env (h.imp_left And.right))
  | cond i c t f =>
      simp only [Expr.letFree, Bool.and_eq_true] at h
      have hc := c.sparing_code env (h.imp_left fun h => h.1.1)
      have ht := t.sparing_code env (h.imp_left fun h => h.1.2)
      have hf := f.sparing_code env (h.imp_left And.right)
      have hvalue :
          (ExprCode.ofItem ctx i (Gen.condValue i (c.code ctx env) (t.code ctx env)
            (f.code ctx env))).Sparing z l :=
        ExprCode.sparing_ofItem i fun u => Gen.spares_condValue i hc ht hf u
      have hcond := Gen.spares_condCond hc ht hf
      rw [Expr.code]
      exact ⟨hvalue.item, hcond, hcond, hvalue.append, hvalue.effect⟩
  | letIn i ss v =>
      simp only [Expr.letFree, Bool.false_eq_true, false_or] at h
      obtain ⟨rfl, henv⟩ := h
      rw [Expr.code]
      exact ExprCode.sparing_ofItem i fun _ => Gen.spares_letIn (Stmt.steady_gens ss henv)
        (v.sparing_code env (.inr ⟨rfl, henv⟩))

theorem Expr.sparing_codes {l : Bool} (env : Env) (es : List Expr)
    (h : Expr.allLetFree es = true ∨ l = false ∧ env.Sparing z) :
    ∀ c ∈ Expr.codes ctx es env, c.Sparing z l := by
  cases es with
  | nil =>
      rw [Expr.codes]
      exact fun c hc => absurd hc List.not_mem_nil
  | cons e es =>
      simp only [Expr.allLetFree, Bool.and_eq_true] at h
      rw [Expr.codes]
      intro c hc
      rcases List.mem_cons.mp hc with rfl | hc
      · exact e.sparing_code env (h.imp_left And.left)
      · exact Expr.sparing_codes env es (h.imp_left And.right) c hc

theorem Stmt.sparing_code (s : Stmt) : (s.code ctx).Sparing z := by
  intro env henv
  cases s with
  | block i ss =>
      rw [Stmt.code]
      exact Gen.steady_statement i none env
        (Gen.steady_block i henv fun _ hinner => Stmt.steady_gens ss hinner)
  | varDef i v init =>
      cases init with
      | none =>
          rw [Stmt.code]
          exact Gen.steady_statement i (some v) env (Gen.steady_varDef ctx i v (by simp))
      | some e =>
          rw [Stmt.code]
          refine Gen.steady_statement i (some v) env (Gen.steady_varDef ctx i v ?_)
          rintro _ ⟨⟩
          exact e.sparing_code env (.inr ⟨rfl, henv⟩)
  | skip i =>
      rw [Stmt.code]
      exact Gen.steady_statement i none env .pure
  | doLoop i b c =>
      rw [Stmt.code]
      exact Gen.steady_statement i none env (Gen.steady_testLastLoop i
        (c.sparing_code env (.inr ⟨rfl, henv⟩)) b.sparing_code henv)
  | whileLoop i c b =>
      rw [Stmt.code]
      refine Gen.steady_statement i none env
        (Gen.steady_testFirstLoop i ?_ (fun _ _ => .pure) b.sparing_code henv)
      rintro _ ⟨⟩
      exact c.sparing_code env (.inr ⟨rfl, henv⟩)
  | forLoop i init test step b =>
      have hloop {test : Option ExprCode} (ht : ∀ e ∈ test, e.Sparing z false) :=
        Gen.steady_forLoop i (fun _ hinner => Stmt.steady_gens init hinner) ht
          (fun _ hinner => Stmt.steady_gens step hinner) b.sparing_code henv
      cases test with
      | none =>
          rw [Stmt.code]
          exact Gen.steady_statement i none env (hloop (by simp))
      | some c =>
          rw [Stmt.code]
          refine Gen.steady_statement i none env (hloop ?_)
          rintro _ ⟨⟩
          exact c.sparing_code env (.inr ⟨rfl, henv⟩)
  | foreach i v e b =>
      rw [Stmt.code]
      exact Gen.steady_statement i none env .throw
  | labelled i l b =>
      rw [Stmt.code]
      exact Gen.steady_statement i none env (Gen.steady_labelled i b.sparing_code henv)
  | switch i e cs =>
      rw [Stmt.code]
      exact Gen.steady_statement i none env (Gen.steady_switch i
        (e.sparing_code env (.inr ⟨rfl, henv⟩)) (Case.steady_codes cs) henv)
  | sync i e b =>
      rw [Stmt.code]
      exact Gen.steady_statement i none env (Gen.steady_sync i
        (e.sparing_code env (.inr ⟨rfl, henv⟩)) b.sparing_code henv)
  | tryCatch i b cs final =>
      cases final with
      | none =>
          rw [Stmt.code]
          exact Gen.steady_statement i none env (Gen.steady_tryCatch ctx i b.sparing_code
            (Catch.sparing_codes cs) none (by simp) henv)
      | some f =>
          rw [Stmt.code]
          refine Gen.steady_statement i none env (Gen.steady_tryCatch ctx i b.sparing_code
            (Catch.sparing_codes cs) (some f) ?_ henv)
          rintro _ ⟨⟩
          exact f.sparing_code
  | ite i c t f =>
      have htest := c.sparing_code env (.inr ⟨rfl, henv⟩)
      cases f with
      | none =>
          rw [Stmt.code]
          exact Gen.steady_statement i none env (Gen.steady_ite htest t.sparing_code (by simp) henv)
      | some f =>
          rw [Stmt.code]
          refine Gen.steady_statement i none env (Gen.steady_ite htest t.sparing_code ?_ henv)
          rintro _ ⟨⟩
          exact f.sparing_code
  | exec i e =>
      rw [Stmt.code]
      exact Gen.steady_statement i none env
        (Gen.steady_exec (e.sparing_code env (.inr ⟨rfl, henv⟩)))
  | breakTo i t | continueTo i t =>
      rw [Stmt.code]
      exact Gen.steady_statement i none env (Gen.steady_jumpTo i t _ henv)
  | ret i e =>
      cases e with
      | none =>
          rw [Stmt.code]
          exact Gen.steady_statement i none env (Gen.steady_retVoid henv)
      | some e =>
          rw [Stmt.code]
          exact Gen.steady_statement i none env
            (Gen.steady_retValue (e.sparing_code env (.inr ⟨rfl, henv⟩)) _ henv)
  | raise i e =>
      rw [Stmt.code]
      exact Gen.steady_statement i none env
        (Gen.steady_raise (e.sparing_code env (.inr ⟨rfl, henv⟩)))
  | assert i c d =>
      rw [Stmt.code]
      exact Gen.steady_statement i none env .throw
  | localClass i c =>
      rw [Stmt.code]
      exact Gen.steady_statement i none env .throw

theorem Stmt.steady_gens (ss : List Stmt) {env : Env} (henv : env.Sparing z) :
    Steady z false (Stmt.gens ctx ss env) := by
  cases ss with
  | nil =>
      rw [Stmt.gens]
      exact .pure
  | cons s ss =>
      rw [Stmt.gens]
      exact (s.sparing_code env henv).next fun _ => Stmt.steady_gens ss henv

theorem Case.steady_codes (cs : List Case) :
    ∀ c ∈ Case.codes ctx cs, ∀ env : Env, env.Sparing z → Steady z false (c.gen env) := by
  cases cs with
  | nil =>
      rw [Case.codes]
      exact fun c hc => absurd hc List.not_mem_nil
  | cons c cs =>
      obtain ⟨span, label, ss⟩ := c
      rw [Case.codes]
      intro c hc env henv
      rcases List.mem_cons.mp hc with rfl | hc
      · exact Stmt.steady_gens ss henv
      · exact Case.steady_codes cs c hc env henv

theorem Catch.sparing_codes (cs : List Catch) : ∀ c ∈ Catch.codes ctx cs, c.body.Sparing z := by
  cases cs with
  | nil =>
      rw [Catch.codes]
      exact fun c hc => absurd hc List.not_mem_nil
  | cons c cs =>
      obtain ⟨span, v, b⟩ := c
      rw [Catch.codes]
      intro c hc
      rcases List.mem_cons.mp hc with rfl | hc
      · exact b.sparing_code
      · exact Catch.sparing_codes cs c hc

end

end

end StackCode
