import StackCode.Generate.Switch
import StackCode.Proofs.Leaving

/-!
# Statements keep the scopes in order

One lemma for each construct: inside the rings around it, its code is safe if the code of
its parts is safe, where a part inside a scope of its own has one ring more. A construct
that opens a scope also has to leave no jump waiting in it; `Gen.LeavesNoJump` says that of what
stands between opening and closing.
-/

namespace StackCode

namespace Gen

variable {α : Type} {rs : List Ring} {env : Env}

namespace Safe

theorem of_calm {x : Gen Unit} (h : Calm x) : Safe rs x := fun σ _ _ =>
  (Orders.of_calm h).mono fun _ _ hσ => hσ.symm ▸ .refl _ _ σ

theorem bind {x : Gen Unit} {f : Unit → Gen Unit} (hx : Safe rs x) (hf : Safe rs (f ())) :
    Safe rs (x >>= f) := fun σ hchain htight =>
  (hx σ hchain htight).bind fun _ σ₁ h₁ =>
    (hf σ₁ (h₁.chained hchain) (h₁.tight htight (by simp))).mono fun _ _ h₂ => h₁.trans h₂

theorem calm_bind {x : Gen α} {f : α → Gen Unit} (hx : Calm x) (hf : ∀ a, Safe rs (f a)) :
    Safe rs (x >>= f) := fun σ hchain htight =>
  .calm_bind hx fun a => hf a σ hchain htight

theorem ite {c : Prop} [Decidable c] {x y : Gen Unit} (hx : Safe rs x) (hy : Safe rs y) :
    Safe rs (if c then x else y) := by
  split
  · exact hx
  · exact hy

theorem touch_bind {g : Code → Code} {f : Unit → Gen Unit} (h : Safe rs (f ())) :
    Safe rs (touch g >>= f) := fun σ hchain htight => .touch_bind (h σ hchain htight)

theorem freeing {x : Gen Unit} (h : Safe rs x) : Safe rs (Gen.freeing x) :=
  fun σ hchain htight => (h σ hchain htight).freeing

theorem ranged {x : Gen Unit} {span : Span} {flags : UInt16} (h : Safe rs x) :
    Safe rs (Gen.ranged span flags x) := fun σ hchain htight => (h σ hchain htight).ranged

theorem rangedStat {s : StmtCode} {flags : UInt16} (h : Safe rs (s.gen env)) :
    Safe rs (Gen.rangedStat s env flags) := h.ranged

theorem rangedStats {stats : List Stmt} {flags : UInt16} {x : Gen Unit} (h : Safe rs x) :
    Safe rs (Gen.rangedStats stats flags x) := by
  unfold Gen.rangedStats
  split
  · exact h
  · exact h.ranged
  · exact h.ranged

end Safe

theorem safe_statement (info : StmtInfo) (declared : Option LocalVar) (env : Env) {body : Gen Unit}
    (h : Safe rs body) : Safe rs (statement info declared env body) :=
  .calm_bind (Calm.peek _) fun _ => .ite
    (.calm_bind (Calm.peek _) fun _ =>
      .touch_bind (h.bind (.of_calm (composed_checkDepth info _).calm)))
    (.of_calm (composed_declareIfAny env declared).calm)

/-! ### Scopes of their own -/

/-- In a fresh scope inside the rings, the step keeps the scopes in order and leaves no jump
waiting in the scope. -/
def LeavesNoJump (r : Ring) (rs : List Ring) (x : Gen Unit) : Prop :=
  ∀ σ : Scopes, σ.Chained (r :: rs) → σ.Tight (r :: rs) → (σ.get r.id).exit = [] →
    (σ.get r.id).cont = [] → x.Orders σ fun _ σ' =>
      σ.Within ((r :: rs).map Ring.id) [] σ' ∧ (σ'.get r.id).exit = [] ∧ (σ'.get r.id).cont = []

/-- A scope that takes no jumps has none in the end. -/
theorem Safe.leavesNoJump {r : Ring} {x : Gen Unit} (h : Safe (r :: rs) x) (hkind : r.kind = .block)
    (hcleanup : r.cleanup = none) : LeavesNoJump r rs x := by
  intro σ hchain htight hexit hcont
  refine (h σ hchain htight).mono fun _ σ' hσ => ⟨hσ, ?_, ?_⟩
  · have htakes : (σ.get r.id).takesExit = false := by
      simp [Scope.takesExit, ScopeKind.takesExit, hchain.2.1, hkind]
    rw [(hσ.steady r.id).exit htakes, hexit]
  · have htakes : (σ.get r.id).takesCont = false := by
      simp [Scope.takesCont, hchain.2.1, hchain.2.2.2.1, hkind, hcleanup]
    rw [(hσ.steady r.id).cont htakes, hcont]

/-- Closing the scope that was opened last. -/
theorem orders_closeScope {σ₀ σ₁ σ₂ : Scopes} {path : List ScopeId}
    (hdepth : σ₁.depth = σ₀.depth + 1) (hsame : ∀ i < σ₀.depth, σ₁.get i = σ₀.get i)
    (hwithin : σ₁.Within (σ₀.depth :: path) [] σ₂) (hexit : (σ₂.get σ₀.depth).exit = [])
    (hcont : (σ₂.get σ₀.depth).cont = []) :
    (liftM (Scoping.closeScope σ₀.depth) : Gen Unit).Orders σ₂ fun _ σ₃ =>
      σ₀.Within path [] σ₃ := by
  have hdepth₂ : σ₂.depth = σ₀.depth + 1 := hwithin.depth.trans hdepth
  refine .onScopes (.get_bind (.ite (fun h => absurd hdepth₂.symm h) fun _ =>
    .bind (P := fun _ σ₃ => σ₃ = { σ₂ with table := σ₂.table.pop }) (.modify rfl)
      fun _ σ₃ h₃ => ?_))
  rw [hexit, hcont]
  subst h₃
  have hpop : ({ σ₂ with table := σ₂.table.pop } : Scopes).depth = σ₀.depth := by
    show σ₂.table.pop.size = σ₀.depth
    rw [Array.size_pop]
    exact Nat.sub_eq_of_eq_add hdepth₂
  -- below the closed scope nothing else has changed, and behind it there is nothing
  have hget (i : ScopeId) : (i < σ₀.depth ∧
      ({ σ₂ with table := σ₂.table.pop } : Scopes).get i = σ₂.get i) ∨
      (σ₀.depth ≤ i ∧ ({ σ₂ with table := σ₂.table.pop } : Scopes).get i = σ₀.get i) := by
    rcases Nat.lt_or_ge i σ₀.depth with hi | hi
    · exact .inl ⟨hi, Scopes.get_pop_of_lt (hdepth₂ ▸ Nat.succ_lt_succ hi)⟩
    · exact .inr ⟨hi, by rw [Scopes.get_of_depth_le (hpop ▸ hi), Scopes.get_of_depth_le hi]⟩
  refine .pure ⟨hpop, fun i => ?_, fun i hi => ?_, fun i _ => ?_⟩
  · rcases hget i with ⟨hi, h⟩ | ⟨-, h⟩
    · rw [h, ← hsame i hi]
      exact hwithin.steady i
    · rw [h]
      exact .refl _
  · rcases hget i with ⟨hlt, h⟩ | ⟨-, h⟩
    · rw [h, ← hsame i hlt]
      exact hwithin.off i (by simp [Nat.ne_of_lt hlt, hi])
    · exact h
  · rcases hget i with ⟨hlt, h⟩ | ⟨-, h⟩
    · rw [h, ← hsame i hlt]
      exact hwithin.gaps i (by simp)
    · rw [h]

/-- The rings with a scope that was just opened, cleaned up by `cleanup`. -/
theorem chained_push {σ : Scopes} {r₀ : Ring} (hchain : σ.Chained (r₀ :: rs)) (kind : ScopeKind)
    (tree : Option NodeId) : (σ.push kind tree r₀.id).2.Chained
      (⟨σ.depth, kind, tree, none⟩ :: r₀ :: rs) := by
  have hself := σ.get_push_self kind tree r₀.id
  have hlt := hchain.id_lt
  have htail (qs : List Ring) (hqs : σ.Chained qs) : (σ.push kind tree r₀.id).2.Chained qs := by
    induction qs with
    | nil => trivial
    | cons q qs ih =>
        obtain ⟨hid, hkind, htree, hcleanup, hparent, hdec, hrest⟩ := hqs
        have hq := Scopes.get_push_of_lt hid kind tree r₀.id
        exact ⟨by rw [Scopes.depth_push]; exact Nat.lt_succ_of_lt hid, hq ▸ hkind, hq ▸ htree,
          hq ▸ hcleanup, hq ▸ hparent, hdec, ih hrest⟩
  exact ⟨by rw [Scopes.depth_push]; exact Nat.lt_succ_self _, by rw [hself], by rw [hself],
    by rw [hself], by rw [hself]; rfl, hlt, htail _ hchain⟩

theorem tight_push {σ : Scopes} {r₀ : Ring} (hchain : σ.Chained (r₀ :: rs))
    (htight : σ.Tight (r₀ :: rs)) (kind : ScopeKind) (tree : Option NodeId) :
    (σ.push kind tree r₀.id).2.Tight (⟨σ.depth, kind, tree, none⟩ :: r₀ :: rs) := by
  intro q hq
  rcases List.mem_cons.mp hq with rfl | hq
  · rw [Scopes.get_push_self]
    rfl
  · rw [Scopes.get_push_of_lt (hchain.id_lt q hq)]
    exact htight q hq

theorem safe_withScope {kind : ScopeKind} {info : StmtInfo} {body : Env → Gen Unit} {r₀ : Ring}
    (hscope : env.scope = r₀.id)
    (h : ∀ id, (∀ r ∈ r₀ :: rs, r.id < id) →
      LeavesNoJump ⟨id, kind, some info.id, none⟩ (r₀ :: rs) (body (env.inside id))) :
    Safe (r₀ :: rs) (withScope kind info env body) := by
  intro σ hchain htight
  refine Orders.bind (P := fun id σ₁ => id = σ.depth ∧ σ₁ = (σ.push kind (some info.id) r₀.id).2)
    (.onScopes ?_) ?_
  · rw [hscope]
    exact ⟨rfl, rfl⟩
  rintro id σ₁ ⟨rfl, rfl⟩
  have hself := σ.get_push_self kind (some info.id) r₀.id
  refine (h σ.depth hchain.id_lt _ (chained_push hchain kind _) (tight_push hchain htight kind _)
    (by rw [hself]) (by rw [hself])).bind fun _ σ₂ ⟨hwithin, hexit, hcont⟩ => ?_
  exact orders_closeScope (Scopes.depth_push ..) (fun i hi => Scopes.get_push_of_lt hi ..) hwithin
    hexit hcont

variable {r₀ : Ring}

theorem safe_block {info : StmtInfo} {stats : Env → Gen Unit} (hscope : env.scope = r₀.id)
    (h : ∀ id, (∀ r ∈ r₀ :: rs, r.id < id) →
      Safe (⟨id, .block, some info.id, none⟩ :: r₀ :: rs) (stats (env.inside id))) :
    Safe (r₀ :: rs) (block info stats env) := by
  refine .calm_bind (Calm.peek _) fun _ =>
    (safe_withScope hscope fun id hid => (h id hid).leavesNoJump rfl rfl).bind (.of_calm ?_)
  refine Composed.calm ((composed_peekScope _ _).bind fun _ => .ite ?_ .pure)
  exact (composed_beginLine _).bind fun _ => (Emit.composed_endScopes _).inGen.bind fun _ =>
    composed_set fun _ _ _ => ⟨⟨⟨rfl, rfl, rfl⟩, rfl, rfl⟩, rfl⟩

/-! ### Branches -/

/-- What is done where the condition does not hold, and where both ways meet. -/
theorem safe_otherwise {onFalse : Option StmtCode} (hF : ∀ s ∈ onFalse, Safe rs (s.gen env))
    (falseChain exit : Chain) : Safe rs (do
      unless falseChain.isEmpty do
        Emit.resolve falseChain
        if let some s := onFalse then rangedStat s env targetFlags
      Emit.resolve exit : Gen Unit) := by
  have hexit : Safe rs (Emit.resolve exit : Gen Unit) :=
    .of_calm (Emit.composed_resolve exit).inGen.calm
  refine .ite hexit (.calm_bind (Emit.composed_resolve falseChain).inGen.calm fun _ => ?_)
  cases onFalse with
  | none => exact hexit
  | some s => exact (hF s rfl).rangedStat.bind hexit

theorem safe_ite {test : ExprCode} {onTrue : StmtCode} {onFalse : Option StmtCode}
    (ht : test.IsComposed Resolver.IsPlain false) (hT : Safe rs (onTrue.gen env))
    (hF : ∀ s ∈ onFalse, Safe rs (s.gen env)) :
    Safe rs (ite test onTrue onFalse env) := by
  refine .freeing (.calm_bind (ht.bareTest _).calm fun c =>
    .calm_bind c.composed_jumpFalse.inGen.calm fun falseChain => .ite ?_ ?_)
  · exact .calm_bind .pure fun exit => safe_otherwise hF falseChain exit
  · exact .calm_bind (Emit.composed_resolve _).inGen.calm fun _ => hT.rangedStat.bind
      (.calm_bind (Emit.composed_branch _).inGen.calm fun exit => safe_otherwise hF falseChain exit)

/-! ### Loops and labels -/

theorem orders_resolveExit {σ : Scopes} {r : Ring} (hchain : σ.Chained (r :: rs))
    (hkind : r.kind.takesExit) :
    (resolveExit r.id).Orders σ fun _ σ' => σ.Within ((r :: rs).map Ring.id) [] σ' ∧
      (σ'.get r.id).exit = [] ∧ (σ'.get r.id).cont = (σ.get r.id).cont := by
  refine Orders.bind (P := fun _ σ₁ => σ₁ = σ.modifyScope r.id fun s => { s with exit := [] })
    (.onScopes rfl) fun chain σ₁ h₁ => ?_
  have htakes : (σ.get r.id).takesExit = true := by
    rw [Scope.takesExit, hchain.2.1]
    exact hkind
  have hwithin : σ.Within ((r :: rs).map Ring.id) [] σ₁ := by
    rw [h₁]
    refine .of_modifyScope hchain.1 (by simp) ⟨rfl, rfl, rfl, rfl, fun h => ?_, fun _ => rfl⟩
      fun _ => rfl
    exact Bool.noConfusion (htakes.symm.trans h)
  have hself : σ₁.get r.id = { σ.get r.id with exit := [] } := by
    rw [h₁, Scopes.get_modifyScope_self hchain.1]
  refine (Orders.of_calm (Emit.composed_resolve chain).inGen.calm).mono fun _ σ₂ h₂ => ?_
  subst h₂
  exact ⟨hwithin, by rw [hself], by rw [hself]⟩

theorem orders_resolveCont {σ : Scopes} {r : Ring} (hchain : σ.Chained (r :: rs))
    (hkind : r.kind = .loop) :
    (resolveCont r.id).Orders σ fun _ σ' => σ.Within ((r :: rs).map Ring.id) [] σ' ∧
      (σ'.get r.id).cont = [] := by
  refine Orders.bind (P := fun _ σ₁ => σ₁ = σ.modifyScope r.id fun s => { s with cont := [] })
    (.onScopes rfl) fun chain σ₁ h₁ => ?_
  have htakes : (σ.get r.id).takesCont = true := by simp [Scope.takesCont, hchain.2.1, hkind]
  refine (Orders.of_calm (Emit.composed_resolve chain).inGen.calm).mono fun _ σ₂ h₂ => ?_
  rw [h₂, h₁]
  refine ⟨.of_modifyScope hchain.1 (by simp) ⟨rfl, rfl, rfl, rfl, fun _ => rfl, fun h => ?_⟩
    fun _ => rfl, by rw [Scopes.get_modifyScope_self hchain.1]⟩
  exact Bool.noConfusion (htakes.symm.trans h)

/-- The end of a loop, where no jump to the next round waits any more: the step adds none and
takes the jumps behind the loop out. -/
def EndsLoop (r : Ring) (rs : List Ring) (x : Gen Unit) : Prop :=
  ∀ σ : Scopes, σ.Chained (r :: rs) → (σ.get r.id).cont = [] → x.Orders σ fun _ σ' =>
    σ.Within ((r :: rs).map Ring.id) [] σ' ∧ (σ'.get r.id).exit = [] ∧ (σ'.get r.id).cont = []

theorem endsLoop_resolveExit {r : Ring} (hkind : r.kind = .loop) :
    EndsLoop r rs (resolveExit r.id) := fun σ hchain hcont =>
  (orders_resolveExit hchain (by rw [hkind]; rfl)).mono fun _ _ ⟨h, hexit, hsame⟩ =>
    ⟨h, hexit, hsame.trans hcont⟩

theorem EndsLoop.calm_bind {r : Ring} {x : Gen α} {f : α → Gen Unit} (hx : Calm x)
    (hf : ∀ a, EndsLoop r rs (f a)) : EndsLoop r rs (x >>= f) :=
  fun σ hchain hcont => .calm_bind hx fun a => hf a σ hchain hcont

/-- Calm steps ahead change nothing. -/
theorem LeavesNoJump.calm_bind {r : Ring} {x : Gen α} {f : α → Gen Unit} (hx : Calm x)
    (hf : ∀ a, LeavesNoJump r rs (f a)) : LeavesNoJump r rs (x >>= f) :=
  fun σ hchain htight hexit hcont => .calm_bind hx fun a => hf a σ hchain htight hexit hcont

/-- A round of a loop, the jumps to the next one, and the end. -/
theorem leavesNoJump_loop {r : Ring} {body : Gen Unit} {rest : Unit → Gen Unit}
    (hkind : r.kind = .loop) (hbody : Safe (r :: rs) body) (hrest : EndsLoop r rs (rest ())) :
    LeavesNoJump r rs (body >>= fun _ => resolveCont r.id >>= rest) := by
  intro σ hchain htight _ _
  refine (hbody σ hchain htight).bind fun _ σ₁ h₁ => ?_
  refine (orders_resolveCont (h₁.chained hchain) hkind).bind fun _ σ₂ ⟨h₂, hcont⟩ => ?_
  have h₁₂ := h₁.trans h₂
  exact (hrest σ₂ (h₁₂.chained hchain) hcont).mono fun _ σ₃ ⟨h₃, hend⟩ => ⟨h₁₂.trans h₃, hend⟩

theorem safe_testFirstLoop {info : StmtInfo} {test : Option ExprCode} {step : Env → Gen Unit}
    {body : StmtCode} (hscope : env.scope = r₀.id)
    (htest : ∀ e ∈ test, e.IsComposed Resolver.IsPlain false) (hstep : ∀ env, Calm (step env))
    (hbody : ∀ id, (∀ r ∈ r₀ :: rs, r.id < id) → Safe (⟨id, .loop, some info.id, none⟩ :: r₀ :: rs)
      (body.gen (env.inside id))) :
    Safe (r₀ :: rs) (testFirstLoop info test step body env) := by
  refine safe_withScope hscope fun id hid => ?_
  refine .calm_bind Emit.composed_entry.inGen.calm fun start =>
    .calm_bind (composed_loopTest htest).calm fun c =>
    .calm_bind c.composed_jumpFalse.inGen.calm fun done =>
      .calm_bind (Emit.composed_resolve _).inGen.calm fun _ =>
      leavesNoJump_loop rfl (hbody id hid).rangedStat ?_
  exact .calm_bind (hstep _) fun _ => .calm_bind (Emit.composed_branch _).inGen.calm fun _ =>
    .calm_bind (Emit.composed_resolveTo _ _).inGen.calm fun _ =>
      .calm_bind (Emit.composed_resolve _).inGen.calm fun _ =>
      endsLoop_resolveExit rfl

theorem safe_testLastLoop {info : StmtInfo} {test : ExprCode} {body : StmtCode}
    (hscope : env.scope = r₀.id) (htest : test.IsComposed Resolver.IsPlain false)
    (hbody : ∀ id, (∀ r ∈ r₀ :: rs, r.id < id) →
      Safe (⟨id, .loop, some info.id, none⟩ :: r₀ :: rs) (body.gen (env.inside id))) :
    Safe (r₀ :: rs) (testLastLoop info test body env) := by
  refine safe_withScope hscope fun id hid => .calm_bind Emit.composed_entry.inGen.calm fun start =>
    leavesNoJump_loop rfl (hbody id hid).rangedStat (.calm_bind (Calm.peek _) fun reachable => ?_)
  cases reachable with
  | false => exact endsLoop_resolveExit rfl
  | true =>
      have htest' : ∀ e ∈ some test, e.IsComposed Resolver.IsPlain false :=
        fun _ he => Option.some.inj he ▸ htest
      exact .calm_bind (composed_loopTest htest').calm fun c =>
        .calm_bind c.composed_jumpTrue.inGen.calm fun _ =>
          .calm_bind (Emit.composed_resolveTo _ _).inGen.calm fun _ =>
            .calm_bind (Emit.composed_resolve _).inGen.calm fun _ => endsLoop_resolveExit rfl

theorem safe_labelled {info : StmtInfo} {body : StmtCode} (hscope : env.scope = r₀.id)
    (hbody : ∀ id, (∀ r ∈ r₀ :: rs, r.id < id) →
      Safe (⟨id, .labelled, some info.id, none⟩ :: r₀ :: rs) (body.gen (env.inside id))) :
    Safe (r₀ :: rs) (labelled info body env) := by
  refine safe_withScope hscope fun id hid σ hchain htight hexit hcont => ?_
  refine ((hbody id hid).rangedStat σ hchain htight).bind fun _ σ₁ h₁ => ?_
  refine (orders_resolveExit (h₁.chained hchain) rfl).mono fun _ σ₂ ⟨h₂, hexit₂, hcont₂⟩ =>
    ⟨h₁.trans h₂, hexit₂, ?_⟩
  have htakes : (σ.get id).takesCont = false := by
    simp [Scope.takesCont, hchain.2.1, hchain.2.2.2.1]
  rw [hcont₂, (h₁.steady id).cont htakes, hcont]

/-! ### Jumps -/

/-- Adding jumps behind a construct that takes them. -/
theorem orders_addExit {σ : Scopes} {id : ScopeId} {path : List ScopeId} (hid : id < σ.depth)
    (hmem : id ∈ path) (htakes : (σ.get id).takesExit) (chain : Chain) :
    (liftM (Scoping.addExit id chain) : Gen Unit).Orders σ fun _ σ' => σ.Within path [] σ' := by
  refine .onScopes ?_
  show Orderly (Scoping.addExit id chain) σ _
  refine .bind (P := fun _ σ' => σ' = σ.modifyScope id fun s => { s with exit := [] }) rfl
    fun rest σ₁ h₁ => ?_
  subst h₁
  split
  · refine .modify ?_
    rw [Scopes.modifyScope_modifyScope]
    exact .of_modifyScope hid hmem ⟨rfl, rfl, rfl, rfl,
      fun h => Bool.noConfusion (htakes.symm.trans h), fun _ => rfl⟩ fun _ => rfl
  · exact .throw (Error.isPlain_iff.mp (Chain.merge_plain ‹_›)).2

/-- Adding jumps to the next round of a construct that takes them. -/
theorem orders_addCont {σ : Scopes} {id : ScopeId} {path : List ScopeId} (hid : id < σ.depth)
    (hmem : id ∈ path) (htakes : (σ.get id).takesCont) (chain : Chain) :
    (liftM (Scoping.addCont id chain) : Gen Unit).Orders σ fun _ σ' => σ.Within path [] σ' := by
  refine .onScopes ?_
  show Orderly (Scoping.addCont id chain) σ _
  refine .bind (P := fun _ σ' => σ' = σ.modifyScope id fun s => { s with cont := [] }) rfl
    fun rest σ₁ h₁ => ?_
  subst h₁
  split
  · refine .modify ?_
    rw [Scopes.modifyScope_modifyScope]
    exact .of_modifyScope hid hmem ⟨rfl, rfl, rfl, rfl, fun _ => rfl,
      fun h => Bool.noConfusion (htakes.symm.trans h)⟩ fun _ => rfl
  · exact .throw (Error.isPlain_iff.mp (Chain.merge_plain ‹_›)).2

/-- A jump to a target whose innermost ring is there and may be left that way. -/
theorem safe_jumpTo {info : StmtInfo} {target : NodeId} {nextRound : Bool} {r : Ring}
    (hsound : env.Sound (r₀ :: rs)) (hscope : env.scope = r₀.id)
    (hfind : (r₀ :: rs).find? (·.tree == some target) = some r)
    (hkind : if nextRound then r.kind = .loop else r.kind.takesExit) :
    Safe (r₀ :: rs) (jumpTo info target nextRound env) := by
  intro σ hchain htight
  refine .calm_bind (Calm.peek _) fun depth => .ite (fun _ => ?_) fun _ => ?_
  · exact .bind (P := fun _ _ => False) (.throw rfl) fun _ _ h => h.elim
  refine .calm_bind (Calm.peek _) fun line => .get_bind fun s hs => ?_
  rw [hs, hscope, hchain.findTarget hfind]
  refine Orders.bind (P := fun id σ' => id = r.id ∧ σ = σ') (.pure ⟨rfl, rfl⟩) ?_
  rintro _ _ ⟨rfl, rfl⟩
  refine (orders_unwind hsound hscope hchain htight r.id).bind fun _ σ₁ h₁ => .touch_bind ?_
  have hr : r ∈ r₀ :: rs := List.mem_of_find?_eq_some hfind
  refine .calm_bind (Emit.composed_branch _).inGen.calm fun chain => ?_
  have hid : r.id < σ₁.depth := h₁.depth ▸ hchain.id_lt r hr
  have hkind₁ : (σ₁.get r.id).kind = r.kind := (h₁.steady r.id).kind.trans (hchain.fits hr).1
  have hclose (σ₂ : Scopes) (h₂ : σ₁.Within ((r₀ :: rs).map Ring.id) [] σ₂) :
      (closeGaps env r.id).Orders σ₂ fun _ σ' => σ.Within ((r₀ :: rs).map Ring.id) [] σ' :=
    orders_closeGapsTo hscope hchain htight (h₁.trans (h₂.mono (fun _ h => h) (by simp)))
  have hmem : r.id ∈ (r₀ :: rs).map Ring.id := List.mem_map_of_mem hr
  cases nextRound with
  | true =>
      refine (orders_addCont hid hmem ?_ chain).bind fun _ => hclose
      simp only [if_true] at hkind
      simp [Scope.takesCont, hkind₁, hkind]
  | false =>
      refine (orders_addExit hid hmem ?_ chain).bind fun _ => hclose
      simpa [Scope.takesExit, hkind₁] using hkind

theorem safe_retValue {value : ExprCode} {t : Ty} (hsound : env.Sound (r₀ :: rs))
    (hscope : env.scope = r₀.id) (h : value.IsComposed Resolver.IsPlain false) :
    Safe (r₀ :: rs) (retValue value t env) := by
  have hend (result : Item) : Safe (r₀ :: rs) (do
      unwind env Scopes.method
      let _ ← result.load
      Emit.plain (Opcode.ireturn + t.kind.widen.code)
      closeGaps env Scopes.method : Gen Unit) := fun σ hchain htight =>
    (orders_unwind hsound hscope hchain htight _).bind fun _ σ₁ h₁ =>
      .calm_bind (Item.composed_load _).onAsm.calm fun _ =>
        .calm_bind (Emit.composed_plain _).inGen.calm fun _ =>
        orders_closeGapsTo hscope hchain htight h₁
  refine .freeing (.calm_bind (h.push t).calm fun v => .calm_bind .get fun s => .ite ?_ ?_)
  · exact .calm_bind (Emit.composed_newReg _).inGen.calm fun _ =>
      .calm_bind (Item.composed_store _).onAsm.calm fun _ =>
      .calm_bind .pure hend
  · exact .calm_bind .pure hend

theorem safe_retVoid (hsound : env.Sound (r₀ :: rs)) (hscope : env.scope = r₀.id) :
    Safe (r₀ :: rs) (retVoid env) := by
  refine .freeing (.calm_bind (Calm.peek _) fun line σ hchain htight => ?_)
  refine (orders_unwind hsound hscope hchain htight _).bind fun _ σ₁ h₁ => .touch_bind ?_
  exact .calm_bind (Emit.composed_plain _).inGen.calm fun _ =>
    orders_closeGapsTo hscope hchain htight h₁

/-! ### Switches -/

theorem orders_cases {r : Ring} (site : SwitchSite) (frame : Frame)
    {codes : List (CaseCode × Option Int32)}
    (h : ∀ c ∈ codes, Safe (r :: rs) (c.1.gen env)) (targets : Array KeyTarget) {σ : Scopes}
    (hchain : σ.Chained (r :: rs)) (htight : σ.Tight (r :: rs)) :
    (cases site frame env codes targets).Orders σ fun _ σ' =>
      σ.Within ((r :: rs).map Ring.id) [] σ' := by
  induction codes generalizing targets σ with
  | nil => exact .pure (.refl _ _ σ)
  | cons c codes ih =>
      obtain ⟨c, key⟩ := c
      have hstats (targets : Array KeyTarget) : (do
          rangedStats c.stats RangeFlag.flowTarget (c.gen env)
          cases site frame env codes targets : Gen (Array KeyTarget)).Orders σ fun _ σ' =>
            σ.Within ((r :: rs).map Ring.id) [] σ' := by
        refine ((h (c, key) (List.mem_cons_self ..)).rangedStats σ hchain htight).bind
          fun _ σ₁ h₁ => ?_
        exact (ih (fun c' hc' => h c' (List.mem_cons_of_mem _ hc')) targets (h₁.chained hchain)
          (h₁.tight htight (by simp))).mono fun _ _ h₂ => h₁.trans h₂
      refine .calm_bind (Emit.composed_entryWith _).inGen.calm fun pc => ?_
      cases key with
      | none => exact .touch_bind (.calm_bind .pure hstats)
      | some k =>
          cases site.layout with
          | dense => exact .touch_bind (.calm_bind .pure hstats)
          | sparse => exact .calm_bind .pure hstats

theorem safe_switch {info : StmtInfo} {selector : ExprCode} {codes : List CaseCode}
    (hscope : env.scope = r₀.id) (hsel : selector.IsComposed Resolver.IsPlain false)
    (hcodes : ∀ id, (∀ r ∈ r₀ :: rs, r.id < id) → ∀ c ∈ codes,
      Safe (⟨id, .switch, some info.id, none⟩ :: r₀ :: rs) (c.gen (env.inside id))) :
    Safe (r₀ :: rs) (switch info selector codes env) := by
  have hmain : Safe (r₀ :: rs) (withScope .switch info env fun inner => do
      let keys ← caseKeys codes false
      let site ← openTable (keys.filterMap id)
      let frame ← peek (·.frame)
      touch (·.kill)
      let targets ← cases site frame inner (codes.zip keys) #[]
      resolveExit inner.scope
      closeTable site frame targets) := by
    refine safe_withScope hscope fun id hid σ hchain htight hexit hcont => ?_
    refine .calm_bind (.liftExcept fun _ he =>
      (Error.isPlain_iff.mp (caseKeys_plain he)).2) fun keys =>
      .calm_bind (composed_openTable _).calm fun site => .calm_bind (Calm.peek _) fun frame =>
        .touch_bind ?_
    refine (orders_cases site frame (fun c hc => hcodes id hid c.1 (List.of_mem_zip hc).1) #[]
      hchain htight).bind fun targets σ₁ h₁ => ?_
    refine (orders_resolveExit (h₁.chained hchain) rfl).bind fun _ σ₂ ⟨h₂, hexit₂, hcont₂⟩ => ?_
    have htakes : (σ.get id).takesCont = false := by
      simp [Scope.takesCont, hchain.2.1, hchain.2.2.2.1]
    refine (Orders.of_calm (composed_closeTable _ _ _).calm).mono fun _ σ₃ h₃ => ?_
    rw [h₃]
    exact ⟨h₁.trans h₂, hexit₂, by rw [hcont₂, (h₁.steady id).cont htakes, hcont]⟩
  have hafter : Safe (r₀ :: rs) (do
      let key ← ranged selector.bareSpan RangeFlag.flowController (selector.push .int)
      if codes.isEmpty then key.discard
      else withScope .switch info env fun inner => do
        let keys ← caseKeys codes false
        let site ← openTable (keys.filterMap id)
        let frame ← peek (·.frame)
        touch (·.kill)
        let targets ← cases site frame inner (codes.zip keys) #[]
        resolveExit inner.scope
        closeTable site frame targets : Gen Unit) :=
    .calm_bind (composed_ranged _ _ (hsel.push _)).calm fun key => .ite
      (.of_calm (Item.composed_discard key).onAsm.calm) hmain
  refine .freeing (.ite ?_ hafter)
  exact .calm_bind (.throw rfl) fun _ => hafter

end Gen

end StackCode
