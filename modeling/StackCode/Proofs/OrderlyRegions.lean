import StackCode.Proofs.OrderlyStatements

/-!
# Protected regions keep the scopes in order

The handler for every exception relies on the cleanup that it runs to have opened a gap in
its scope. It has: the handler is entered alive, and up to the cleanup nothing stops it.
`Lively` says that of a step. The positions among the gaps come in pairs whenever rows are
entered for what lies between them, since no gap of the scope is open then.
-/

set_option maxRecDepth 4000

namespace StackCode

/-! ### Steps that do not stop control -/

/-- Wherever control gets here, it gets behind the step as well. -/
def Lively {σ α : Type} [Part σ] (x : EStateM Error σ α) : Prop :=
  ∀ s : MethodState, s.asm.code.alive = true → ∀ a s', x (Part.get s) = .ok a s' →
    (Part.put s' s).asm.code.alive = true

namespace Lively

variable {σ α β : Type} [Part σ] {x y : EStateM Error σ α} {f : α → EStateM Error σ β}

theorem bind (h : Lively x) (hf : ∀ a, Lively (f a)) : Lively (x >>= f) := by
  intro s hs b s'' hrun
  obtain ⟨a, s', hx, hfa⟩ := EStateM.bind_eq_ok.mp hrun
  have hs' := hf a (Part.put s' s) (h s hs a s' hx) b s'' (by rwa [Part.get_put])
  rwa [Part.put_put] at hs'

theorem pure {a : α} : Lively (pure a : EStateM Error σ α) := by
  rintro s hs _ _ ⟨⟩
  rwa [Part.put_get]

theorem get : Lively (get : EStateM Error σ σ) := by
  rintro s hs _ _ ⟨⟩
  rwa [Part.put_get]

theorem throw {e : Error} : Lively (throw e : EStateM Error σ α) := by
  rintro s hs _ _ ⟨⟩

theorem ite {c : Prop} [Decidable c] (hx : Lively x) (hy : Lively y) :
    Lively (if c then x else y) := by
  split
  · exact hx
  · exact hy

theorem modify {g : Code → Code} (h : ∀ c, c.alive = true → (g c).alive = true) :
    Lively (modify g : Emit Unit) := by
  rintro s hs _ _ ⟨⟩
  exact h _ hs

theorem modifyGet {g : Code → α × Code} (h : ∀ c, c.alive = true → (g c).2.alive = true) :
    Lively (modifyGet g : Emit α) := by
  rintro s hs _ _ ⟨⟩
  exact h _ hs

theorem onCode {x : Emit α} (h : Lively x) : Lively (Asm.onCode x) := by
  rintro ⟨⟨code, pool⟩, scopes, locals, subroutines, letDepth, reports, appends⟩ hs a s' hrun
  simp only [Part.get, Asm.onCode] at hrun
  split at hrun
  · cases hrun
    exact h ⟨⟨code, pool⟩, scopes, locals, subroutines, letDepth, reports, appends⟩ hs _ _ ‹_›
  · cases hrun

theorem onAsm {x : Asm α} (h : Lively x) : Lively (Gen.onAsm x) := by
  rintro ⟨asm, scopes, locals, subroutines, letDepth, reports, appends⟩ hs a s' hrun
  simp only [Part.get, Gen.onAsm] at hrun
  split at hrun
  · cases hrun
    exact h ⟨asm, scopes, locals, subroutines, letDepth, reports, appends⟩ hs _ _ ‹_›
  · cases hrun

end Lively

namespace Emit

theorem lively_resolveLinks (chain : Chain) (target : Nat) (joined : Option Frame) :
    Lively (resolveLinks chain target joined) := by
  have hland (c : Code) (link : Link) (target : Nat) (joined : Option Frame)
      (hc : c.alive = true) : (c.land link target joined).1.alive = true := by
    unfold Code.land
    dsimp only
    split
    · split
      · rfl
      · exact hc
    · exact hc
  have hdrop (c : Code) (n : Nat) : (c.dropTail n).alive = c.alive := by
    unfold Code.dropTail
    dsimp only
    split <;> rfl
  have hpatch (c : Code) (pc target : Nat) : (c.patch pc target).alive = c.alive := by
    unfold Code.patch
    dsimp only
    split
    · rfl
    · split <;> rfl
  induction chain generalizing target joined with
  | nil => exact .pure
  | cons link rest ih =>
      refine Lively.get.bind fun c => .ite (.ite ?_ ?_) (.ite ?_ ?_)
      · exact .bind (.modify fun _ _ => rfl) fun _ => .pure
      · exact .bind (.modifyGet fun c hc => hland _ _ _ _ ((hdrop c 3).trans hc)) fun _ => ih _ _
      · exact .bind .throw fun _ =>
          .bind (.modifyGet fun c hc => hland _ _ _ _ ((hpatch c _ _).trans hc)) fun _ => ih _ _
      · exact .bind (.modifyGet fun c hc => hland _ _ _ _ ((hpatch c _ _).trans hc)) fun _ => ih _ _

theorem lively_resolvePending : Lively resolvePending := by
  refine Lively.get.bind fun c => .ite .pure (.bind (.modify fun _ h => h) fun _ =>
    (lively_resolveLinks _ _ _).bind fun joined => ?_)
  cases joined with
  | none => exact .pure
  | some frame => exact .modify fun _ h => h

theorem alive_put1 (c : Code) (b : UInt8) : (c.put1 b).alive = c.alive := by
  unfold Code.put1
  split <;> rfl

theorem alive_beginLine (c : Code) (line : Nat) : (c.beginLine line).alive = c.alive := by
  unfold Code.beginLine
  split <;> rfl

theorem lively_opcode (op : Opcode) : Lively (opcode op) :=
  lively_resolvePending.bind fun _ => Lively.get.bind fun _ => .ite
    (.modify fun c h => (alive_put1 _ _).trans ((Code.alive_markLine c).trans h)) .pure

/-- An instruction behind which control goes on. -/
theorem lively_finishOp {op : Opcode} {operands : Operands}
    (h : op.row?.all (·.effect.goesOn)) : Lively (finishOp op operands) := by
  refine Lively.get.bind fun _ => .ite ?_ .pure
  split
  · rename_i row hrow
    rw [hrow] at h
    have heffect : Lively (modify (·.applyEffect row.effect) : Emit Unit) :=
      .modify fun c hc => by rw [Code.alive_applyEffect, hc]; exact h
    exact .ite (Lively.get.bind fun _ => .ite (.bind .throw fun _ => heffect) heffect) .throw
  · exact .throw

end Emit

/-- Storing an object into a register does not stop control. -/
theorem Item.lively_store (reg : UInt16) : Lively (Item.var .object reg).store := by
  have hshort : reg ≤ 3 → (Opcode.istore0 + Kind.object.widen.code * 4 +
      reg.toUInt8).row?.all (·.effect.goesOn) := by
    intro hle
    have hle' : reg.toNat ≤ 3 := hle
    obtain h | h | h | h : reg.toNat = 0 ∨ reg.toNat = 1 ∨ reg.toNat = 2 ∨ reg.toNat = 3 := by omega
    all_goals
      rw [show reg.toUInt8 = .ofNat reg.toNat from rfl, h]
      decide
  have hcode : Lively (onRegister .istore .istore0 .object reg) := by
    unfold onRegister
    dsimp only
    split
    · exact (Emit.lively_opcode _).bind fun _ => Emit.lively_finishOp (hshort ‹_›)
    · have hlong : (Opcode.istore + Kind.object.widen.code).row?.all (·.effect.goesOn) := by
        decide
      have hput1 (b : UInt8) : Lively (modify (·.put1 b) : Emit Unit) :=
        .modify fun c hc => (Emit.alive_put1 c b).trans hc
      have hput2 (w : UInt16) : Lively (modify (·.put2 w) : Emit Unit) :=
        .modify fun c hc => (Emit.alive_put1 _ _).trans ((Emit.alive_put1 c _).trans hc)
      refine .ite ?_ ?_
      · exact (Emit.lively_opcode _).bind fun _ => (Emit.lively_opcode _).bind fun _ =>
          (hput2 reg).bind fun _ => Emit.lively_finishOp hlong
      · exact (Emit.lively_opcode _).bind fun _ => (hput1 _).bind fun _ =>
          Emit.lively_finishOp hlong
  refine hcode.onCode.bind fun _ => ?_
  rintro s hs _ _ ⟨⟩
  exact hs

namespace Gen

/-! ### Rows -/

variable {env : Env} {r : Ring} {rs : List Ring} {σ : Scopes}

theorem lively_touch {g : Code → Code} (h : ∀ c, c.alive = true → (g c).alive = true) :
    Lively (touch g) := Lively.onAsm (Lively.onCode (.modify h))

theorem lively_onScopes {α : Type} (y : Scoping α) : Lively (Gen.onScopes y) := by
  rintro ⟨asm, scopes, locals, subroutines, letDepth, reports, appends⟩ hs a s' hrun
  simp only [Part.get, Gen.onScopes] at hrun
  split at hrun
  · cases hrun
    exact hs
  · cases hrun

theorem orders_addCatch (span : Span) (row : CatchRow) :
    (addCatch span row).Orders σ fun _ σ' => σ' = σ := by
  refine .ite (fun _ => .pure rfl) fun _ => .ite (fun _ => .touch) fun _ => ?_
  exact .calm_bind (Calm.peek _) fun _ => .ite (fun _ => .of_calm (Composed.report _ _).calm)
    fun _ => .throw rfl

theorem lively_addCatch (span : Span) (row : CatchRow) : Lively (addCatch span row) := by
  have htouch : Lively (touch (·.addCatch row)) := lively_touch fun c hc => by
    unfold Code.addCatch
    split <;> exact hc
  have hreport : Lively (report span .tryRange) := by
    rintro s hs _ _ ⟨⟩
    exact hs
  have hpeek : Lively (peek (·.wide)) := by
    rintro s hs _ _ ⟨⟩
    exact hs
  exact .ite .pure (.ite htouch (hpeek.bind fun _ => .ite hreport .throw))

/-- Positions that come in pairs leave nothing over. -/
theorem orders_addCatches (span : Span) (handler : Nat) (type : UInt16) (start : Nat)
    {gaps : List Nat} (heven : gaps.length % 2 = 0) :
    (addCatches span handler type start gaps).Orders σ fun _ σ' => σ' = σ := by
  fun_induction addCatches span handler type start gaps with
  | case1 start => exact .pure rfl
  | case2 start gap => simp at heven
  | case3 start gap next rest ih =>
      refine (orders_addCatch _ _).bind fun _ σ₁ h₁ => ?_
      rw [h₁]
      exact ih (by simp only [List.length_cons] at heven; omega)

theorem lively_addCatches (span : Span) (handler : Nat) (type : UInt16) (start : Nat)
    (gaps : List Nat) : Lively (addCatches span handler type start gaps) := by
  fun_induction addCatches span handler type start gaps with
  | case1 start => exact .pure
  | case2 start gap => exact (lively_addCatch _ _).bind fun _ => .throw
  | case3 start gap next rest ih => exact (lively_addCatch _ _).bind fun _ => ih

/-! ### Handlers -/

/-- The code of a clause from where the exception arrives. -/
theorem safe_clause {c : CatchCode} (h : Safe rs (c.body.gen env)) : Safe rs (do
    touch fun code => (code.beginLine c.span.firstLine).markLine
    freeing do
      let reg ← declare c.param
      (Item.var .object reg).store
      if let some s := c.first then touch (·.beginLine s.span.firstLine)
      rangedStat c.body env RangeFlag.block
    touch (·.beginLine c.body.span.lastLine) : Gen Unit) := by
  refine .touch_bind (.bind (.freeing (.calm_bind (composed_declare _).calm fun reg => ?_))
    (.of_calm (composed_beginLine _).calm))
  refine .calm_bind (Item.composed_store _).onAsm.calm fun _ => ?_
  cases c.first with
  | some s => exact .touch_bind h.rangedStat
  | none => exact h.rangedStat

theorem safe_handler {c : CatchCode} {start stop : Nat} {gaps : List Nat}
    (heven : gaps.length % 2 = 0) (h : Safe rs (c.body.gen env)) :
    Safe rs (handler c start stop gaps env) := by
  refine .calm_bind (composed_typeIndex _ _).calm fun type =>
    .calm_bind Emit.composed_curPc.inGen.calm fun pc σ hchain
    htight => ?_
  refine (orders_addCatches _ _ _ _ heven).bind fun start' σ₁ h₁ => ?_
  rw [h₁]
  refine .ite (fun _ => ?_) fun _ => safe_clause h σ hchain htight
  exact (orders_addCatch _ _).bind fun _ σ₂ h₂ => h₂ ▸ safe_clause h σ hchain htight

/-- Once the gap that the cleanup may have opened is closed, the step has stayed within the
rings. -/
theorem orders_closeLeft {σ₀ : Scopes} (hchain : σ₀.Chained (r :: rs))
    (htight : σ₀.Tight (r :: rs)) (h : σ₀.Within ((r :: rs).map Ring.id) [r.id] σ) :
    (closeGap r.id).Orders σ fun _ σ' => σ₀.Within ((r :: rs).map Ring.id) [] σ' := by
  refine (orders_closeGap (h.depth ▸ hchain.1)).mono fun _ σ' ⟨h', hclosed⟩ => ?_
  refine (h.trans (h'.mono (by simp) (fun _ h => h))).close fun i hi => ?_
  rw [List.mem_singleton.mp hi]
  exact ⟨htight r (List.mem_cons_self ..), hclosed⟩

theorem orders_handlers {info : StmtInfo} {frame : Frame} {hasCleanup : Bool} {start stop : Nat}
    {gaps : List Nat} {catches : List CatchCode} {exit : Chain} (hsound : env.Sound (r :: rs))
    (hscope : env.scope = r.id) (heven : gaps.length % 2 = 0)
    (hcatches : ∀ c ∈ catches, Safe (r :: rs) (c.body.gen env)) (hchain : σ.Chained (r :: rs))
    (htight : σ.Tight (r :: rs)) :
    (handlers info frame hasCleanup start stop gaps env catches exit).Orders σ fun _ σ' =>
      σ.Within ((r :: rs).map Ring.id) [] σ' := by
  induction catches generalizing exit σ with
  | nil => exact .pure (.refl _ _ σ)
  | cons c cs ih =>
      refine .calm_bind (Emit.composed_entryPushed _ _).inGen.calm fun _ => ?_
      refine (safe_handler heven (hcatches c (List.mem_cons_self ..)) σ hchain htight).bind
        fun _ σ₁ h₁ => ?_
      have hchain₁ := h₁.chained hchain
      have htight₁ := h₁.tight htight (by simp)
      rw [hscope]
      refine (orders_leave hsound hchain₁ htight₁).bind fun _ σ₂ h₂ => ?_
      have hend (exit : Chain) : (do
          closeGap r.id
          handlers info frame hasCleanup start stop gaps env cs exit : Gen Chain).Orders σ₂
            fun _ σ' => σ.Within ((r :: rs).map Ring.id) [] σ' := by
        refine (orders_closeLeft hchain₁ htight₁ h₂).bind fun _ σ₃ h₃ => ?_
        exact (ih (fun c' hc' => hcatches c' (List.mem_cons_of_mem c hc')) (h₃.chained hchain₁)
          (h₃.tight htight₁ (by simp))).mono fun _ _ h₄ => (h₁.trans h₃).trans h₄
      refine .ite (fun _ => ?_) fun _ => .calm_bind .pure hend
      exact .touch_bind (.calm_bind (Emit.composed_branch _).inGen.calm fun _ =>
        .calm_bind (Cond.composed_join _ _).inGen.calm hend)

/-! ### The handler for every exception -/

/-- The calls of the subroutine are taken out of the scope, and none is added. -/
theorem orders_subroutine (finalLine : Nat) (hsound : env.Sound (r :: rs))
    (hscope : env.scope = r.id) (hchain : σ.Chained (r :: rs)) (htight : σ.Tight rs)
    (hcont : (σ.get r.id).takesCont = false → (σ.get r.id).cont = []) :
    (subroutine finalLine env).Orders σ fun _ σ' =>
      σ.Within ((r :: rs).map Ring.id) [] σ' ∧ (σ'.get r.id).cont = [] := by
  unfold subroutine
  rw [hscope]
  refine Orders.bind (P := fun _ σ₁ => σ₁ = σ.modifyScope r.id fun s => { s with cont := [] })
    (.onScopes rfl) fun calls σ₁ h₁ => ?_
  have hwithin : σ.Within ((r :: rs).map Ring.id) [] σ₁ := by
    rw [h₁]
    exact .of_modifyScope hchain.1 (by simp)
      ⟨rfl, rfl, rfl, rfl, fun _ => rfl, fun h => (hcont h).symm⟩ fun _ => rfl
  have hnone : (σ₁.get r.id).cont = [] := by rw [h₁, Scopes.get_modifyScope_self hchain.1]
  refine .ite (fun _ => .pure ⟨hwithin, hnone⟩) fun _ => ?_
  refine .calm_bind (Emit.composed_resolve _).inGen.calm fun _ => .touch_bind ?_
  refine .calm_bind (Emit.composed_newReg _).inGen.calm fun reg =>
    .calm_bind (Item.composed_store _).onAsm.calm fun _ => ?_
  refine (orders_cleanup hsound (hwithin.chained hchain) (hwithin.tight htight (by simp))).bind
    fun _ σ₂ h₂ => .calm_bind (Emit.composed_register _ _).inGen.calm fun _ =>
      Orders.touch.mono fun _ σ₃ h₃ => ?_
  rw [h₃]
  exact ⟨hwithin.trans (h₂.mono (by simp) (by simp)),
    by rw [h₂.off _ (id_not_mem (hwithin.chained hchain)), hnone]⟩

/-- From any state with the scopes `σ` that control gets to, the step fails with no disorder, or
it succeeds and leaves scopes with `Q`. -/
def OrdersHere {α : Type} (x : Gen α) (σ : Scopes) (Q : α → Scopes → Prop) : Prop :=
  ∀ s : MethodState, s.scopes = σ → s.asm.code.alive = true → Orderly x s fun a s' => Q a s'.scopes

theorem OrdersHere.bind {α β : Type} {x : Gen α} {f : α → Gen β} {P : α → Scopes → Prop}
    {R : β → Scopes → Prop} (hx : x.Orders σ P) (hlively : Lively x)
    (hf : ∀ a σ', P a σ' → (f a).OrdersHere σ' R) : (x >>= f).OrdersHere σ R := by
  intro s hs halive
  refine ((hx s hs).also (hlively s halive)).bind fun a s' ⟨hP, halive'⟩ => ?_
  exact hf a s'.scopes hP s' rfl halive'

theorem OrdersHere.touch_bind {β : Type} {g : Code → Code} {f : Unit → Gen β}
    {R : β → Scopes → Prop} (hg : ∀ c, c.alive = true → (g c).alive = true)
    (h : (f ()).OrdersHere σ R) : (touch g >>= f).OrdersHere σ R :=
  .bind .touch (lively_touch hg) fun _ _ hσ => hσ ▸ h

/-- Entering a place in a given state brings it to life. -/
theorem alive_entryPushed {frame : Frame} {k : Kind} {c c' : Code} {pc : Nat}
    (h : Emit.entryPushed frame k c = .ok pc c') : c'.alive = true := by
  obtain ⟨_, c₁, hentry, h⟩ := EStateM.bind_eq_ok.mp h
  obtain ⟨_, c₂, -, hentry⟩ := EStateM.bind_eq_ok.mp hentry
  cases hentry
  cases h
  rfl

theorem orders_entryPushed_bind {β : Type} {frame : Frame} {k : Kind} {f : Nat → Gen β}
    {R : β → Scopes → Prop} (h : ∀ pc, (f pc).OrdersHere σ R) :
    ((liftM (Emit.entryPushed frame k) : Gen Nat) >>= f).Orders σ R := by
  intro s hs
  have hcalm := (Emit.composed_entryPushed frame k).inGen.calm s
  refine (hcalm.also (Q := fun _ s' => s'.asm.code.alive = true) ?_).bind
    fun pc s' ⟨hs', halive⟩ => ?_
  · intro pc s' hrun
    obtain ⟨⟨code, pool⟩, scopes, locals, subroutines, letDepth, reports, appends⟩ := s
    simp only [Part.get, liftM, monadLift, MonadLift.monadLift, Gen.onAsm, Asm.onCode] at hrun
    cases hcode : Emit.entryPushed frame k code with
    | ok a c =>
        rw [hcode] at hrun
        cases hrun
        exact alive_entryPushed hcode
    | error e c =>
        rw [hcode] at hrun
        cases hrun
  · exact h pc s' (hs'.scopes.trans hs) halive

/-- The cleanup that is reached opens a gap, which the row for every exception takes out
again. -/
theorem orders_catchAll {span : Span} {frame : Frame} {start finalLine : Nat}
    (hsound : env.Sound (r :: rs)) (hscope : env.scope = r.id) (hsome : r.cleanup.isSome)
    (hchain : σ.Chained (r :: rs)) (htight : σ.Tight (r :: rs))
    (hcont : (σ.get r.id).takesCont = false → (σ.get r.id).cont = []) :
    (catchAll span frame start finalLine env).Orders σ fun _ σ' =>
      σ.Within ((r :: rs).map Ring.id) [] σ' ∧ (σ'.get r.id).cont = [] := by
  delta catchAll
  rw [hscope]
  have hclosed := htight r (List.mem_cons_self ..)
  refine .touch_bind (orders_entryPushed_bind fun pc => ?_)
  -- all gaps so far are taken out
  refine OrdersHere.bind (P := fun gaps σ₁ => gaps = ((σ.get r.id).gaps.getD #[]).toList ∧
      σ₁ = σ.modifyScope r.id fun s => { s with gaps := s.gaps.map fun _ => #[] })
    (.onScopes ⟨rfl, rfl⟩) (lively_onScopes _) ?_
  rintro gaps σ₁ ⟨hgaps, h₁⟩
  have heven : gaps.length % 2 = 0 := hgaps ▸ Scope.even_gaps hclosed
  have hself₁ : σ₁.get r.id = { σ.get r.id with gaps := (σ.get r.id).gaps.map fun _ => #[] } := by
    rw [h₁, Scopes.get_modifyScope_self hchain.1]
  have hnone₁ : (σ₁.get r.id).gaps.getD #[] = #[] := by
    rw [hself₁]
    cases (σ.get r.id).gaps <;> rfl
  have hwithin₁ : σ.Within ((r :: rs).map Ring.id) [] σ₁ := by
    rw [h₁]
    refine .of_modifyScope hchain.1 (by simp) (Scope.steady_of_gaps _ _) fun _ => ?_
    rw [hclosed]
    show decide (_ % 2 = 1) = false
    cases (σ.get r.id).gaps <;> rfl
  refine .bind (orders_addCatches _ _ _ _ heven) (lively_addCatches _ _ _ _ _)
    fun start' σ₁' h₁' => ?_
  rw [h₁']
  refine .touch_bind (fun c hc =>
    (Code.alive_markLine _).trans ((Emit.alive_beginLine c _).trans hc)) ?_
  refine .bind (.of_calm (Emit.composed_newReg _).inGen.calm)
    (Lively.onAsm (Lively.onCode (.modifyGet fun _ h => h))) fun reg σ₁' h₁' => ?_
  rw [h₁']
  refine .bind (.of_calm (Item.composed_store _).onAsm.calm) (Item.lively_store reg).onAsm
    fun _ σ₁' h₁' => ?_
  rw [h₁']
  -- the cleanup is reached, so it opens a gap
  intro s hs halive
  have hchain₁ := hwithin₁.chained hchain
  have htight₁ := hwithin₁.tight htight (by simp)
  rw [← hs] at hchain₁ htight₁
  refine (orderly_leave hsound hchain₁ htight₁).bind fun _ s₂ hleft => ?_
  have hreach : s.asm.code.reachable = true := Bool.or_eq_true_iff.mpr (.inl halive)
  obtain ⟨gap, hgap⟩ := hleft.opened hreach hsome
  have hwithin₂ := hleft.within
  rw [hs] at hgap hwithin₂
  rw [hnone₁] at hgap
  suffices h : Orders _ s₂.scopes (fun _ σ' => σ.Within ((r :: rs).map Ring.id) [] σ' ∧
    (σ'.get r.id).cont = []) from h s₂ rfl
  refine .calm_bind (Item.composed_load _).onAsm.calm fun _ => ?_
  refine Orders.bind (P := fun gap' σ₃ => gap' = some gap ∧
      σ₃ = s₂.scopes.modifyScope r.id fun s => { s with gaps := s.gaps.map fun _ => #[] })
    (.onScopes ?_) ?_
  · show Orderly (Scoping.takeGap r.id) s₂.scopes _
    have htail : (((s₂.scopes.get r.id).gaps.getD #[]).toList).tail.toArray = #[] := by
      rw [hgap]; rfl
    refine ⟨?_, ?_⟩
    · rw [hgap]
      rfl
    · exact congrArg (fun gaps => s₂.scopes.modifyScope r.id
        fun s => { s with gaps := s.gaps.map fun _ => gaps }) htail
  rintro _ σ₃ ⟨rfl, h₃⟩
  have hself₃ : σ₃.get r.id = { s₂.scopes.get r.id with
      gaps := (s₂.scopes.get r.id).gaps.map fun _ => #[] } := by
    rw [h₃, Scopes.get_modifyScope_self (hwithin₂.depth ▸ (hwithin₁.chained hchain).1)]
  have hwithin₃ : σ.Within ((r :: rs).map Ring.id) [] σ₃ := by
    have hid₂ : r.id < s₂.scopes.depth := hwithin₂.depth ▸ (hwithin₁.chained hchain).1
    have hstep : s₂.scopes.Within ((r :: rs).map Ring.id) [r.id] σ₃ := h₃ ▸
      .of_modifyScope hid₂ (by simp) (Scope.steady_of_gaps _ _) fun h => absurd (by simp) h
    refine ((hwithin₁.mono (fun _ h => h) (by simp)).trans (hwithin₂.trans hstep)).close
      fun i hi => ?_
    rw [List.mem_singleton.mp hi, hself₃]
    refine ⟨hclosed, ?_⟩
    show decide (_ % 2 = 1) = false
    rw [hgap]
    rfl
  refine (orders_addCatch _ _).bind fun _ σ₃' h₃' => ?_
  rw [h₃']
  refine .calm_bind (Emit.composed_plain _).inGen.calm fun _ => .touch_bind ?_
  have hsteady := hwithin₃.steady r.id
  refine (orders_subroutine finalLine hsound hscope (hwithin₃.chained hchain)
    (hwithin₃.tight htight (by simp)).tail fun htakes => ?_).mono fun _ σ₄ ⟨h₄, hend⟩ =>
      ⟨hwithin₃.trans h₄, hend⟩
  have htakes₀ : (σ.get r.id).takesCont = false := hsteady.takesCont.symm.trans htakes
  rw [hsteady.cont htakes₀, hcont htakes₀]

/-! ### Regions -/

theorem leavesNoJump_protect {info : StmtInfo} {body : StmtCode} {catches : List CatchCode}
    {finalLine : Nat} {cleanup : Cleanup} (hsound : env.Sound (r :: rs)) (hscope : env.scope = r.id)
    (hkind : r.kind.takesExit = false) (hloop : r.kind ≠ .loop)
    (hcleanup : r.cleanup = some cleanup) (hbody : Safe (r :: rs) (body.gen env))
    (hcatches : ∀ c ∈ catches, Safe (r :: rs) (c.body.gen env)) :
    LeavesNoJump r rs (protect info body catches finalLine env) := by
  intro σ hchain htight hexit hcont
  delta protect
  rw [hscope]
  refine .freeing (.calm_bind Emit.composed_curPc.inGen.calm fun start => .calm_bind (Calm.peek _)
    fun frame => ?_)
  refine (hbody.rangedStat σ hchain htight).bind fun _ σ₁ h₁ => ?_
  have hchain₁ := h₁.chained hchain
  have htight₁ := h₁.tight htight (by simp)
  refine .calm_bind Emit.composed_curPc.inGen.calm fun stop =>
    .peekScope_bind (.peekScope_bind (.touch_bind ?_))
  have heven := Scope.even_gaps (htight₁ r (List.mem_cons_self ..))
  refine (orders_leave hsound hchain₁ htight₁).bind fun _ σ₂ h₂ => .touch_bind ?_
  refine .calm_bind (Emit.composed_branch _).inGen.calm fun exit => ?_
  refine (orders_closeLeft hchain₁ htight₁ h₂).bind fun _ σ₃ h₃ => ?_
  have h₀₃ := h₁.trans h₃
  have htakesExit : (σ.get r.id).takesExit = false :=
    (congrArg ScopeKind.takesExit hchain.2.1).trans hkind
  have hactive : (σ₁.get r.id).cleanup = some cleanup := hchain₁.2.2.2.1.trans hcleanup
  -- the handler for every exception, if there is cleanup to run, and the jumps behind the region
  have hend (exit : Chain) {σ₄ : Scopes} (h₄ : σ.Within ((r :: rs).map Ring.id) [] σ₄) : (do
      if (σ₁.get r.id).cleanup.any (·.isActive) then catchAll body.span frame start finalLine env
      Emit.resolve exit : Gen Unit).Orders σ₄ fun _ σ' =>
        σ.Within ((r :: rs).map Ring.id) [] σ' ∧ (σ'.get r.id).exit = [] ∧
          (σ'.get r.id).cont = [] := by
    have hresolve {σ₅ : Scopes} (h₅ : σ.Within ((r :: rs).map Ring.id) [] σ₅)
        (hcont₅ : (σ₅.get r.id).cont = []) : (liftM (Emit.resolve exit) : Gen Unit).Orders σ₅
          fun _ σ' => σ.Within ((r :: rs).map Ring.id) [] σ' ∧ (σ'.get r.id).exit = [] ∧
            (σ'.get r.id).cont = [] := by
      refine (Orders.of_calm (Emit.composed_resolve exit).inGen.calm).mono fun _ σ' hσ' => ?_
      rw [hσ']
      exact ⟨h₅, by rw [(h₅.steady r.id).exit htakesExit, hexit], hcont₅⟩
    have hsame : (σ.get r.id).takesCont = false → (σ₄.get r.id).cont = [] :=
      fun h => by rw [(h₄.steady r.id).cont h, hcont]
    have htakes₄ := (h₄.steady r.id).takesCont
    refine .ite (fun _ => ?_) fun hidle => hresolve h₄ (hsame ?_)
    · refine (orders_catchAll hsound hscope (by rw [hcleanup]; rfl) (h₄.chained hchain)
        (h₄.tight htight (by simp)) fun h => hsame (htakes₄.symm.trans h)).bind
          fun _ σ₅ ⟨h₅, hcont₅⟩ => ?_
      exact hresolve (h₄.trans h₅) hcont₅
    · -- without cleanup to run there is no subroutine to call
      rw [hactive] at hidle
      have hnot : cleanup ≠ .finallyBlock true := by
        rintro rfl
        exact hidle rfl
      simp [Scope.takesCont, hchain.2.1, hchain.2.2.2.1, hcleanup, hloop, hnot]
  refine .ite (fun _ => ?_) fun _ => .calm_bind .pure fun exit => hend exit h₀₃
  refine (orders_handlers hsound hscope heven hcatches (h₀₃.chained hchain)
    (h₀₃.tight htight (by simp))).bind fun exit σ₄ h₄ => hend exit (h₀₃.trans h₄)

/-- Changing the innermost scope leaves the rings around it as they are. -/
theorem chained_modifyScope {f : Scope → Scope} (hchain : σ.Chained (r :: rs)) :
    (σ.modifyScope r.id f).Chained rs := by
  obtain ⟨-, -, -, -, -, hlt, hrest⟩ := hchain
  induction rs with
  | nil => trivial
  | cons q qs ih =>
      obtain ⟨hid, hkind, htree, hcleanup, hparent, hdec, hrest⟩ := hrest
      have hq := σ.get_modifyScope_of_ne (Nat.ne_of_lt (hlt q (List.mem_cons_self ..))) f
      exact ⟨by simpa using hid, hq ▸ hkind, hq ▸ htree, hq ▸ hcleanup, hq ▸ hparent, hdec,
        ih (fun q' hq' => hlt q' (List.mem_cons_of_mem q hq')) hrest⟩

/-- A scope with cleanup that was just opened. -/
structure Opened (r : Ring) (rs : List Ring) (σ σ₁ : Scopes) : Prop where
  id : r.id = σ.depth
  chained : σ₁.Chained (r :: rs)
  tight : σ₁.Tight (r :: rs)
  exit : (σ₁.get r.id).exit = []
  cont : (σ₁.get r.id).cont = []
  depth : σ₁.depth = σ.depth + 1
  same : ∀ i < σ.depth, σ₁.get i = σ.get i

theorem orders_openProtected {r₀ : Ring} (kind : ScopeKind) (info : StmtInfo) (cleanup : Cleanup)
    (hscope : env.scope = r₀.id) (hchain : σ.Chained (r₀ :: rs)) (htight : σ.Tight (r₀ :: rs)) :
    (openProtected kind info cleanup env).Orders σ fun id σ₁ =>
      Opened ⟨id, kind, some info.id, some cleanup⟩ (r₀ :: rs) σ σ₁ := by
  have hchain₁ := chained_push hchain kind (some info.id)
  have htight₁ := tight_push hchain htight kind (some info.id)
  have hself := σ.get_push_self kind (some info.id) r₀.id
  have hdepth := σ.depth_push kind (some info.id) r₀.id
  have hsame (i : ScopeId) (hi : i < σ.depth) := Scopes.get_push_of_lt hi kind (some info.id) r₀.id
  refine Orders.bind (P := fun id σ₁ => id = σ.depth ∧ σ₁ = (σ.push kind (some info.id) r₀.id).2)
    (.onScopes ?_) ?_
  · rw [hscope]
    exact ⟨rfl, rfl⟩
  rintro _ _ ⟨rfl, rfl⟩
  refine Orders.bind (P := fun _ σ₂ => σ₂ = (σ.push kind (some info.id) r₀.id).2.modifyScope σ.depth
    fun s => { s with cleanup := some cleanup, gaps := some #[] }) (.onScopes rfl)
      fun _ σ₂ h₂ => .pure ?_
  have hget : σ₂.get σ.depth =
      ⟨kind, some info.id, some r₀.id, [], [], some cleanup, some #[]⟩ := by
    rw [h₂, Scopes.get_modifyScope_self hchain₁.1, hself]
  have hother (i : ScopeId) (hi : i < σ.depth) : σ₂.get i = σ.get i := by
    rw [h₂, Scopes.get_modifyScope_of_ne _ (Nat.ne_of_lt hi), hsame i hi]
  have hdepth₂ : σ₂.depth = σ.depth + 1 := by rw [h₂, Scopes.depth_modifyScope, hdepth]
  have hrest : σ₂.Chained (r₀ :: rs) := h₂ ▸ chained_modifyScope hchain₁
  refine ⟨rfl, ⟨?_, ?_, ?_, ?_, ?_, hchain.id_lt, hrest⟩, fun q hq => ?_, ?_, ?_, hdepth₂, hother⟩
  · rw [hdepth₂]
    exact Nat.lt_succ_self _
  all_goals try rw [hget]
  · rfl
  · rcases List.mem_cons.mp hq with rfl | hq
    · rw [hget]
      rfl
    · rw [hother q.id (hchain.id_lt q hq)]
      exact htight q hq

/-- A region between opening its scope and closing it. -/
theorem orders_region {r₀ : Ring} {kind : ScopeKind} {info : StmtInfo} {cleanup : Cleanup}
    {region : ScopeId → Gen Unit} (hscope : env.scope = r₀.id)
    (h : ∀ id, (∀ q ∈ r₀ :: rs, q.id < id) →
      LeavesNoJump ⟨id, kind, some info.id, some cleanup⟩ (r₀ :: rs) (region id)) :
    Safe (r₀ :: rs) (do
      let id ← openProtected kind info cleanup env
      region id
      Scoping.closeScope id) := by
  intro σ hchain htight
  refine (orders_openProtected kind info cleanup hscope hchain htight).bind fun id σ₁ ho => ?_
  have hid : id = σ.depth := ho.id
  subst hid
  refine (h _ hchain.id_lt σ₁ ho.chained ho.tight ho.exit ho.cont).bind
    fun _ σ₂ ⟨hw, hexit, hcont⟩ => ?_
  exact orders_closeScope ho.depth ho.same hw hexit hcont

theorem sound_inside {id : ScopeId} (hsound : env.Sound rs) : (env.inside id).Sound rs := by
  induction rs with
  | nil => trivial
  | cons q qs ih => exact ⟨hsound.1, ih hsound.2⟩

theorem safe_sync {r₀ : Ring} {info : StmtInfo} {lock : ExprCode} {body : StmtCode}
    (hsound : env.Sound (r₀ :: rs)) (hscope : env.scope = r₀.id)
    (hlock : lock.IsComposed Resolver.IsPlain false)
    (hbody : ∀ id c, (∀ q ∈ r₀ :: rs, q.id < id) →
      Safe (⟨id, .monitor, some info.id, some (.monitor c)⟩ :: r₀ :: rs)
        (body.gen (env.inside id))) :
    Safe (r₀ :: rs) (sync info lock body env) := by
  refine .freeing (.calm_bind (Emit.composed_newReg _).inGen.calm fun reg =>
    .calm_bind (hlock.push _).calm fun m =>
    .calm_bind (Item.composed_duplicate _).onAsm.calm fun _ =>
      .calm_bind (Item.composed_store _).onAsm.calm fun _ =>
    .calm_bind (Emit.composed_plain _).inGen.calm fun _ =>
      .touch_bind (orders_region hscope fun id hid => ?_))
  have hsound' : (env.inside id).Sound
      (⟨id, .monitor, some info.id, some (.monitor reg)⟩ :: r₀ :: rs) :=
    ⟨fun h => by simp at h, sound_inside hsound⟩
  exact leavesNoJump_protect hsound' rfl rfl (by simp) rfl (hbody id reg hid) (by simp)

/-- Giving one more scope a `finally` block leaves those of the others as they are. -/
theorem sound_insideTry {id : ScopeId} {block : Gen Unit} (hsound : env.Sound rs)
    (hid : ∀ q ∈ rs, q.id < id) : (env.insideTry id block).Sound rs := by
  induction rs with
  | nil => trivial
  | cons q qs ih =>
      refine ⟨fun hfinal => ?_, ih hsound.2 fun q' hq' => hid q' (List.mem_cons_of_mem q hq')⟩
      have hne : q.id ≠ id := Nat.ne_of_lt (hid q (List.mem_cons_self ..))
      show Safe qs (if q.id = id then block else env.finallyOf q.id)
      rw [if_neg hne]
      exact hsound.1 hfinal

theorem safe_tryCatch {r₀ : Ring} {ctx : Context} {info : StmtInfo} {body : StmtCode}
    {catches : List CatchCode} {final : Option Stmt} {finalCode : Option StmtCode}
    (hscope : env.scope = r₀.id) (hsome : finalCode.isSome = final.isSome)
    (hsound : env.Sound (r₀ :: rs)) (hfinal : ∀ f ∈ finalCode, Safe (r₀ :: rs) (f.gen env))
    (hparts : ∀ (inner : Env) (c : Cleanup),
      (∀ q ∈ r₀ :: rs, q.id < inner.scope) →
      inner.Sound (⟨inner.scope, .tryBlock, some info.id, some c⟩ :: r₀ :: rs) →
      ∀ code, code = body ∨ code ∈ catches.map CatchCode.body →
        Safe (⟨inner.scope, .tryBlock, some info.id, some c⟩ :: r₀ :: rs) (code.gen inner)) :
    Safe (r₀ :: rs) (tryCatch ctx info body catches final finalCode env) := by
  have hregion (inner : ScopeId → Env) (finalLine : Nat) (hinner : ∀ id, (inner id).scope = id)
      (hsound' : ∀ id, (∀ q ∈ r₀ :: rs, q.id < id) → (inner id).Sound
        (⟨id, .tryBlock, some info.id, some (.finallyBlock final.isSome)⟩ :: r₀ :: rs)) :
      Safe (r₀ :: rs) (do
        let id ← openProtected .tryBlock info (.finallyBlock final.isSome) env
        protect info body catches finalLine (inner id)
        Scoping.closeScope id) := by
    refine orders_region hscope fun id hid => ?_
    have hcode := hparts (inner id) (.finallyBlock final.isSome)
    rw [hinner id] at hcode
    have hcode := hcode hid (hsound' id hid)
    refine leavesNoJump_protect (hsound' id hid) (hinner id) rfl (by simp) rfl
      (hcode body (.inl rfl)) ?_
    exact fun c hc => hcode c.body (.inr (List.mem_map_of_mem hc))
  have hmark : Calm (modify fun s => { s with subroutines := wantsSubroutines ctx.config final } :
      Gen Unit) := fun _ => ⟨rfl, rfl⟩
  cases finalCode with
  | none =>
      have hmain (finalLine : Nat) := hregion (fun id => env.inside id) finalLine (fun _ => rfl)
        fun id _ => ⟨fun h => by simp [← hsome] at h, sound_inside hsound⟩
      exact .calm_bind .get fun _ => .ite (hmain _) (.calm_bind hmark fun _ => hmain _)
  | some f =>
      have hblock (id : ScopeId) : Safe (r₀ :: rs)
          ((env.insideTry id (rangedStat f env RangeFlag.block)).finallyOf id) := by
        show Safe (r₀ :: rs) (if id = id then rangedStat f env RangeFlag.block
          else env.finallyOf id)
        rw [if_pos rfl]
        exact (hfinal f rfl).rangedStat
      have hmain (finalLine : Nat) := hregion
        (fun id => env.insideTry id (rangedStat f env RangeFlag.block)) finalLine (fun _ => rfl)
        fun id hid => ⟨fun _ => hblock id, sound_insideTry hsound hid⟩
      exact .calm_bind .get fun _ => .ite (hmain _) (.calm_bind hmark fun _ => hmain _)

end Gen

end StackCode
