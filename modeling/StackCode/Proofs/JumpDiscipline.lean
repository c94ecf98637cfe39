import StackCode.Generate.Class
import StackCode.Proofs.OrderlyRegions

/-!
# Trees whose jumps are in order

What is asked of a tree here: it has no `letIn`, the statements that run after every round
of a `for` loop are expressions, no two statements share an identity, and every jump leaves
a statement around it that can be left that way. The statements before the first round of a
loop stand outside of it.

Generating such a tree never runs into a scope that is closed out of order, a jump that
waits in a closed scope, a gap without an end, a jump without a target or a handler without
a gap. The induction runs over the tree; what it carries is that each jump target in reach
is found as the innermost ring of its identity.
-/

namespace StackCode

/-! ### Shapes of trees -/

def Stmt.isExec : Stmt → Bool
  | .exec _ _ => true
  | _ => false

mutual

/-- Whether no `letIn` occurs in a statement. -/
def Stmt.letFree (s : Stmt) : Bool :=
  match s with
  | .block _ ss => Stmt.allLetFree ss
  | .varDef _ _ (some e) => e.letFree
  | .varDef _ _ none | .skip _ | .breakTo _ _ | .continueTo _ _ | .localClass _ _ => true
  | .doLoop _ b c => b.letFree && c.letFree
  | .whileLoop _ c b => c.letFree && b.letFree
  | .forLoop _ init (some c) step b =>
    Stmt.allLetFree init && c.letFree && Stmt.allLetFree step && b.letFree
  | .forLoop _ init none step b => Stmt.allLetFree init && Stmt.allLetFree step && b.letFree
  | .foreach _ _ e b => e.letFree && b.letFree
  | .labelled _ _ b => b.letFree
  | .switch _ e cs => e.letFree && Case.allLetFree cs
  | .sync _ e b => e.letFree && b.letFree
  | .tryCatch _ b cs (some f) => b.letFree && Catch.allLetFree cs && f.letFree
  | .tryCatch _ b cs none => b.letFree && Catch.allLetFree cs
  | .ite _ c t (some f) => c.letFree && t.letFree && f.letFree
  | .ite _ c t none => c.letFree && t.letFree
  | .exec _ e => e.letFree
  | .ret _ (some e) => e.letFree
  | .ret _ none => true
  | .raise _ e => e.letFree
  | .assert _ c (some d) => c.letFree && d.letFree
  | .assert _ c none => c.letFree

def Stmt.allLetFree (ss : List Stmt) : Bool :=
  match ss with
  | [] => true
  | s :: ss => s.letFree && Stmt.allLetFree ss

def Case.allLetFree (cs : List Case) : Bool :=
  match cs with
  | [] => true
  | .mk _ (some e) ss :: cs => e.letFree && Stmt.allLetFree ss && Case.allLetFree cs
  | .mk _ none ss :: cs => Stmt.allLetFree ss && Case.allLetFree cs

def Catch.allLetFree (cs : List Catch) : Bool :=
  match cs with
  | [] => true
  | .mk _ _ b :: cs => b.letFree && Catch.allLetFree cs

end

mutual

/-- The identities of a statement and of those within it. -/
def Stmt.ids (s : Stmt) : List NodeId :=
  match s with
  | .block i ss => i.id :: Stmt.allIds ss
  | .varDef i _ _ | .skip i | .exec i _ | .breakTo i _ | .continueTo i _ | .ret i _ | .raise i _
  | .assert i _ _ | .localClass i _ => [i.id]
  | .doLoop i b _ => i.id :: b.ids
  | .whileLoop i _ b => i.id :: b.ids
  | .forLoop i init _ step b => i.id :: (Stmt.allIds init ++ (Stmt.allIds step ++ b.ids))
  | .foreach i _ _ b => i.id :: b.ids
  | .labelled i _ b => i.id :: b.ids
  | .switch i _ cs => i.id :: Case.allIds cs
  | .sync i _ b => i.id :: b.ids
  | .tryCatch i b cs (some f) => i.id :: (b.ids ++ (Catch.allIds cs ++ f.ids))
  | .tryCatch i b cs none => i.id :: (b.ids ++ Catch.allIds cs)
  | .ite i _ t (some f) => i.id :: (t.ids ++ f.ids)
  | .ite i _ t none => i.id :: t.ids

def Stmt.allIds (ss : List Stmt) : List NodeId :=
  match ss with
  | [] => []
  | s :: ss => s.ids ++ Stmt.allIds ss

def Case.allIds (cs : List Case) : List NodeId :=
  match cs with
  | [] => []
  | .mk _ _ ss :: cs => Stmt.allIds ss ++ Case.allIds cs

def Catch.allIds (cs : List Catch) : List NodeId :=
  match cs with
  | [] => []
  | .mk _ _ b :: cs => b.ids ++ Catch.allIds cs

end

mutual

/-- Whether the statements that run after every round of a `for` loop are expressions,
throughout a statement. -/
def Stmt.execSteps (s : Stmt) : Bool :=
  match s with
  | .block _ ss => Stmt.allExecSteps ss
  | .varDef .. | .skip _ | .exec .. | .breakTo .. | .continueTo .. | .ret .. | .raise ..
  | .assert .. | .localClass .. => true
  | .doLoop _ b _ => b.execSteps
  | .whileLoop _ _ b => b.execSteps
  | .forLoop _ init _ step b => Stmt.allExecSteps init && step.all Stmt.isExec && b.execSteps
  | .foreach _ _ _ b => b.execSteps
  | .labelled _ _ b => b.execSteps
  | .switch _ _ cs => Case.allExecSteps cs
  | .sync _ _ b => b.execSteps
  | .tryCatch _ b cs (some f) => b.execSteps && Catch.allExecSteps cs && f.execSteps
  | .tryCatch _ b cs none => b.execSteps && Catch.allExecSteps cs
  | .ite _ _ t (some f) => t.execSteps && f.execSteps
  | .ite _ _ t none => t.execSteps

def Stmt.allExecSteps (ss : List Stmt) : Bool :=
  match ss with
  | [] => true
  | s :: ss => s.execSteps && Stmt.allExecSteps ss

def Case.allExecSteps (cs : List Case) : Bool :=
  match cs with
  | [] => true
  | .mk _ _ ss :: cs => Stmt.allExecSteps ss && Case.allExecSteps cs

def Catch.allExecSteps (cs : List Catch) : Bool :=
  match cs with
  | [] => true
  | .mk _ _ b :: cs => b.execSteps && Catch.allExecSteps cs

end

mutual

/-- Whether every `break` leaves a labelled statement, a loop or a switch around it, or one of
`breaks` further out, and every `continue` goes on with a loop around it, or with one of
`conts`. -/
def Stmt.jumpsIn (s : Stmt) (breaks conts : List NodeId) : Bool :=
  match s with
  | .block _ ss => Stmt.allJumpsIn ss breaks conts
  | .varDef .. | .skip _ | .exec .. | .ret .. | .raise .. | .assert .. | .localClass .. => true
  | .doLoop i b _ => b.jumpsIn (i.id :: breaks) (i.id :: conts)
  | .whileLoop i _ b => b.jumpsIn (i.id :: breaks) (i.id :: conts)
  | .forLoop i init _ step b =>
    Stmt.allJumpsIn init breaks conts && Stmt.allJumpsIn step (i.id :: breaks) (i.id :: conts) &&
      b.jumpsIn (i.id :: breaks) (i.id :: conts)
  | .foreach i _ _ b => b.jumpsIn (i.id :: breaks) (i.id :: conts)
  | .labelled i _ b => b.jumpsIn (i.id :: breaks) conts
  | .switch i _ cs => Case.allJumpsIn cs (i.id :: breaks) conts
  | .sync _ _ b => b.jumpsIn breaks conts
  | .tryCatch _ b cs (some f) =>
    b.jumpsIn breaks conts && Catch.allJumpsIn cs breaks conts && f.jumpsIn breaks conts
  | .tryCatch _ b cs none => b.jumpsIn breaks conts && Catch.allJumpsIn cs breaks conts
  | .ite _ _ t (some f) => t.jumpsIn breaks conts && f.jumpsIn breaks conts
  | .ite _ _ t none => t.jumpsIn breaks conts
  | .breakTo _ target => breaks.contains target
  | .continueTo _ target => conts.contains target

def Stmt.allJumpsIn (ss : List Stmt) (breaks conts : List NodeId) : Bool :=
  match ss with
  | [] => true
  | s :: ss => s.jumpsIn breaks conts && Stmt.allJumpsIn ss breaks conts

def Case.allJumpsIn (cs : List Case) (breaks conts : List NodeId) : Bool :=
  match cs with
  | [] => true
  | .mk _ _ ss :: cs => Stmt.allJumpsIn ss breaks conts && Case.allJumpsIn cs breaks conts

def Catch.allJumpsIn (cs : List Catch) (breaks conts : List NodeId) : Bool :=
  match cs with
  | [] => true
  | .mk _ _ b :: cs => b.jumpsIn breaks conts && Catch.allJumpsIn cs breaks conts

end

/-! ### Identities -/

/-- No identity occurs twice or is that of a jump target in reach. -/
structure Fresh (ids breaks conts : List NodeId) : Prop where
  nodup : ids.Nodup
  breaks : ∀ t ∈ ids, t ∉ breaks
  conts : ∀ t ∈ ids, t ∉ conts

namespace Fresh

variable {i : NodeId} {ids ids' breaks conts : List NodeId}

theorem mono (h : Fresh ids breaks conts) (hsub : ids'.Sublist ids) : Fresh ids' breaks conts :=
  ⟨h.nodup.sublist hsub, fun t ht => h.breaks t (hsub.subset ht),
    fun t ht => h.conts t (hsub.subset ht)⟩

theorem left (h : Fresh (ids ++ ids') breaks conts) : Fresh ids breaks conts :=
  h.mono (List.sublist_append_left ids ids')

theorem right (h : Fresh (ids ++ ids') breaks conts) : Fresh ids' breaks conts :=
  h.mono (List.sublist_append_right ids ids')

theorem tail (h : Fresh (i :: ids) breaks conts) : Fresh ids breaks conts :=
  h.mono (List.sublist_cons_self i ids)

/-- Behind a statement that jumps may leave. -/
theorem enterTarget (h : Fresh (i :: ids) breaks conts) : Fresh ids (i :: breaks) conts := by
  refine ⟨h.tail.nodup, fun t ht => ?_, h.tail.conts⟩
  have hne : t ≠ i := fun heq => (List.nodup_cons.mp h.nodup).1 (heq ▸ ht)
  simp [hne, h.tail.breaks t ht]

/-- Behind a loop. -/
theorem enterLoop (h : Fresh (i :: ids) breaks conts) : Fresh ids (i :: breaks) (i :: conts) := by
  refine ⟨h.tail.nodup, h.enterTarget.breaks, fun t ht => ?_⟩
  have hne : t ≠ i := fun heq => (List.nodup_cons.mp h.nodup).1 (heq ▸ ht)
  simp [hne, h.tail.conts t ht]

end Fresh

/-! ### Surroundings -/

/-- The surroundings stand in the rings, and the jump targets in reach are found there. -/
structure Env.Placed (env : Env) (r₀ : Ring) (rs : List Ring) (breaks conts : List NodeId) :
    Prop where
  scope : env.scope = r₀.id
  sound : env.Sound (r₀ :: rs)
  breaks : ∀ t ∈ breaks, ∃ r, (r₀ :: rs).find? (·.tree == some t) = some r ∧ r.kind.takesExit
  conts : ∀ t ∈ conts, ∃ r, (r₀ :: rs).find? (·.tree == some t) = some r ∧ r.kind = .loop

namespace Env.Placed

variable {env inner : Env} {r₀ r : Ring} {rs : List Ring} {breaks conts : List NodeId} {i : NodeId}

/-- Inside one more ring, whose own statement may be a target that was not in reach before. -/
theorem push {breaks' conts' : List NodeId} (h : env.Placed r₀ rs breaks conts)
    (hscope : inner.scope = r.id) (hsound : inner.Sound (r :: r₀ :: rs)) (htree : r.tree = some i)
    (hbreaks : ∀ t ∈ breaks', t ∈ breaks ∧ t ≠ i ∨ t = i ∧ r.kind.takesExit)
    (hconts : ∀ t ∈ conts', t ∈ conts ∧ t ≠ i ∨ t = i ∧ r.kind = .loop) :
    inner.Placed r (r₀ :: rs) breaks' conts' := by
  have hother {t : NodeId} (hne : t ≠ i) : (r.tree == some t) = false := by
    rw [htree]
    simpa using hne.symm
  have hself : (r.tree == some i) = true := by simp [htree]
  refine ⟨hscope, hsound, fun t ht => ?_, fun t ht => ?_⟩
  · rcases hbreaks t ht with ⟨ht, hne⟩ | ⟨rfl, hkind⟩
    · obtain ⟨q, hq, hkind⟩ := h.breaks t ht
      exact ⟨q, by rw [List.find?_cons, hother hne]; exact hq, hkind⟩
    · exact ⟨r, by rw [List.find?_cons, hself], hkind⟩
  · rcases hconts t ht with ⟨ht, hne⟩ | ⟨rfl, hkind⟩
    · obtain ⟨q, hq, hkind⟩ := h.conts t ht
      exact ⟨q, by rw [List.find?_cons, hother hne]; exact hq, hkind⟩
    · exact ⟨r, by rw [List.find?_cons, hself], hkind⟩

theorem ne_of_fresh {ids : List NodeId} (hfresh : Fresh (i :: ids) breaks conts) :
    (∀ t ∈ breaks, t ≠ i) ∧ ∀ t ∈ conts, t ≠ i :=
  ⟨fun _ ht heq => hfresh.breaks i (List.mem_cons_self ..) (heq ▸ ht),
    fun _ ht heq => hfresh.conts i (List.mem_cons_self ..) (heq ▸ ht)⟩

/-- Inside a scope that is no target. -/
theorem enter {ids : List NodeId} (h : env.Placed r₀ rs breaks conts)
    (hscope : inner.scope = r.id) (hsound : inner.Sound (r :: r₀ :: rs)) (htree : r.tree = some i)
    (hfresh : Fresh (i :: ids) breaks conts) : inner.Placed r (r₀ :: rs) breaks conts :=
  h.push hscope hsound htree (fun t ht => .inl ⟨ht, (ne_of_fresh hfresh).1 t ht⟩)
    fun t ht => .inl ⟨ht, (ne_of_fresh hfresh).2 t ht⟩

/-- Inside a plain scope, which has no cleanup. -/
theorem sound_plain {kind : ScopeKind} {id : ScopeId} (h : env.Placed r₀ rs breaks conts) :
    (env.inside id).Sound (⟨id, kind, some i, none⟩ :: r₀ :: rs) :=
  ⟨fun hfinal => by simp at hfinal, Gen.sound_inside h.sound⟩

theorem enterBlock {ids : List NodeId} {id : ScopeId} (h : env.Placed r₀ rs breaks conts)
    (hfresh : Fresh (i :: ids) breaks conts) :
    (env.inside id).Placed ⟨id, .block, some i, none⟩ (r₀ :: rs) breaks conts :=
  h.enter rfl h.sound_plain rfl hfresh

theorem enterTarget {ids : List NodeId} {id : ScopeId} {kind : ScopeKind} (hkind : kind.takesExit)
    (h : env.Placed r₀ rs breaks conts) (hfresh : Fresh (i :: ids) breaks conts) :
    (env.inside id).Placed ⟨id, kind, some i, none⟩ (r₀ :: rs) (i :: breaks) conts := by
  refine h.push rfl h.sound_plain rfl (fun t ht => ?_)
    fun t ht => .inl ⟨ht, (ne_of_fresh hfresh).2 t ht⟩
  rcases List.mem_cons.mp ht with rfl | ht
  · exact .inr ⟨rfl, hkind⟩
  · exact .inl ⟨ht, (ne_of_fresh hfresh).1 t ht⟩

theorem enterLoop {ids : List NodeId} {id : ScopeId} (h : env.Placed r₀ rs breaks conts)
    (hfresh : Fresh (i :: ids) breaks conts) :
    (env.inside id).Placed ⟨id, .loop, some i, none⟩ (r₀ :: rs) (i :: breaks) (i :: conts) := by
  refine h.push rfl h.sound_plain rfl (fun t ht => ?_) fun t ht => ?_
  · rcases List.mem_cons.mp ht with rfl | ht
    · exact .inr ⟨rfl, rfl⟩
    · exact .inl ⟨ht, (ne_of_fresh hfresh).1 t ht⟩
  · rcases List.mem_cons.mp ht with rfl | ht
    · exact .inr ⟨rfl, rfl⟩
    · exact .inl ⟨ht, (ne_of_fresh hfresh).2 t ht⟩

end Env.Placed

/-! ### Statements -/

/-- Statements that are expressions leave the scopes alone. -/
theorem Stmt.calm_gens {ctx : Context} (hr : ctx.resolver.IsPlain) (ss : List Stmt)
    (hexec : ss.all Stmt.isExec) (hlet : Stmt.allLetFree ss) (env : Env) :
    Calm (Stmt.gens ctx ss env) := by
  induction ss with
  | nil =>
      rw [Stmt.gens]
      exact .pure
  | cons s ss ih =>
      simp only [List.all_cons, Bool.and_eq_true, Stmt.allLetFree] at hexec hlet
      cases s with
      | exec i e =>
          simp only [Stmt.letFree] at hlet
          rw [Stmt.gens, Stmt.code]
          exact (Gen.composed_statement i none env
            (Gen.composed_exec (e.isComposed_code hr env (.inl hlet.1)))).calm.bind
            fun _ => ih hexec.2 hlet.2
      | _ => simp [Stmt.isExec] at hexec

mutual

theorem Stmt.safe_code {ctx : Context} (hr : ctx.resolver.IsPlain) (s : Stmt) {env : Env}
    {r₀ : Ring} {rs : List Ring} {breaks conts : List NodeId} (hlet : s.letFree)
    (hsteps : s.execSteps) (hjumps : s.jumpsIn breaks conts) (hfresh : Fresh s.ids breaks conts)
    (hp : env.Placed r₀ rs breaks conts) : Gen.Safe (r₀ :: rs) ((s.code ctx).gen env) := by
  cases s with
  | block i ss =>
      simp only [Stmt.letFree, Stmt.execSteps, Stmt.jumpsIn, Stmt.ids] at hlet hsteps hjumps hfresh
      rw [Stmt.code]
      exact Gen.safe_statement i none env (Gen.safe_block hp.scope fun id _ =>
        Stmt.safe_gens hr ss hlet hsteps hjumps hfresh.tail (hp.enterBlock hfresh))
  | varDef i v init =>
      cases init with
      | none =>
          rw [Stmt.code]
          exact .of_calm (Gen.composed_statement i (some v) env
            (Gen.composed_varDef ctx i v (by simp))).calm
      | some e =>
          simp only [Stmt.letFree] at hlet
          rw [Stmt.code]
          have hinit : ∀ c ∈ some (e.code ctx env), c.IsComposed Resolver.IsPlain false := by
            rintro _ ⟨⟩
            exact e.isComposed_code hr env (.inl hlet)
          exact .of_calm (Gen.composed_statement i (some v) env
            (Gen.composed_varDef ctx i v hinit)).calm
  | skip i =>
      rw [Stmt.code]
      exact .of_calm (Gen.composed_statement i none env .pure).calm
  | doLoop i b c =>
      simp only [Stmt.letFree, Stmt.execSteps, Stmt.jumpsIn, Stmt.ids, Bool.and_eq_true]
        at hlet hsteps hjumps hfresh
      rw [Stmt.code]
      exact Gen.safe_statement i none env (Gen.safe_testLastLoop hp.scope
        (c.isComposed_code hr env (.inl hlet.2)) fun id _ =>
          b.safe_code hr hlet.1 hsteps hjumps hfresh.enterLoop (hp.enterLoop hfresh))
  | whileLoop i c b =>
      simp only [Stmt.letFree, Stmt.execSteps, Stmt.jumpsIn, Stmt.ids, Bool.and_eq_true]
        at hlet hsteps hjumps hfresh
      rw [Stmt.code]
      have htest : ∀ e ∈ some (c.code ctx env), e.IsComposed Resolver.IsPlain false := by
        rintro _ ⟨⟩
        exact c.isComposed_code hr env (.inl hlet.1)
      exact Gen.safe_statement i none env (Gen.safe_testFirstLoop hp.scope htest (fun _ => .pure)
        fun id _ => b.safe_code hr hlet.2 hsteps hjumps hfresh.enterLoop (hp.enterLoop hfresh))
  | forLoop i init test step b =>
      simp only [Stmt.execSteps, Stmt.jumpsIn, Stmt.ids, Bool.and_eq_true] at hsteps hjumps hfresh
      have hfresh' : Fresh (i.id :: b.ids) breaks conts :=
        hfresh.mono
          (((List.sublist_append_right _ _).trans (List.sublist_append_right _ _)).cons_cons _)
      have hloop {test : Option ExprCode} (htest : ∀ e ∈ test, e.IsComposed Resolver.IsPlain false)
          (hinit : Stmt.allLetFree init) (hstep : Stmt.allLetFree step) (hb : b.letFree) :
          Gen.Safe (r₀ :: rs) (Gen.forLoop i (Stmt.gens ctx init) test (Stmt.gens ctx step)
            (b.code ctx) env) :=
        .freeing (.bind (Stmt.safe_gens hr init hinit hsteps.1.1 hjumps.1.1 hfresh.tail.left hp)
          (Gen.safe_testFirstLoop hp.scope htest (Stmt.calm_gens hr step hsteps.1.2 hstep)
            fun id _ => b.safe_code hr hb hsteps.2 hjumps.2 hfresh'.enterLoop
              (hp.enterLoop hfresh')))
      cases test with
      | none =>
          simp only [Stmt.letFree, Bool.and_eq_true] at hlet
          rw [Stmt.code]
          exact Gen.safe_statement i none env (hloop (by simp) hlet.1.1 hlet.1.2 hlet.2)
      | some c =>
          simp only [Stmt.letFree, Bool.and_eq_true] at hlet
          rw [Stmt.code]
          refine Gen.safe_statement i none env (hloop ?_ hlet.1.1.1 hlet.1.2 hlet.2)
          rintro _ ⟨⟩
          exact c.isComposed_code hr env (.inl hlet.1.1.2)
  | foreach i v e b =>
      rw [Stmt.code]
      exact .of_calm (Gen.composed_statement i none env (.throw rfl)).calm
  | labelled i l b =>
      simp only [Stmt.letFree, Stmt.execSteps, Stmt.jumpsIn, Stmt.ids] at hlet hsteps hjumps hfresh
      rw [Stmt.code]
      exact Gen.safe_statement i none env (Gen.safe_labelled hp.scope fun id _ =>
        b.safe_code hr hlet hsteps hjumps hfresh.enterTarget (hp.enterTarget rfl hfresh))
  | switch i e cs =>
      simp only [Stmt.letFree, Stmt.execSteps, Stmt.jumpsIn, Stmt.ids, Bool.and_eq_true]
        at hlet hsteps hjumps hfresh
      rw [Stmt.code]
      exact Gen.safe_statement i none env
        (Gen.safe_switch hp.scope (e.isComposed_code hr env (.inl hlet.1))
        fun id _ => Case.safe_codes hr cs hlet.2 hsteps hjumps hfresh.enterTarget
          (hp.enterTarget rfl hfresh))
  | sync i e b =>
      simp only [Stmt.letFree, Stmt.execSteps, Stmt.jumpsIn, Stmt.ids, Bool.and_eq_true]
        at hlet hsteps hjumps hfresh
      rw [Stmt.code]
      refine Gen.safe_statement i none env (Gen.safe_sync hp.sound hp.scope
        (e.isComposed_code hr env (.inl hlet.1)) fun id reg _ =>
          b.safe_code hr hlet.2 hsteps hjumps hfresh.tail (hp.enter rfl ?_ rfl hfresh))
      exact ⟨fun hfinal => by simp at hfinal, Gen.sound_inside hp.sound⟩
  | tryCatch i b cs final =>
      have hparts (hb : b.letFree) (hcs : Catch.allLetFree cs) (hbsteps : b.execSteps)
          (hcsteps : Catch.allExecSteps cs) (hbjumps : b.jumpsIn breaks conts)
          (hcjumps : Catch.allJumpsIn cs breaks conts)
          (hfresh : Fresh (i.id :: (b.ids ++ Catch.allIds cs)) breaks conts) (inner : Env)
          (c : Cleanup)
          (hsound : inner.Sound (⟨inner.scope, .tryBlock, some i.id, some c⟩ :: r₀ :: rs))
          (code : StmtCode)
          (hcode : code = b.code ctx ∨ code ∈ (Catch.codes ctx cs).map CatchCode.body) :
          Gen.Safe (⟨inner.scope, .tryBlock, some i.id, some c⟩ :: r₀ :: rs) (code.gen inner) := by
        have hp' := hp.enter rfl hsound rfl hfresh
        rcases hcode with rfl | hcode
        · exact b.safe_code hr hb hbsteps hbjumps hfresh.tail.left hp'
        · exact Catch.safe_codes hr cs hcs hcsteps hcjumps hfresh.tail.right hp' code hcode
      cases final with
      | none =>
          simp only [Stmt.letFree, Stmt.execSteps, Stmt.jumpsIn, Stmt.ids, Bool.and_eq_true]
            at hlet hsteps hjumps hfresh
          rw [Stmt.code]
          exact Gen.safe_statement i none env (Gen.safe_tryCatch hp.scope rfl hp.sound (by simp)
            fun inner c _ hsound => hparts hlet.1 hlet.2 hsteps.1 hsteps.2 hjumps.1 hjumps.2 hfresh
              inner c hsound)
      | some f =>
          simp only [Stmt.letFree, Stmt.execSteps, Stmt.jumpsIn, Stmt.ids, Bool.and_eq_true]
            at hlet hsteps hjumps hfresh
          have hfresh' : Fresh (i.id :: (b.ids ++ Catch.allIds cs)) breaks conts :=
            hfresh.mono (((List.sublist_append_left _ _).append_left _).cons_cons _)
          rw [Stmt.code]
          refine Gen.safe_statement i none env (Gen.safe_tryCatch hp.scope rfl hp.sound ?_
            fun inner c _ hsound => hparts hlet.1.1 hlet.1.2 hsteps.1.1 hsteps.1.2 hjumps.1.1
              hjumps.1.2 hfresh' inner c hsound)
          rintro _ ⟨⟩
          exact f.safe_code hr hlet.2 hsteps.2 hjumps.2 hfresh.tail.right.right hp
  | ite i c t f =>
      cases f with
      | none =>
          simp only [Stmt.letFree, Stmt.execSteps, Stmt.jumpsIn, Stmt.ids, Bool.and_eq_true]
            at hlet hsteps hjumps hfresh
          rw [Stmt.code]
          exact Gen.safe_statement i none env (Gen.safe_ite (c.isComposed_code hr env (.inl hlet.1))
            (t.safe_code hr hlet.2 hsteps hjumps hfresh.tail hp) (by simp))
      | some f =>
          simp only [Stmt.letFree, Stmt.execSteps, Stmt.jumpsIn, Stmt.ids, Bool.and_eq_true]
            at hlet hsteps hjumps hfresh
          rw [Stmt.code]
          refine Gen.safe_statement i none env
            (Gen.safe_ite (c.isComposed_code hr env (.inl hlet.1.1))
            (t.safe_code hr hlet.1.2 hsteps.1 hjumps.1 hfresh.tail.left hp) ?_)
          rintro _ ⟨⟩
          exact f.safe_code hr hlet.2 hsteps.2 hjumps.2 hfresh.tail.right hp
  | exec i e =>
      simp only [Stmt.letFree] at hlet
      rw [Stmt.code]
      exact .of_calm (Gen.composed_statement i none env
        (Gen.composed_exec (e.isComposed_code hr env (.inl hlet)))).calm
  | breakTo i target =>
      simp only [Stmt.jumpsIn, List.contains_eq_mem, decide_eq_true_eq] at hjumps
      obtain ⟨r, hfind, hkind⟩ := hp.breaks target hjumps
      rw [Stmt.code]
      exact Gen.safe_statement i none env (Gen.safe_jumpTo hp.sound hp.scope hfind hkind)
  | continueTo i target =>
      simp only [Stmt.jumpsIn, List.contains_eq_mem, decide_eq_true_eq] at hjumps
      obtain ⟨r, hfind, hkind⟩ := hp.conts target hjumps
      rw [Stmt.code]
      exact Gen.safe_statement i none env (Gen.safe_jumpTo hp.sound hp.scope hfind hkind)
  | ret i value =>
      cases value with
      | none =>
          rw [Stmt.code]
          exact Gen.safe_statement i none env (Gen.safe_retVoid hp.sound hp.scope)
      | some e =>
          simp only [Stmt.letFree] at hlet
          rw [Stmt.code]
          exact Gen.safe_statement i none env
            (Gen.safe_retValue hp.sound hp.scope (e.isComposed_code hr env (.inl hlet)))
  | raise i e =>
      simp only [Stmt.letFree] at hlet
      rw [Stmt.code]
      exact .of_calm (Gen.composed_statement i none env
        (Gen.composed_raise (e.isComposed_code hr env (.inl hlet)))).calm
  | assert i c d =>
      rw [Stmt.code]
      exact .of_calm (Gen.composed_statement i none env (.throw rfl)).calm
  | localClass i n =>
      rw [Stmt.code]
      exact .of_calm (Gen.composed_statement i none env (.throw rfl)).calm

theorem Stmt.safe_gens {ctx : Context} (hr : ctx.resolver.IsPlain) (ss : List Stmt) {env : Env}
    {r₀ : Ring} {rs : List Ring} {breaks conts : List NodeId} (hlet : Stmt.allLetFree ss)
    (hsteps : Stmt.allExecSteps ss) (hjumps : Stmt.allJumpsIn ss breaks conts)
    (hfresh : Fresh (Stmt.allIds ss) breaks conts) (hp : env.Placed r₀ rs breaks conts) :
    Gen.Safe (r₀ :: rs) (Stmt.gens ctx ss env) := by
  cases ss with
  | nil =>
      rw [Stmt.gens]
      exact .of_calm .pure
  | cons s ss =>
      simp only [Stmt.allLetFree, Stmt.allExecSteps, Stmt.allJumpsIn, Stmt.allIds, Bool.and_eq_true]
        at hlet hsteps hjumps hfresh
      rw [Stmt.gens]
      exact (s.safe_code hr hlet.1 hsteps.1 hjumps.1 hfresh.left hp).bind
        (Stmt.safe_gens hr ss hlet.2 hsteps.2 hjumps.2 hfresh.right hp)

theorem Case.safe_codes {ctx : Context} (hr : ctx.resolver.IsPlain) (cs : List Case) {env : Env}
    {r₀ : Ring} {rs : List Ring} {breaks conts : List NodeId} (hlet : Case.allLetFree cs)
    (hsteps : Case.allExecSteps cs) (hjumps : Case.allJumpsIn cs breaks conts)
    (hfresh : Fresh (Case.allIds cs) breaks conts) (hp : env.Placed r₀ rs breaks conts) :
    ∀ c ∈ Case.codes ctx cs, Gen.Safe (r₀ :: rs) (c.gen env) := by
  cases cs with
  | nil =>
      rw [Case.codes]
      exact fun c hc => absurd hc List.not_mem_nil
  | cons c cs =>
      obtain ⟨span, label, ss⟩ := c
      have hlet' : Stmt.allLetFree ss ∧ Case.allLetFree cs := by
        cases label with
        | none => simpa only [Case.allLetFree, Bool.and_eq_true] using hlet
        | some e =>
            simp only [Case.allLetFree, Bool.and_eq_true] at hlet
            exact ⟨hlet.1.2, hlet.2⟩
      simp only [Case.allExecSteps, Case.allJumpsIn, Case.allIds, Bool.and_eq_true]
        at hsteps hjumps hfresh
      rw [Case.codes]
      intro c hc
      rcases List.mem_cons.mp hc with rfl | hc
      · exact Stmt.safe_gens hr ss hlet'.1 hsteps.1 hjumps.1 hfresh.left hp
      · exact Case.safe_codes hr cs hlet'.2 hsteps.2 hjumps.2 hfresh.right hp c hc

theorem Catch.safe_codes {ctx : Context} (hr : ctx.resolver.IsPlain) (cs : List Catch)
    {env : Env} {r₀ : Ring} {rs : List Ring} {breaks conts : List NodeId}
    (hlet : Catch.allLetFree cs) (hsteps : Catch.allExecSteps cs)
    (hjumps : Catch.allJumpsIn cs breaks conts) (hfresh : Fresh (Catch.allIds cs) breaks conts)
    (hp : env.Placed r₀ rs breaks conts) :
    ∀ code ∈ (Catch.codes ctx cs).map CatchCode.body, Gen.Safe (r₀ :: rs) (code.gen env) := by
  cases cs with
  | nil =>
      rw [Catch.codes]
      exact fun c hc => absurd hc List.not_mem_nil
  | cons c cs =>
      obtain ⟨span, v, b⟩ := c
      simp only [Catch.allLetFree, Catch.allExecSteps, Catch.allJumpsIn, Catch.allIds,
        Bool.and_eq_true] at hlet hsteps hjumps hfresh
      rw [Catch.codes]
      intro code hcode
      rcases List.mem_cons.mp hcode with rfl | hcode
      · exact b.safe_code hr hlet.1 hsteps.1 hjumps.1 hfresh.left hp
      · exact Catch.safe_codes hr cs hlet.2 hsteps.2 hjumps.2 hfresh.right hp code hcode

end

/-! ### Methods -/

/-- What is asked of a statement that stands alone. -/
structure Stmt.InOrder (s : Stmt) : Prop where
  letFree : s.letFree = true
  distinct : s.ids.Nodup
  execSteps : s.execSteps = true
  jumps : s.jumpsIn [] [] = true

namespace Stmt.InOrder

theorem fresh {s : Stmt} (h : s.InOrder) : Fresh s.ids [] [] :=
  ⟨h.distinct, fun _ _ => List.not_mem_nil, fun _ _ => List.not_mem_nil⟩

/-- The statements of a block stand alone as well. -/
theorem of_block {i : StmtInfo} {ss : List Stmt} (h : (Stmt.block i ss).InOrder) :
    ∀ s ∈ ss, s.InOrder := by
  obtain ⟨hlet, hids, hsteps, hjumps⟩ := h
  simp only [Stmt.letFree, Stmt.ids, Stmt.execSteps, Stmt.jumpsIn, List.nodup_cons]
    at hlet hids hsteps hjumps
  replace hids := hids.2
  induction ss with
  | nil => exact fun s hs => absurd hs List.not_mem_nil
  | cons s ss ih =>
      simp only [Stmt.allLetFree, Stmt.allIds, Stmt.allExecSteps, Stmt.allJumpsIn, Bool.and_eq_true,
        List.nodup_append] at hlet hids hsteps hjumps
      intro s' hs'
      rcases List.mem_cons.mp hs' with rfl | hs'
      · exact ⟨hlet.1, hids.1, hsteps.1, hjumps.1⟩
      · exact ih hlet.2 hsteps.2 hjumps.2 hids.2.1 s' hs'

end Stmt.InOrder

/-- What is asked of the body of a method: it stands alone, or it is a block of statements that
do. In the second case their identities need not differ from each other, as those of
initializers that were put together. -/
def Stmt.BodyInOrder (s : Stmt) : Prop :=
  s.InOrder ∨ ∃ i ss, s = .block i ss ∧ ∀ s ∈ ss, s.InOrder

namespace Gen

/-- The ring of the method. -/
def methodRing : Ring := ⟨Scopes.method, .method, none, none⟩

theorem placed_outermost : Env.outermost.Placed methodRing [] [] [] :=
  ⟨rfl, ⟨fun h => by simp [methodRing] at h, trivial⟩, fun _ h => absurd h List.not_mem_nil,
    fun _ h => absurd h List.not_mem_nil⟩

theorem safe_body {ctx : Context} (hr : ctx.resolver.IsPlain) {body : Stmt}
    (h : body.BodyInOrder) : Safe [methodRing] ((body.code ctx).gen Env.outermost) := by
  rcases h with h | ⟨i, ss, rfl, hss⟩
  · exact body.safe_code hr h.letFree h.execSteps h.jumps h.fresh placed_outermost
  · have hfresh : Fresh [i.id] [] [] :=
      ⟨by simp, fun _ _ => List.not_mem_nil, fun _ _ => List.not_mem_nil⟩
    rw [Stmt.code]
    refine safe_statement i none _ (safe_block rfl fun id _ => ?_)
    have hp : (Env.outermost.inside id).Placed ⟨id, .block, some i.id, none⟩ [methodRing] [] [] :=
      placed_outermost.enterBlock hfresh
    induction ss with
    | nil =>
        rw [Stmt.gens]
        exact .of_calm .pure
    | cons s ss ih =>
        have hs := hss s (List.mem_cons_self ..)
        rw [Stmt.gens]
        exact (s.safe_code hr hs.letFree hs.execSteps hs.jumps hs.fresh hp).bind
          (ih fun s' hs' => hss s' (List.mem_cons_of_mem s hs'))

theorem orderly_methodBody {ctx : Context} (hr : ctx.resolver.IsPlain) {body : Stmt}
    (h : body.BodyInOrder) {s : MethodState} (hs : s.scopes = {}) :
    Orderly (methodBody ctx body) s fun _ _ => True := by
  have hchain : ({} : Scopes).Chained [methodRing] :=
    ⟨Nat.zero_lt_one, rfl, rfl, rfl, rfl, by simp, trivial⟩
  have htight : ({} : Scopes).Tight [methodRing] := by
    intro r hr
    rw [List.mem_singleton.mp hr]
    rfl
  have hbody : Safe [methodRing] (do
      (body.code ctx).gen Env.outermost
      fallOff ctx body.span.lastLine) :=
    (safe_body hr h).bind (.of_calm (composed_fallOff ctx body.span.lastLine).calm)
  refine Orders.mono (σ := {}) (P := fun _ _ => True) ?_ (fun _ _ _ => trivial) s hs
  refine .calm_bind (composed_parameters ctx).calm fun _ =>
    .calm_bind Emit.composed_entry.inGen.calm fun _ => ?_
  refine (hbody.ranged _ hchain htight).bind fun _ σ _ => ?_
  exact (Orders.of_calm (Emit.composed_endScopes 0).inGen.calm).mono fun _ _ _ => trivial

end Gen

/-! ### Classes -/

/-- What is asked of a member of a class. -/
def Member.InOrder : Member → Prop
  | .method m => ∀ b ∈ m.body, b.InOrder
  | .field f => ∀ e ∈ f.init, e.letFree
  | .initBlock _ _ b => b.InOrder

namespace ClassDecl

theorem inOrder_assignment {f : FieldDecl} {e : Expr} (h : e.letFree) :
    (f.assignment e).InOrder := by
  refine ⟨?_, ?_, ?_, ?_⟩
  · simpa [FieldDecl.assignment, Stmt.letFree, Expr.letFree] using h
  · simp [FieldDecl.assignment, Stmt.ids]
  · simp [FieldDecl.assignment, Stmt.execSteps]
  · simp [FieldDecl.assignment, Stmt.jumpsIn]

theorem inOrder_classInit? {m : Member} (hm : m.InOrder) {s : Stmt} (hs : m.classInit? = some s) :
    s.InOrder := by
  unfold Member.classInit? at hs
  split at hs
  · cases hs
    exact hm
  · rename_i f
    split at hs
    · rename_i e he
      split at hs
      · cases hs
        exact inOrder_assignment (hm e he)
      · cases hs
    · cases hs
  · cases hs

theorem inOrder_instanceInit? {m : Member} (hm : m.InOrder) {s : Stmt}
    (hs : m.instanceInit? = some s) : s.InOrder := by
  unfold Member.instanceInit? at hs
  split at hs
  · cases hs
    exact hm
  · rename_i f
    split at hs
    · rename_i e he
      split at hs
      · cases hs
      · cases hs
        exact inOrder_assignment (hm e he)
    · cases hs
  · cases hs

variable {c : ClassDecl}

theorem inOrder_methods (hc : ∀ m ∈ c.members, m.InOrder) {m : MethodDecl} (hm : m ∈ c.methods)
    {b : Stmt} (hb : m.body = some b) : b.InOrder := by
  obtain ⟨member, hmember, heq⟩ := List.mem_filterMap.mp hm
  split at heq
  · cases heq
    exact hc _ hmember b hb
  · cases heq

theorem bodyInOrder_withInit {init : List Stmt} (hinit : ∀ s ∈ init, s.InOrder) {m : MethodDecl}
    (hm : ∀ b, m.body = some b → b.BodyInOrder) {b : Stmt} (hb : (m.withInit init).body = some b) :
    b.BodyInOrder := by
  unfold MethodDecl.withInit at hb
  split at hb
  · rename_i i s ss _ hbody
    cases hb
    have hss : ∀ s' ∈ s :: ss, s'.InOrder := by
      rcases hm _ hbody with h | ⟨i', ss', heq, h⟩
      · exact h.of_block
      · cases heq
        exact h
    refine .inr ⟨i, _, rfl, fun s' hs' => ?_⟩
    unfold Stmt.insertInit at hs'
    rcases List.mem_append.mp hs' with hs' | hs'
    · rcases List.mem_append.mp hs' with hs' | hs'
      · exact hss s' (List.mem_of_mem_take hs')
      · exact hinit s' hs'
    · exact hss s' (List.mem_of_mem_drop hs')
  · exact hm b hb

/-- The methods of a class whose members are in order have bodies in order, with all
initialization moved into them. -/
theorem bodyInOrder_completeMethods (hc : ∀ m ∈ c.members, m.InOrder) {m : MethodDecl}
    (hm : m ∈ c.completeMethods) {b : Stmt} (hb : m.body = some b) : b.BodyInOrder := by
  have hclass : ∀ s ∈ c.classInit, s.InOrder := by
    intro s hs
    obtain ⟨member, hmember, heq⟩ := List.mem_filterMap.mp hs
    exact inOrder_classInit? (hc _ hmember) heq
  have hinstance : ∀ s ∈ c.instanceInit, s.InOrder := by
    intro s hs
    obtain ⟨member, hmember, heq⟩ := List.mem_filterMap.mp hs
    exact inOrder_instanceInit? (hc _ hmember) heq
  have hmethods : ∀ m ∈ c.methods ++ (match c.classInit with
      | [] => []
      | s :: ss => [MethodDecl.ofClassInit s ss]), ∀ b, m.body = some b → b.BodyInOrder := by
    intro m hm b hb
    rcases List.mem_append.mp hm with hm | hm
    · exact .inl (inOrder_methods hc hm hb)
    · split at hm
      · exact absurd hm List.not_mem_nil
      · rename_i s ss hinit
        rw [List.mem_singleton.mp hm] at hb
        cases hb
        exact .inr ⟨_, _, rfl, hinit ▸ hclass⟩
  unfold completeMethods at hm
  dsimp only at hm
  split at hm
  · exact hmethods m hm b hb
  · obtain ⟨m', hm', rfl⟩ := List.mem_map.mp hm
    exact bodyInOrder_withInit hinstance (hmethods m' hm') hb

end ClassDecl

namespace ClassGen

/-- Wherever it is taken, the step fails with no disorder. -/
def NoDisorder {α : Type} (x : ClassGen α) : Prop := ∀ s, Orderly x s fun _ _ => True

namespace NoDisorder

variable {α β : Type} {x : ClassGen α} {f : α → ClassGen β}

theorem bind (hx : NoDisorder x) (hf : ∀ a, NoDisorder (f a)) : NoDisorder (x >>= f) :=
  fun s => (hx s).bind fun a s' _ => hf a s'

theorem pure {a : α} : NoDisorder (pure a) := fun _ => trivial

theorem get : NoDisorder (get : ClassGen ClassState) := fun _ => trivial

theorem reporting (g : Reports → Reports) : NoDisorder (ClassGen.reporting g) := fun _ => trivial

theorem ite {c : Prop} [Decidable c] {y : ClassGen α} (hx : NoDisorder x) (hy : NoDisorder y) :
    NoDisorder (if c then x else y) := by
  split
  · exact hx
  · exact hy

theorem forM {γ : Type} {xs : List γ} {f : γ → ClassGen PUnit} (h : ∀ a, NoDisorder (f a)) :
    NoDisorder (xs.forM f) := by
  induction xs with
  | nil => exact pure
  | cons a xs ih => exact (h a).bind fun _ => ih

theorem mapM {γ : Type} {xs : List γ} {f : γ → ClassGen α} (h : ∀ a ∈ xs, NoDisorder (f a)) :
    NoDisorder (xs.mapM f) := by
  induction xs with
  | nil => exact pure
  | cons a xs ih =>
      rw [List.mapM_cons]
      exact (h a (List.mem_cons_self ..)).bind fun _ =>
        (ih fun b hb => h b (List.mem_cons_of_mem a hb)).bind fun _ => pure

end NoDisorder

variable {ctx : Context}

theorem noDisorder_attempt (hr : ctx.resolver.IsPlain) {body : Stmt} (h : body.BodyInOrder)
    (wide subroutines : Bool) : NoDisorder (attempt ctx body wide subroutines) := by
  rintro ⟨pool, reports, appends⟩
  have hbody := Gen.orderly_methodBody hr h
    (s := { asm := ⟨.new wide ctx.config, pool⟩, subroutines, reports, appends }) rfl
  unfold Orderly attempt
  dsimp only
  cases hrun : Gen.methodBody ctx body
      { asm := ⟨.new wide ctx.config, pool⟩, subroutines, reports, appends } with
  | ok a s => trivial
  | error e s =>
      have he := hbody.of_error hrun
      cases e <;> trivial

theorem noDisorder_withinLimits (ctx : Context) (code : Code) :
    NoDisorder (withinLimits ctx code) :=
  .bind (.forM fun _ => .reporting _) fun _ => .pure

theorem noDisorder_wideBody (hr : ctx.resolver.IsPlain) {body : Stmt} (h : body.BodyInOrder)
    (subroutines : Bool) : NoDisorder (wideBody (attempt ctx) ctx body subroutines) := by
  refine (noDisorder_attempt hr h true subroutines).bind fun code => ?_
  cases code with
  | none => exact fun _ => rfl
  | some code => exact noDisorder_withinLimits ctx code

theorem noDisorder_body (hr : ctx.resolver.IsPlain) {b : Stmt} (h : b.BodyInOrder) :
    NoDisorder (body (attempt ctx) ctx b) := by
  refine (noDisorder_attempt hr h false false).bind fun code => ?_
  cases code with
  | none => exact noDisorder_wideBody hr h _
  | some code =>
      refine (noDisorder_withinLimits ctx code).bind fun code => ?_
      cases code with
      | none => exact .pure
      | some code => exact .ite (noDisorder_wideBody hr h _) .pure

theorem noDisorder_method {asked : Option Resolver} (hr : ctx.Asks asked)
    (h : ∀ b, ctx.method.body = some b → b.BodyInOrder) : NoDisorder (method ctx) := by
  refine NoDisorder.get.bind fun s => .bind (.forM fun _ => .reporting _) fun _ =>
    (NoDisorder.reporting _).bind fun _ => .ite ((NoDisorder.reporting _).bind fun _ => .pure) ?_
  cases hbody : ctx.method.body with
  | none => exact .pure
  | some b =>
      refine (noDisorder_body hr.plain (h b hbody)).bind fun code => ?_
      cases code with
      | none => exact .pure
      | some code => exact NoDisorder.get.bind fun _ => .pure

end ClassGen

/-- Generating a class whose members are in order never fails because scopes, jumps or gaps got
out of order: no scope is closed out of turn or with a jump left in it, no gap is opened twice or
left without an end, every jump finds its target, and the handler for every exception finds the
gap of its cleanup. -/
theorem Generator.generate_never_disorder (config : Config) (classes : Hierarchy)
    (log : Array Diagnostic) (appends : List (Ty × MethodSymbol)) (pool : Pool) (count : Nat)
    (c : ClassDecl) (hc : ∀ m ∈ c.members, m.InOrder) (e : Error)
    (he : (Generator.generate ⟨config, classes.resolver, log, appends, pool, count⟩ c).1 =
      .error e) :
    e.isDisorder = false := by
  have hclass : ClassGen.NoDisorder (ClassGen.classOutput config classes.resolver c) := by
    refine (ClassGen.NoDisorder.reporting _).bind fun _ =>
      .bind (.mapM fun m hm => ?_) fun methods =>
      ClassGen.NoDisorder.get.bind fun _ => .ite
        ((ClassGen.NoDisorder.reporting _).bind fun _ => ClassGen.NoDisorder.get.bind
          fun _ => .pure)
        (ClassGen.NoDisorder.get.bind fun _ => .pure)
    exact (ClassGen.noDisorder_method ⟨classes.resolver_isPlain, rfl⟩ fun b hb =>
      ClassDecl.bodyInOrder_completeMethods hc hm hb).bind fun _ => .pure
  unfold Generator.generate at he
  dsimp only at he
  split at he
  · cases he
  · rename_i hrun
    cases he
    exact (hclass _).of_error hrun

/-- A class with a method that leaves a loop, or goes on with it, from inside a try statement with
a `finally` block: `l: while (b) try { if (b) break l; continue; } finally { }`. -/
def ClassDecl.leavingLoop : ClassDecl :=
  let info (id : NodeId) : StmtInfo := ⟨id, default⟩
  let b : LocalVar := ⟨0, "b", .boolean, none⟩
  let test : Expr := .ofVar default b
  let choice : Stmt := .ite (info 6) test (.breakTo (info 7) 2) none
  let region : Stmt := .tryCatch (info 4) (.block (info 5) [choice, .continueTo (info 8) 3]) []
    (some (.block (info 9) []))
  let body : Stmt := .block (info 1) [.labelled (info 2) "l" (.whileLoop (info 3) test region)]
  ⟨default, "C", 0, [.method ⟨default, "m", Access.staticBit, ⟨[.boolean], .void⟩, [b], some body⟩]⟩

theorem Generator.generate_leavingLoop_never_disorder :
    (∀ m ∈ ClassDecl.leavingLoop.members, m.InOrder) ∧ ∀ e,
      (Generator.generate ⟨{}, Hierarchy.resolver {}, #[], [], {}, 0⟩ ClassDecl.leavingLoop).1 =
        .error e → e.isDisorder = false := by
  have hmembers : ∀ m ∈ ClassDecl.leavingLoop.members, m.InOrder := by
    intro m hm
    rw [List.mem_singleton.mp hm]
    rintro _ ⟨⟩
    exact ⟨by decide, by decide, by decide, by decide⟩
  exact ⟨hmembers, fun e he =>
    Generator.generate_never_disorder {} {} #[] [] {} 0 ClassDecl.leavingLoop hmembers e he⟩

end StackCode
