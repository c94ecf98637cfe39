import StackCode.Proofs.ComposedStatements
import StackCode.Proofs.LockstepScopes

/-!
# Leaving protected regions in lockstep

A statement may be left over the cleanup of the regions around it: a `finally` block is
written once more or called as a subroutine, and monitors are given back. Both runs do so at
the same places, so that the same gaps are opened and closed.

From here on steps may hold a whole statement. Such a step counts on the wide code to stay
short, and what follows it must not shorten that code: `Marches` keeps both facts together.
-/

set_option maxRecDepth 4000

namespace StackCode

/-! ### Steps that hold a statement -/

/-- The step is composed of elementary ones, and its two runs stay in step. -/
structure Marches (x : Gen Unit) : Prop where
  composed : Composed (fun _ => True) true x
  runs : ∀ g, Runs true g 0 x x (Plain fun _ _ _ => True)

/-- Steps that come to others at the states at hand. -/
theorem Runs.congr_at {α : Type} {limited : Bool} {g : Ghost} {m : Multiset ℕ} {x y x' y' : Gen α}
    {Q : Ghost → Multiset ℕ → α → α → Prop} (h : Runs limited g m x' y' Q)
    (hsame : ∀ F s t, Tied g (m + F) s t → x s = x' s ∧ y t = y' t) : Runs limited g m x y Q := by
  intro F s t hst a p b q hx hy hlim
  obtain ⟨hxx, hyy⟩ := hsame F s t hst
  exact h F s t hst a p b q (hxx.symm.trans hx) (hyy.symm.trans hy) hlim

/-- Branches that a step is left with may be forgotten. -/
theorem Runs.drop {α : Type} {limited : Bool} {g : Ghost} {m : Multiset ℕ} {x y : Gen α}
    {P : Ghost → α → α → Prop} (h : Runs limited g m x y fun g' _ a b => P g' a b) :
    Runs limited g m x y (Plain P) := by
  intro F s t hst a p b q hx hy hlim
  obtain ⟨g', m', hst', hg, hp⟩ := h F s t hst a p b q hx hy hlim
  exact ⟨g', 0, hst'.mono (by simp), hg, rfl, hp⟩

/-- The wide code is short from the start if it stays so. -/
theorem Runs.whenShort {α : Type} {g : Ghost} {m : Multiset ℕ} {x y : Gen α}
    {Q : Ghost → Multiset ℕ → α → α → Prop} (hcomp : Composed (fun _ => True) true y)
    (h : extent true g.segs < 0xFFFFFFFF → Runs true g m x y Q) : Runs true g m x y Q := by
  intro F s t hst a p b q hx hy hlim
  obtain ⟨hfirm, hshort⟩ := hlim rfl
  have hgrow := (hcomp.firm hy ⟨hst.code.wide, hst.code.firm hfirm⟩).2
  have hsize : t.asm.code.pc = extent true g.segs := hst.code.far.size
  exact h (by omega) F s t hst a p b q hx hy hlim

/-- A step that holds a statement, and then another one. -/
theorem Runs.along {α β : Type} {g : Ghost} {m : Multiset ℕ} {x y : Gen β} {f f' : β → Gen α}
    {P : Ghost → β → β → Prop} {R : Ghost → Multiset ℕ → α → α → Prop}
    (hx : Runs true g 0 x y (Plain P)) (hy : Composed (fun _ => True) true y)
    (hcomp : ∀ b, Composed (fun _ => True) true (f' b))
    (hf : ∀ g' a b, Grown m g g' → P g' a b → Runs true g' m (f a) (f' b) R) :
    Runs true g m (x >>= f) (y >>= f') R := by
  refine .cast (.seq hx (fun _ => ⟨hy, hcomp⟩) ?_) (zero_add m).symm
  rintro g' _ a b hg ⟨rfl, hp⟩
  rw [zero_add]
  exact hf g' a b hg hp

namespace Marches

variable {α : Type} {x : Gen Unit} {f f' : Unit → Gen α}

theorem of_straight (hx : Straight x) (hcomp : Composed (fun _ => True) true x) : Marches x :=
  ⟨hcomp, fun g => (hx g).relax.mono fun _ _ _ _ h => ⟨h.1, trivial⟩⟩

theorem pure : Marches (Pure.pure ()) := of_straight .pure .pure

theorem step {g : Ghost} {m : Multiset ℕ} {R : Ghost → Multiset ℕ → α → α → Prop} (hx : Marches x)
    (hcomp : ∀ u, Composed (fun _ => True) true (f' u))
    (hf : ∀ g' u, Grown m g g' → Runs true g' m (f u) (f' u) R) :
    Runs true g m (x >>= f) (x >>= f') R :=
  .along (hx.runs g) hx.composed hcomp fun g' u _ hg _ => hf g' u hg

theorem bind {f : Unit → Gen Unit} (hx : Marches x) (hf : ∀ u, Marches (f u)) : Marches (x >>= f) :=
  ⟨hx.composed.bind fun u => (hf u).composed, fun _ =>
    hx.step (fun u => (hf u).composed) fun g' u _ => (hf u).runs g'⟩

theorem forM {γ : Type} {xs : List γ} {f : γ → Gen Unit} (h : ∀ a ∈ xs, Marches (f a)) :
    Marches (xs.forM f) := by
  induction xs with
  | nil => exact .pure
  | cons a xs ih =>
      exact (h a (List.mem_cons_self ..)).bind fun _ => ih fun b hb =>
        h b (List.mem_cons_of_mem a hb)

end Marches

/-- Every `finally` block around a place keeps in step. -/
def Env.InStep (env : Env) : Prop := ∀ id, Marches (env.finallyOf id)

namespace Env.InStep

variable {env : Env}

theorem outermost : Env.outermost.InStep := fun _ => .pure

theorem inside (h : env.InStep) (id : ScopeId) : (env.inside id).InStep := h

theorem insideTry (h : env.InStep) (id : ScopeId) {block : Gen Unit} (hb : Marches block) :
    (env.insideTry id block).InStep := by
  intro i
  show Marches (if i = id then block else env.finallyOf i)
  split
  · exact hb
  · exact h i

theorem isComposed (h : env.InStep) : env.IsComposed fun _ => True := fun id => (h id).composed

end Env.InStep

/-! ### Changes of state -/

namespace Emit

open Code

variable {limited : Bool} {g : Ghost}

/-- Where the code ends with an instruction that stays, the state may change. -/
theorem frame_runs (f : Frame → Frame) (hg : g.Solid) (hf : ∀ a b, a.Level b → (f a).Level (f b))
    (hdepth : ∀ a, (f a).depth = a.depth) :
    Runs limited g 0 (modify fun c => { c with frame := f c.frame } : Emit Unit)
      (modify fun c => { c with frame := f c.frame }) (Plain fun g' _ _ => g' = g) := by
  refine change_runs (fun c d h => ?_) (fun _ => ⟨rfl, rfl⟩) fun _ => rfl
  exact { h with
    frame := hf _ _ h.frame
    depth := by
      show (f c.frame).depth ≤ c.maxStack
      rw [hdepth]
      exact h.depth
    loose := fun _ k frame htrail => absurd htrail (hg.1 k frame) }

/-- Control stops, behind an instruction if it was going on. -/
theorem kill_runs (hg : g.live = true → g.Solid) : Runs limited g 0 (modify (·.kill) : Emit Unit)
    (modify (·.kill)) (Plain fun _ _ _ => True) := by
  refine .of_code fun O c d waiting h hlive hch howned _ c' _ d' hc hd => ?_
  cases hc
  cases hd
  refine ⟨{ g with live := !c.pending.isEmpty }, waiting, 0, ?_, rfl, hch, howned,
    .of_segs rfl (Nat.le_refl _) id, rfl, trivial⟩
  exact { h with
    alive := rfl
    dry := fun _ => by
      cases halive : c.alive with
      | false => exact h.dry halive
      | true =>
          refine (hg ?_).2
          rw [← hlive, Code.reachable, halive, Bool.true_or]
    loose := fun hfixed k frame htrail => ⟨rfl, (h.loose hfixed k frame htrail).2⟩ }

/-- A call of a subroutine; the state in which it is entered may be chosen. -/
theorem jsr_runs (frame : Frame) (hg : g.live = true) : Runs limited g 0 (jump .jsr) (jump .jsr)
    fun g' m p p' => ∃ k, m = {k} ∧ ∀ f f' : Frame, f.Level frame → f'.Level frame →
      LinkPair g'.segs k ⟨p, f⟩ ⟨p', f'⟩ := by
  refine .of_code fun O c d waiting h hlive hch howned p c' p' d' hc hd => ?_
  rw [zero_add] at howned
  obtain ⟨segs, hlen, habreast, hgrown, halive, hdepth, hpend, hpend', hlink⟩ :=
    jump_tied (.inr (.inr rfl)) h hlive hg hch howned hc hd frame
  refine ⟨_, 0, {segs.length}, { habreast with depth := hdepth, loose := ?_ }, ?_, ?_, ?_, hgrown,
    _, rfl, hlink⟩
  · intro _ k f htrail
    cases (htrail.eq_of_concat (by simp)).2
  · rw [Code.reachable, hpend, halive]
    exact Bool.or_false _
  · rw [hpend, hpend']
    exact .nil
  · rw [zero_add, Multiset.singleton_add]
    simpa [Ghost.wrote] using
      (howned.mono (Multiset.le_add_left _ _) (Nat.le_of_eq hlen.symm)).cons

end Emit

/-! ### Cleanup -/

namespace Gen

variable {limited : Bool} {g : Ghost} {env : Env}

/-- A monitor is held no longer, where the code ends with an instruction that stays. -/
theorem unlock_runs (reg : UInt16) (hg : g.Solid) : Runs limited g 0 (do
    let frame ← (← peek (·.frame)).unlock reg
    touch fun c => { c with frame } : Gen Unit) (do
    let frame ← (← peek (·.frame)).unlock reg
    touch fun c => { c with frame }) (Plain fun g' _ _ => g' = g) := by
  have hok {s s' : MethodState} {u : Unit} (h : (do
      let frame ← (← peek (·.frame)).unlock reg
      touch fun c => { c with frame } : Gen Unit) s = .ok u s') :
      touch (fun c => { c with frame := { c.frame with locks := c.frame.locks.erase reg } }) s =
        .ok u s' := by
    obtain ⟨frame, s₁, hpeek, h⟩ := EStateM.bind_eq_ok.mp h
    cases hpeek
    unfold Frame.unlock at h
    split at h
    · exact h
    · cases h
  intro F s t hst a p b q hx hy hlim
  refine (Emit.frame_runs (fun f => { f with locks := f.locks.erase reg }) hg (fun a b h => ?_)
    fun _ => rfl).touch F s t hst a p b q (hok hx) (hok hy) hlim
  exact ⟨h.depth, congrArg (List.erase · reg) h.locks⟩

theorem giveBack_runs (reg : UInt16) (hg : g.live = true) : Runs limited g 0 (do
    let _ ← (Item.var .object reg).load
    Emit.plain .monitorexit
    let frame ← (← peek (·.frame)).unlock reg
    touch fun c => { c with frame } : Gen Unit) (do
    let _ ← (Item.var .object reg).load
    Emit.plain .monitorexit
    let frame ← (← peek (·.frame)).unlock reg
    touch fun c => { c with frame }) (Plain fun _ _ _ => True) := by
  refine (Item.straight_load (i := .var .object reg) rfl).asmInGen.step fun g₁ _ _ hlive => ?_
  refine (Emit.plain_runs (by decide) (by decide)).inGen.step fun g₂ _ _ _ ⟨_, hsolid⟩ => ?_
  exact (unlock_runs reg (hsolid (hlive hg))).mono fun _ _ _ _ h => ⟨h.1, trivial⟩

theorem marches_cleanup (henv : env.InStep) (id : ScopeId) : Marches (cleanup env id) := by
  refine ⟨composed_cleanup henv.isComposed id, fun g => ?_⟩
  refine .peekScope_bind id (fun _ _ _ _ h => h.cleanup) fun cleanup => ?_
  split
  · exact (henv id).runs g
  · exact .reachable_bind (.ite .rfl (giveBack_runs _) fun _ => .pure ⟨rfl, trivial⟩)
  · exact .pure ⟨rfl, trivial⟩

/-- A gap begins where the code has come to. -/
theorem openGap_runs (id : ScopeId) : Runs limited g 0
    (do Scoping.openGap id (← Emit.curPc) : Gen Unit) (do Scoping.openGap id (← Emit.curPc))
    (Plain fun _ _ _ => True) :=
  Emit.curPc_runs.inGen.step fun _ pc pc' _ _ =>
    (Scoping.openGap_runs id pc pc').scopesInGen.mono fun _ _ _ _ h => ⟨h.1, trivial⟩

/-- A subroutine is called and the call noted with the scope. -/
theorem call_runs {h h' : PUnit → Gen Unit} (id : ScopeId) (hg : g.live = true)
    (hh : ∀ g' u v, Runs limited g' 0 (h u) (h' v) (Plain fun _ _ _ => True)) : Runs limited g 0 (do
      let frame ← peek (·.frame)
      let pc ← Emit.jump .jsr
      let r ← Scoping.modifyScope id fun s => { s with cont := ⟨pc, frame.push .object⟩ :: s.cont }
      h r : Gen Unit) (do
      let frame ← peek (·.frame)
      let pc ← Emit.jump .jsr
      let r ← Scoping.modifyScope id fun s => { s with cont := ⟨pc, frame.push .object⟩ :: s.cont }
      h' r) (Plain fun _ _ _ => True) := by
  refine .peek_bind fun F s t hst => ?_
  have hframe := hst.code.frame.push .object
  refine (Emit.jsr_runs (s.asm.code.frame.push .object) hg).inGen.next ?_
  rintro g₁ _ p p' ⟨k, rfl, hlink⟩
  refine .spendAll (Scoping.modifyScope_runs id fun a b n htied => ?_).scopesInGen
    fun g₂ u v _ => hh g₂ u v
  obtain ⟨exits, conts, hexit, hcont, rfl⟩ := htied.chains
  refine ⟨exits + (k ::ₘ conts), ?_, { htied with chains := ⟨exits, _, hexit, ?_, rfl⟩ }⟩
  · rw [← Multiset.singleton_add, add_comm {k} conts, add_assoc]
  · exact .cons (hlink _ _ (.refl _) hframe.symm) hcont

theorem marches_leave (henv : env.InStep) (id : ScopeId) : Marches (leave env id) := by
  have hcleanup := marches_cleanup henv id
  have hskip (g : Ghost) : Runs true g 0 (pure () : Gen Unit) (pure ()) (Plain fun _ _ _ => True) :=
    .pure ⟨rfl, trivial⟩
  refine ⟨composed_leave henv.isComposed id, fun g => .reachable_bind (.ite .rfl (fun hg => ?_) ?_)⟩
  · refine .peekScope_bind id (fun _ _ _ _ h => h.cleanup) fun cleanup => ?_
    split
    · exact hskip g
    · refine .get_bind fun F s t hst => .ite ?_ (fun _ => ?_) fun _ => ?_
      · show s.subroutines = true ↔ t.subroutines = true
        rw [hst.subroutines]
      · exact .ite .rfl (fun _ => call_runs id hg fun _ _ _ => openGap_runs id) fun _ =>
          openGap_runs id
      · refine Emit.curPc_runs.inGen.step fun g₁ pc pc' _ _ => ?_
        exact (Scoping.openGap_runs id pc pc').scopesInGen.step fun g₂ _ _ _ _ => hcleanup.runs g₂
    · exact hcleanup.step (fun _ => composed_openGap id) fun g₁ _ _ => openGap_runs id
  · exact fun _ => hskip g

theorem straight_pathTo (env : Env) (last : ScopeId) : Straight (pathTo env last) := by
  refine fun g => .get_bind fun F s t hst => .pure ⟨rfl, ?_, id⟩
  obtain ⟨_, _, _, hscopes, _⟩ := hst.links
  exact hscopes.path_eq env.scope last

theorem marches_unwind (henv : env.InStep) (last : ScopeId) : Marches (unwind env last) :=
  ⟨composed_unwind henv.isComposed last, fun _ => (straight_pathTo env last).step fun g' _ _ _ =>
    (Marches.forM fun id _ => marches_leave henv id).runs g'⟩

theorem straight_closeGap (id : ScopeId) : Straight (closeGap id) := by
  refine fun g => .peekScope_bind id (fun _ _ _ _ h => h.hasOpenGap_eq) fun _ =>
    .ite .rfl (fun _ => ?_) fun _ => .pure ⟨rfl, rfl, fun hg => hg⟩
  refine Emit.curPc_runs.inGen.step fun g₁ pc pc' _ ⟨hlive, _⟩ => ?_
  refine (Scoping.closeGap_runs id pc pc').scopesInGen.mono ?_
  rintro _ _ _ _ ⟨rfl, rfl⟩
  exact ⟨rfl, rfl, hlive.trans⟩

theorem straight_closeGaps (env : Env) (last : ScopeId) : Straight (closeGaps env last) :=
  (straight_pathTo env last).bind fun _ => .forM fun id _ => straight_closeGap id

end Gen

end StackCode
