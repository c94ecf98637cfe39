import StackCode.Generate.Protect
import StackCode.Proofs.Enclosing

/-!
# Leaving scopes in order

An exit runs the cleanup of every scope on its way, opens a gap in each, and closes the
gaps once the jump is written. Here it is shown that this keeps the scopes in order,
provided that every `finally` block that has to be written on the way is itself safe in
the scopes around its own try statement (`Env.Sound`): its code stands there, while the
scopes further in are still open.
-/

namespace StackCode

/-- Inside the rings, the step keeps the scopes in order. -/
def Gen.Safe (rs : List Ring) (x : Gen Unit) : Prop :=
  ∀ σ : Scopes, σ.Chained rs → σ.Tight rs → x.Orders σ fun _ σ' => σ.Within (rs.map Ring.id) [] σ'

/-- The `finally` block of every ring is safe inside the rings around that one. -/
def Env.Sound (env : Env) : List Ring → Prop
  | [] => True
  | r :: rs =>
    (r.cleanup = some (.finallyBlock true) → Gen.Safe rs (env.finallyOf r.id)) ∧ env.Sound rs

/-! ### Gaps -/

/-- The scope with one more position among its gaps. -/
def Scope.addGap (pc : Nat) (s : Scope) : Scope :=
  { s with gaps := some ((s.gaps.getD #[]).push pc) }

theorem Scope.steady_of_gaps (s : Scope) (gaps : Option (Array Nat)) : s.Steady { s with gaps } :=
  ⟨rfl, rfl, rfl, rfl, fun _ => rfl, fun _ => rfl⟩

theorem Scope.hasOpenGap_addGap (s : Scope) (pc : Nat) :
    (s.addGap pc).hasOpenGap = !s.hasOpenGap := by
  simp only [hasOpenGap, addGap, Option.getD_some, Array.size_push]
  rcases Nat.mod_two_eq_zero_or_one (s.gaps.getD #[]).size with h | h <;>
    simp [Nat.add_mod, h]

/-- The positions of a scope without an open gap come in pairs. -/
theorem Scope.even_gaps {s : Scope} (h : s.hasOpenGap = false) :
    (s.gaps.getD #[]).toList.length % 2 = 0 := by
  have hsize : ¬ (s.gaps.getD #[]).size % 2 = 1 := by simpa [hasOpenGap] using h
  rw [Array.length_toList]
  omega

namespace Scopes

variable {σ : Scopes} {id : ScopeId}

theorem orderly_openGap (h : (σ.get id).hasOpenGap = false) (pc : Nat) :
    Orderly (Scoping.openGap id pc) σ fun _ σ' => σ' = σ.modifyScope id (Scope.addGap pc) := by
  refine Orderly.get_bind (.ite (fun hopen => ?_) fun _ => .modify rfl)
  rw [h] at hopen
  exact absurd hopen Bool.false_ne_true

theorem within_addGap {path : List ScopeId} (hid : id < σ.depth) (hpath : id ∈ path) (pc : Nat) :
    σ.Within path [id] (σ.modifyScope id (Scope.addGap pc)) :=
  .of_modifyScope hid hpath (Scope.steady_of_gaps _ _) fun h =>
    absurd (List.mem_singleton_self id) h

end Scopes

namespace Gen

theorem orders_openGap {σ : Scopes} {id : ScopeId} (h : (σ.get id).hasOpenGap = false) :
    (do Scoping.openGap id (← Emit.curPc) : Gen Unit).Orders σ fun _ σ' =>
      ∃ pc, σ' = σ.modifyScope id (Scope.addGap pc) :=
  .calm_bind Emit.composed_curPc.inGen.calm fun pc =>
    (Orders.onScopes (Scopes.orderly_openGap h pc)).mono fun _ _ hσ => ⟨pc, hσ⟩

/-- Closing the gap of a scope leaves none open there, and opens none elsewhere. -/
theorem orders_closeGap {σ : Scopes} {id : ScopeId} (hid : id < σ.depth) :
    (closeGap id).Orders σ fun _ σ' =>
      σ.Within [id] [id] σ' ∧ (σ'.get id).hasOpenGap = false := by
  refine .peekScope_bind (.ite (fun hopen => ?_) fun hopen =>
    .pure ⟨.refl _ _ σ, by simpa using hopen⟩)
  refine .calm_bind Emit.composed_curPc.inGen.calm fun pc => Orders.onScopes ?_
  -- an open gap means that there are positions, so the end is entered behind them
  obtain ⟨gaps, hgaps⟩ : ∃ gaps, (σ.get id).gaps = some gaps := by
    cases hgaps : (σ.get id).gaps with
    | none => simp [Scope.hasOpenGap, hgaps] at hopen
    | some gaps => exact ⟨gaps, rfl⟩
  have hclose : (if (σ.get id).hasOpenGap then
      { σ.get id with gaps := (σ.get id).gaps.map (·.push pc) } else σ.get id) =
      (σ.get id).addGap pc := by
    rw [if_pos hopen]
    simp [Scope.addGap, hgaps]
  refine .modify ⟨.of_modifyScope hid (List.mem_singleton_self id) ?_ ?_, ?_⟩
  · rw [hclose]
    exact Scope.steady_of_gaps _ _
  · exact fun h => absurd (List.mem_singleton_self id) h
  · rw [Scopes.get_modifyScope_self hid, hclose, Scope.hasOpenGap_addGap, hopen]
    rfl

/-- Closing gaps one after the other leaves none of them open. -/
theorem orders_closeGaps {σ : Scopes} {ids : List ScopeId} (hids : ∀ i ∈ ids, i < σ.depth) :
    (ids.forM closeGap).Orders σ fun _ σ' =>
      σ.Within ids ids σ' ∧ ∀ i, i ∈ ids ∨ (σ.get i).hasOpenGap = false →
        (σ'.get i).hasOpenGap = false := by
  induction ids generalizing σ with
  | nil => exact .pure ⟨.refl _ _ σ, by simp⟩
  | cons id ids ih =>
      refine (orders_closeGap (hids id (List.mem_cons_self ..))).bind fun _ σ₁ ⟨h₁, hclosed⟩ => ?_
      have hids₁ : ∀ i ∈ ids, i < σ₁.depth :=
        fun i hi => h₁.depth ▸ hids i (List.mem_cons_of_mem id hi)
      refine (ih hids₁).mono fun _ σ₂ ⟨h₂, hrest⟩ => ⟨?_, fun i hi => hrest i ?_⟩
      · exact (h₁.mono (by simp) (by simp)).trans (h₂.mono (by simp) (by simp))
      · by_cases hid : i = id
        · subst hid
          exact .inr hclosed
        · rcases hi with hi | hi
          · exact .inl (List.mem_of_ne_of_mem hid hi)
          · exact .inr ((h₁.gaps i (by simpa using hid)).trans hi)

/-! ### Running the cleanup -/

variable {env : Env} {r : Ring} {rs : List Ring} {σ : Scopes}

theorem orders_cleanup (hsound : env.Sound (r :: rs)) (hchain : σ.Chained (r :: rs))
    (htight : σ.Tight rs) :
    (cleanup env r.id).Orders σ fun _ σ' => σ.Within (rs.map Ring.id) [] σ' := by
  obtain ⟨-, -, -, hcleanup, -, -, hrest⟩ := hchain
  refine .peekScope_bind ?_
  rw [hcleanup]
  split
  · exact hsound.1 ‹_› σ hrest htight
  · refine .calm_bind (Calm.peek _) fun _ => .ite (fun _ => ?_) fun _ => .pure (.refl _ _ σ)
    exact (Orders.of_calm (composed_giveBack _).calm).mono fun _ _ hσ => hσ.symm ▸ .refl _ _ σ
  · exact .pure (.refl _ _ σ)

theorem id_not_mem (hchain : σ.Chained (r :: rs)) : r.id ∉ rs.map Ring.id := by
  intro hmem
  obtain ⟨r', hr', hid⟩ := List.mem_map.mp hmem
  exact absurd hid (Nat.ne_of_lt (hchain.2.2.2.2.2.1 r' hr'))

/-- What running the cleanup of a ring does: it stays within the rings, opens a gap at most
in this one, and does so if there is cleanup and control gets here. -/
structure Left (r : Ring) (rs : List Ring) (reached : Prop) (σ σ' : Scopes) : Prop where
  within : σ.Within ((r :: rs).map Ring.id) [r.id] σ'
  opened : reached → r.cleanup.isSome →
    ∃ pc, (σ'.get r.id).gaps = some (((σ.get r.id).gaps.getD #[]).push pc)

/-- Cleanup behind a gap that was just opened. -/
theorem Left.of_open {σ σ₁ σ₂ : Scopes} {pc : Nat} (hchain : σ.Chained (r :: rs))
    (h₁ : σ₁ = σ.modifyScope r.id (Scope.addGap pc)) (h₂ : σ₁.Within (rs.map Ring.id) [] σ₂) :
    Left r rs True σ σ₂ := by
  subst h₁
  have hid := hchain.1
  refine ⟨(Scopes.within_addGap hid (by simp) pc).trans (h₂.mono (by simp) (by simp)),
    fun _ _ => ⟨pc, ?_⟩⟩
  rw [h₂.off _ (id_not_mem hchain), Scopes.get_modifyScope_self hid]
  rfl

theorem Left.of_close {σ σ₁ σ₂ : Scopes} {pc : Nat} (hchain : σ.Chained (r :: rs))
    (h₁ : σ.Within ((r :: rs).map Ring.id) [] σ₁)
    (hgaps : (σ₁.get r.id).gaps = (σ.get r.id).gaps)
    (h₂ : σ₂ = σ₁.modifyScope r.id (Scope.addGap pc)) : Left r rs True σ σ₂ := by
  subst h₂
  have hid : r.id < σ₁.depth := h₁.depth ▸ hchain.1
  refine ⟨(h₁.mono (by simp) (by simp)).trans (Scopes.within_addGap hid (by simp) pc),
    fun _ _ => ⟨pc, ?_⟩⟩
  rw [Scopes.get_modifyScope_self hid, ← hgaps]
  rfl

theorem orderly_leave {s : MethodState} (hsound : env.Sound (r :: rs))
    (hchain : s.scopes.Chained (r :: rs)) (htight : s.scopes.Tight (r :: rs)) :
    Orderly (leave env r.id) s fun _ s' =>
      Left r rs (s.asm.code.reachable = true) s.scopes s'.scopes := by
  have hid := hchain.1
  have hclosed := htight r (List.mem_cons_self ..)
  refine .peek_bind (.ite (fun hreach => ?_) fun hreach => ?_)
  case refine_2 => exact .pure ⟨.refl _ _ _, fun h => absurd h hreach⟩
  refine (Orders.mono (P := fun _ σ' => Left r rs True s.scopes σ') ?_
    fun _ _ hl => ⟨hl.within, fun _ => hl.opened trivial⟩) s rfl
  refine .peekScope_bind ?_
  rw [hchain.2.2.2.1]
  split
  · rename_i hnone
    exact .pure ⟨.refl _ _ _, fun _ h => by simp [hnone] at h⟩
  · rename_i hasBody hbody
    refine .calm_bind .get fun s₀ => .ite (fun _ => ?_) fun _ => ?_
    · -- the subroutine is called, and the gap begins behind the call
      have hgap {σ₁ : Scopes} (h₁ : s.scopes.Within ((r :: rs).map Ring.id) [] σ₁)
          (hgaps : (σ₁.get r.id).gaps = (s.scopes.get r.id).gaps) :
          (do Scoping.openGap r.id (← Emit.curPc) : Gen Unit).Orders σ₁ fun _ σ' =>
            Left r rs True s.scopes σ' := by
        have hclosed₁ : (σ₁.get r.id).hasOpenGap = false := (h₁.gaps r.id (by simp)).trans hclosed
        exact (orders_openGap hclosed₁).mono fun _ σ₂ ⟨pc, h₂⟩ => .of_close hchain h₁ hgaps h₂
      refine .ite (fun hb => ?_) fun _ => hgap (.refl _ _ _) rfl
      refine .calm_bind (Calm.peek _) fun frame =>
        .calm_bind (Emit.composed_jump _).inGen.calm fun pc =>
        Orders.bind (P := fun _ σ₁ => σ₁ = s.scopes.modifyScope r.id fun sc =>
          { sc with cont := ⟨pc, frame.push .object⟩ :: sc.cont }) (.onScopes (.modify rfl))
        fun _ σ₁ hσ₁ => ?_
      subst hσ₁
      refine hgap (.of_modifyScope hid (by simp) ?_ fun _ => rfl) ?_
      · refine ⟨rfl, rfl, rfl, rfl, fun _ => rfl, fun hcont => ?_⟩
        have hfinal : (s.scopes.get r.id).cleanup = some (.finallyBlock true) := by
          rw [hchain.2.2.2.1, hbody, hb]
        simp [Scope.takesCont, hfinal] at hcont
      · rw [Scopes.get_modifyScope_self hid]
    · -- the block is written behind the beginning of the gap
      refine Orders.calm_bind Emit.composed_curPc.inGen.calm fun pc =>
        (Orders.onScopes (Scopes.orderly_openGap hclosed pc)).bind fun _ σ₁ h₁ => ?_
      have hwithin : s.scopes.Within ((r :: rs).map Ring.id) [r.id] σ₁ :=
        h₁ ▸ Scopes.within_addGap hid (by simp) pc
      have htight₁ : σ₁.Tight rs := hwithin.tight htight.tail fun r' hr' => by
        simpa using Nat.ne_of_lt (hchain.2.2.2.2.2.1 r' hr')
      exact (orders_cleanup hsound (hwithin.chained hchain) htight₁).mono fun _ σ₂ h₂ =>
        .of_open hchain h₁ h₂
  · -- the monitor is given back, and the gap begins behind that
    refine (orders_cleanup hsound hchain htight.tail).bind fun _ σ₁ h₁ => ?_
    have hclosed₁ : (σ₁.get r.id).hasOpenGap = false := (h₁.gaps r.id (by simp)).trans hclosed
    refine (orders_openGap hclosed₁).mono fun _ σ₂ ⟨pc, h₂⟩ => .of_close hchain
      (h₁.mono (by simp) (by simp)) ?_ h₂
    rw [h₁.off _ (id_not_mem hchain)]

theorem orders_leave (hsound : env.Sound (r :: rs)) (hchain : σ.Chained (r :: rs))
    (htight : σ.Tight (r :: rs)) :
    (leave env r.id).Orders σ fun _ σ' => σ.Within ((r :: rs).map Ring.id) [r.id] σ' := by
  intro s hs
  subst hs
  exact (orderly_leave hsound hchain htight).mono fun _ _ h => h.within

/-- The cleanup of the innermost rings, one after the other. -/
theorem orders_leaveAll {front rest : List Ring} (hsound : env.Sound (front ++ rest))
    (hchain : σ.Chained (front ++ rest)) (htight : σ.Tight (front ++ rest)) :
    ((front.map Ring.id).forM (leave env)).Orders σ fun _ σ' =>
      σ.Within ((front ++ rest).map Ring.id) (front.map Ring.id) σ' := by
  induction front generalizing σ with
  | nil => exact .pure (.refl _ _ σ)
  | cons r front ih =>
      refine (orders_leave hsound hchain htight).bind fun _ σ₁ h₁ => ?_
      have htight₁ : σ₁.Tight (front ++ rest) := h₁.tight htight.tail fun r' hr' => by
        simpa using Nat.ne_of_lt (hchain.2.2.2.2.2.1 r' hr')
      refine (ih hsound.2 (h₁.chained hchain).2.2.2.2.2.2 htight₁).mono fun _ σ₂ h₂ => ?_
      exact (h₁.mono (fun _ h => h) (by simp)).trans (h₂.mono (by simp) (by simp))

/-! ### Exits -/

/-- The rings that an exit leaves, innermost first. -/
theorem orders_unwind (hsound : env.Sound (r :: rs)) (hscope : env.scope = r.id)
    (hchain : σ.Chained (r :: rs)) (htight : σ.Tight (r :: rs)) (last : ScopeId) :
    (unwind env last).Orders σ fun _ σ' =>
      σ.Within ((r :: rs).map Ring.id) (σ.path r.id last) σ' := by
  obtain ⟨front, rest, hsplit, hpath⟩ := hchain.path last
  refine .get_bind fun s hs => ?_
  rw [hs, hscope, hpath]
  rw [hsplit] at hsound hchain htight ⊢
  exact orders_leaveAll hsound hchain htight

/-- Once the gaps are closed, an exit has stayed within the rings. -/
theorem orders_closeGapsTo {σ₀ : Scopes} (hscope : env.scope = r.id)
    (hchain : σ₀.Chained (r :: rs)) (htight : σ₀.Tight (r :: rs)) {last : ScopeId}
    (h : σ₀.Within ((r :: rs).map Ring.id) (σ₀.path r.id last) σ) :
    (closeGaps env last).Orders σ fun _ σ' => σ₀.Within ((r :: rs).map Ring.id) [] σ' := by
  obtain ⟨front, rest, hsplit, hpath⟩ := hchain.path last
  have hsame : σ.path r.id last = front.map Ring.id := by
    rw [← hpath]
    unfold Scopes.path
    rw [hchain.ancestors, (h.chained hchain).ancestors]
  have hmem : ∀ q ∈ front, q ∈ r :: rs := fun q hq => hsplit ▸ List.mem_append_left rest hq
  refine .get_bind fun s hs => ?_
  rw [hs, hscope, hsame]
  rw [hpath] at h
  have hids : ∀ i ∈ front.map Ring.id, i < σ.depth := by
    rintro i hi
    obtain ⟨q, hq, rfl⟩ := List.mem_map.mp hi
    exact h.depth ▸ hchain.id_lt q (hmem q hq)
  refine (orders_closeGaps hids).mono fun _ σ' ⟨h', hclosed⟩ => ?_
  have hsub : front.map Ring.id ⊆ (r :: rs).map Ring.id := by
    rintro i hi
    obtain ⟨q, hq, rfl⟩ := List.mem_map.mp hi
    exact List.mem_map_of_mem (hmem q hq)
  refine (h.trans (h'.mono hsub fun _ h => h)).close fun i hi => ⟨?_, hclosed i (.inl hi)⟩
  obtain ⟨q, hq, rfl⟩ := List.mem_map.mp hi
  exact htight q (hmem q hq)

end Gen

end StackCode
