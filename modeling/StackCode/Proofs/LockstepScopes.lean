import StackCode.Generate.Protect
import StackCode.Proofs.Enclosing
import StackCode.Proofs.LockstepExpressions

/-!
# Scopes in lockstep

The scopes of the two runs are the same but for positions: they are nested alike, hold the
same branches, and have as many gaps. Steps on the scopes therefore take the same way in both
runs, and what is taken out of a scope corresponds.
-/

namespace StackCode

theorem Scopes.modifyScope_of_depth_le {σ : Scopes} {id : ScopeId} (h : σ.depth ≤ id)
    (f : Scope → Scope) :
    σ.modifyScope id f = σ := by
  have hid : σ.table.size ≤ id := h
  simp only [modifyScope]
  congr 1
  refine Array.ext (by simp) fun i h₁ h₂ => ?_
  rw [Array.getElem_modify, if_neg (by omega)]

/-! ### Corresponding scopes -/

namespace Scope.Tied

variable {segs : List Seg} {a b : Scope} {m n : Multiset ℕ} {c d : Chain}

theorem gaps_size (h : a.Tied segs b m) : (a.gaps.getD #[]).size = (b.gaps.getD #[]).size := by
  have hgaps := h.gaps
  cases ha : a.gaps <;> cases hb : b.gaps <;> rw [ha, hb] at hgaps <;> simp at hgaps ⊢
  exact hgaps

theorem hasOpenGap_eq (h : a.Tied segs b m) : a.hasOpenGap = b.hasOpenGap := by
  rw [hasOpenGap, hasOpenGap, h.gaps_size]

theorem hasFinally_eq (h : a.Tied segs b m) : a.hasFinally = b.hasFinally := by
  rw [hasFinally, hasFinally, h.kind, h.cleanup]

/-- Other branches go behind the construct. -/
theorem setExit (h : a.Tied segs b m) (hch : Chains segs c d n) :
    ∃ m' ≤ m + n, Scope.Tied segs { a with exit := c } { b with exit := d } m' := by
  obtain ⟨exits, conts, -, hcont, rfl⟩ := h.chains
  refine ⟨n + conts, ?_, { h with chains := ⟨n, conts, hch, hcont, rfl⟩ }⟩
  rw [add_comm n]
  exact Multiset.add_le_add_right (Multiset.le_add_left _ _)

/-- Other branches go to the next round. -/
theorem setCont (h : a.Tied segs b m) (hch : Chains segs c d n) :
    ∃ m' ≤ m + n, Scope.Tied segs { a with cont := c } { b with cont := d } m' := by
  obtain ⟨exits, conts, hexit, -, rfl⟩ := h.chains
  exact ⟨exits + n, Multiset.add_le_add_right (Multiset.le_add_right _ _),
    { h with chains := ⟨exits, n, hexit, hch, rfl⟩ }⟩

end Scope.Tied

namespace Scopes.Tied

variable {segs : List Seg} {S T : Scopes} {m : Multiset ℕ}

theorem get (h : S.Tied segs T m) (id : ScopeId) : ∃ n, (S.get id).Tied segs (T.get id) n := by
  obtain ⟨own, hown, -⟩ := h.held
  exact ⟨own id, hown id⟩

/-- One scope apart from the others: what it holds, and what becomes of the whole if it is
changed. -/
theorem modify (h : S.Tied segs T m) (id : ScopeId) : ∃ n rest, m = n + rest ∧
    (S.get id).Tied segs (T.get id) n ∧ ∀ {f f' : Scope → Scope} {n' : Multiset ℕ},
      Scope.Tied segs (f (S.get id)) (f' (T.get id)) n' → ∃ n'' ≤ n',
        (S.modifyScope id f).Tied segs (T.modifyScope id f') (n'' + rest) := by
  obtain ⟨own, hown, rfl⟩ := h.held
  rcases Nat.lt_or_ge id S.depth with hid | hid
  · refine ⟨own id, ∑ i ∈ (Finset.range S.depth).erase id, own i, ?_, hown id,
      fun {f f' n'} hf => ?_⟩
    · rw [Finset.add_sum_erase _ _ (Finset.mem_range.mpr hid)]
    · refine ⟨n', le_rfl, ?_, Function.update own id n', fun i => ?_, ?_⟩
      · rw [depth_modifyScope, depth_modifyScope, h.depth]
      · by_cases hi : i = id
        · subst hi
          rw [Function.update_self, get_modifyScope_self hid, get_modifyScope_self (h.depth ▸ hid)]
          exact hf
        · rw [Function.update_of_ne hi, get_modifyScope_of_ne _ hi, get_modifyScope_of_ne _ hi]
          exact hown i
      · rw [depth_modifyScope, ← Finset.add_sum_erase _ _ (Finset.mem_range.mpr hid),
          Function.update_self]
        refine congrArg (n' + ·) (Finset.sum_congr rfl fun i hi => ?_)
        rw [Function.update_of_ne (Finset.ne_of_mem_erase hi)]
  · have hzero := Scopes.own_eq_zero hown hid
    refine ⟨0, _, (zero_add _).symm, hzero ▸ hown id, fun {f f' n'} _ =>
      ⟨0, Multiset.zero_le _, ?_⟩⟩
    rw [modifyScope_of_depth_le hid, modifyScope_of_depth_le (h.depth ▸ hid), zero_add]
    exact h

/-- A scope is opened in both runs. -/
theorem push (h : S.Tied segs T m) (kind : ScopeKind) (tree : Option NodeId) (parent : ScopeId) :
    (S.push kind tree parent).2.Tied segs (T.push kind tree parent).2 m := by
  obtain ⟨own, hown, rfl⟩ := h.held
  have hlast : own S.depth = 0 := Scopes.own_eq_zero hown (Nat.le_refl _)
  refine ⟨by rw [depth_push, depth_push, h.depth], own, fun i => ?_, ?_⟩
  · rcases Nat.lt_trichotomy i S.depth with hlt | rfl | hgt
    · rw [get_push_of_lt hlt, get_push_of_lt (h.depth ▸ hlt)]
      exact hown i
    · have hnew := get_push_self T kind tree parent
      rw [← h.depth] at hnew
      rw [get_push_self, hnew, hlast]
      exact ⟨rfl, rfl, rfl, rfl, rfl, 0, 0, .nil, .nil, rfl⟩
    · have hbare := hown i
      rw [get_of_depth_le (Nat.le_of_lt hgt), get_of_depth_le (h.depth ▸ Nat.le_of_lt hgt)] at hbare
      rw [get_of_depth_le (by rw [depth_push]; exact hgt),
        get_of_depth_le (by rw [depth_push, ← h.depth]; exact hgt)]
      exact hbare
  · rw [depth_push, Finset.sum_range_succ, hlast, add_zero]

/-- The innermost scope is closed in both runs, and what it still holds is given up. -/
theorem pop (h : S.Tied segs T m) : ∃ m' ≤ m,
    Scopes.Tied segs { S with table := S.table.pop } { T with table := T.table.pop } m' := by
  obtain ⟨own, hown, rfl⟩ := h.held
  have hdepth (S : Scopes) : ({ S with table := S.table.pop } : Scopes).depth = S.depth - 1 :=
    Array.size_pop
  have hle : ∑ i ∈ Finset.range (S.depth - 1), own i ≤ ∑ i ∈ Finset.range S.depth, own i :=
    Finset.sum_le_sum_of_subset (Finset.range_mono (Nat.sub_le _ _))
  refine ⟨_, hle, by rw [hdepth, hdepth, h.depth], fun i => if i + 1 < S.depth then own i else 0,
    fun i => ?_, ?_⟩
  · dsimp only
    split
    · rename_i hi
      rw [get_pop_of_lt hi, get_pop_of_lt (h.depth ▸ hi)]
      exact hown i
    · rename_i hi
      have hge : S.depth - 1 ≤ i := Nat.sub_le_of_le_add (Nat.le_of_not_lt hi)
      rw [get_of_depth_le (by rw [hdepth]; exact hge),
        get_of_depth_le (by rw [hdepth, ← h.depth]; exact hge)]
      exact ⟨rfl, rfl, rfl, rfl, rfl, 0, 0, .nil, .nil, rfl⟩
  · rw [hdepth]
    refine Finset.sum_congr rfl fun i hi => ?_
    have hlt : i + 1 < S.depth := Nat.add_lt_of_lt_sub (Finset.mem_range.mp hi)
    exact (if_pos hlt).symm

/-! ### The way outward -/

theorem outward_eq (h : S.Tied segs T m) (n : ℕ) (id : ScopeId) :
    S.outward n id = T.outward n id := by
  induction n generalizing id with
  | zero => rfl
  | succ n ih =>
      obtain ⟨k, hid⟩ := h.get id
      rw [outward, outward, hid.parent]
      cases (T.get id).parent with
      | none => rfl
      | some p => exact congrArg (id :: ·) (ih p)

theorem ancestors_eq (h : S.Tied segs T m) (id : ScopeId) : S.ancestors id = T.ancestors id := by
  rw [ancestors, ancestors, h.depth, h.outward_eq]

theorem path_eq (h : S.Tied segs T m) (id last : ScopeId) : S.path id last = T.path id last := by
  rw [path, path, h.ancestors_eq]

theorem findTarget_eq (h : S.Tied segs T m) (id : ScopeId) (target : NodeId) :
    S.findTarget id target = T.findTarget id target := by
  have htree : (fun i => (S.get i).tree == some target) = fun i =>
      (T.get i).tree == some target := by
    funext i
    obtain ⟨k, hi⟩ := h.get i
    rw [hi.tree]
  rw [findTarget, findTarget, h.ancestors_eq, htree]

theorem hasFinally_eq (h : S.Tied segs T m) (id : ScopeId) : S.hasFinally id = T.hasFinally id := by
  have hfinally : (fun i => (S.get i).hasFinally) = fun i => (T.get i).hasFinally := by
    funext i
    obtain ⟨k, hi⟩ := h.get i
    rw [hi.hasFinally_eq]
  rw [hasFinally, hasFinally, h.ancestors_eq, hfinally]

end Scopes.Tied

/-! ### Steps on the scopes -/

namespace Runs

variable {α : Type} {limited : Bool} {g : Ghost} {m : Multiset ℕ}

/-- A step on the scopes leaves the codes as they are. -/
theorem of_scopes {x y : Scoping α} {Q : Ghost → Multiset ℕ → α → α → Prop}
    (h : ∀ S T held, S.Tied g.segs T held → ∀ a S' b T', x S = .ok a S' → y T = .ok b T' →
      ∃ held' m', S'.Tied g.segs T' held' ∧ held' + m' ≤ held + m ∧ Q g m' a b) :
    Runs limited g m x y Q := by
  intro F s t hst a S' b T' hx hy _
  obtain ⟨waiting, held, hwaiting, hheld, howned⟩ := hst.links
  obtain ⟨held', m', hheld', hle, hq⟩ := h _ _ held hheld a S' b T' hx hy
  refine ⟨g, m', { hst with links := ⟨waiting, held', hwaiting, hheld', ?_⟩ }, .refl _ _, hq⟩
  refine howned.mono ?_ (Nat.le_refl _)
  calc waiting + held' + (m' + F) = waiting + (held' + m') + F := by ac_rfl
    _ ≤ waiting + (held + m) + F := Multiset.add_le_add_right (Multiset.add_le_add_left hle)
    _ = waiting + held + (m + F) := by ac_rfl

end Runs

namespace Scoping

variable {limited : Bool} {g : Ghost} {m : Multiset ℕ} {c d : Chain}

/-- A scope is changed in both runs. -/
theorem modifyScope_runs {f f' : Scope → Scope} (id : ScopeId)
    (h : ∀ a b n, Scope.Tied g.segs a b n → ∃ n' ≤ n + m, (f a).Tied g.segs (f' b) n') :
    Runs limited g m (modifyScope id f) (modifyScope id f') (Plain fun g' _ _ => g' = g) := by
  refine .of_scopes fun S T held hST _ S' _ T' hx hy => ?_
  cases hx
  cases hy
  obtain ⟨n, rest, rfl, hid, hmodify⟩ := hST.modify id
  obtain ⟨n', hle, hf⟩ := h _ _ n hid
  obtain ⟨n'', hle', htied⟩ := hmodify hf
  refine ⟨n'' + rest, 0, htied, ?_, rfl, rfl⟩
  rw [add_zero, add_right_comm]
  exact Multiset.add_le_add_right (hle'.trans hle)

/-- A chain is taken out of a scope in both runs. -/
theorem take_runs {x : Scoping Chain} (f : Scope → Chain) (f' : Scope → Scope) (id : ScopeId)
    (hx : ∀ S, x S = .ok (f (S.get id)) (S.modifyScope id f'))
    (h : ∀ segs a b n, Scope.Tied segs a b n → ∃ k n', Chains segs (f a) (f b) k ∧
      (f' a).Tied segs (f' b) n' ∧ n = k + n') :
    Runs limited g 0 x x fun g' m' a b => g' = g ∧ Chains g'.segs a b m' := by
  refine .of_scopes fun S T held hST a S' b T' hxS hxT => ?_
  rw [hx] at hxS hxT
  cases hxS
  cases hxT
  obtain ⟨n, rest, rfl, hid, hmodify⟩ := hST.modify id
  obtain ⟨k, n', hch, hf, rfl⟩ := h _ _ _ n hid
  obtain ⟨n'', hle, htied⟩ := hmodify hf
  refine ⟨n'' + rest, k, htied, ?_, rfl, hch⟩
  calc n'' + rest + k ≤ n' + rest + k := Multiset.add_le_add_right (Multiset.add_le_add_right hle)
    _ = k + n' + rest + 0 := by rw [add_zero]; ac_rfl

theorem takeExit_runs (id : ScopeId) : Runs limited g 0 (takeExit id) (takeExit id)
    fun g' m' a b => g' = g ∧ Chains g'.segs a b m' := by
  refine take_runs (·.exit) (fun s => { s with exit := [] }) id (fun _ => rfl) ?_
  intro segs a b n h
  obtain ⟨exits, conts, hexit, hcont, rfl⟩ := h.chains
  exact ⟨exits, conts, hexit, { h with chains := ⟨0, conts, .nil, hcont, (zero_add _).symm⟩ }, rfl⟩

theorem takeCont_runs (id : ScopeId) : Runs limited g 0 (takeCont id) (takeCont id)
    fun g' m' a b => g' = g ∧ Chains g'.segs a b m' := by
  refine take_runs (·.cont) (fun s => { s with cont := [] }) id (fun _ => rfl) ?_
  intro segs a b n h
  obtain ⟨exits, conts, hexit, hcont, rfl⟩ := h.chains
  exact ⟨conts, exits, hcont, { h with chains := ⟨exits, 0, hexit, .nil, (add_zero _).symm⟩ },
    add_comm _ _⟩

theorem addExit_runs (id : ScopeId) (h : Chains g.segs c d m) :
    Runs limited g m (addExit id c) (addExit id d) (Plain fun g' _ _ => g' = g) := by
  refine (takeExit_runs id).value ?_
  rintro _ n old old' hg ⟨rfl, hold⟩
  cases hmerge : c.merge old with
  | error e => exact .throw
  | ok exit =>
  cases hmerge' : d.merge old' with
  | error e => exact .throw_right
  | ok exit' =>
      refine .cast (modifyScope_runs id fun a b k hab => hab.setExit (h.merge hold hmerge hmerge'))
        (add_comm _ _)

theorem addCont_runs (id : ScopeId) (h : Chains g.segs c d m) :
    Runs limited g m (addCont id c) (addCont id d) (Plain fun g' _ _ => g' = g) := by
  refine (takeCont_runs id).value ?_
  rintro _ n old old' hg ⟨rfl, hold⟩
  cases hmerge : c.merge old with
  | error e => exact .throw
  | ok cont =>
  cases hmerge' : d.merge old' with
  | error e => exact .throw_right
  | ok cont' =>
      refine .cast (modifyScope_runs id fun a b k hab => hab.setCont (h.merge hold hmerge hmerge'))
        (add_comm _ _)

/-! ### Opening and closing -/

theorem openScope_runs (kind : ScopeKind) (tree : Option NodeId) (parent : ScopeId) :
    Runs limited g 0 (openScope kind tree parent) (openScope kind tree parent)
      (Plain fun g' a b => g' = g ∧ a = b) := by
  refine .of_scopes fun S T held hST a S' b T' hx hy => ?_
  cases hx
  cases hy
  exact ⟨held, 0, hST.push kind tree parent, le_rfl, rfl, rfl, hST.depth⟩

theorem closeScope_runs (id : ScopeId) : Runs limited g 0 (closeScope id) (closeScope id)
    (Plain fun g' _ _ => g' = g) := by
  refine .of_scopes fun S T held hST _ S' _ T' hx hy => ?_
  have hclose {S S' : Scopes} {u : Unit} (h : closeScope id S = .ok u S') :
      S' = { S with table := S.table.pop } := by
    obtain ⟨_, _, hget, h⟩ := EStateM.bind_eq_ok.mp h
    cases hget
    dsimp only at h
    split at h
    · cases h
    · obtain ⟨⟨⟩, S₁, hmod, h⟩ := EStateM.bind_eq_ok.mp h
      cases hmod
      split at h <;> cases h
      rfl
  obtain rfl := hclose hx
  obtain rfl := hclose hy
  obtain ⟨m', hle, hpop⟩ := hST.pop
  exact ⟨m', 0, hpop, Multiset.add_le_add_right hle, rfl, rfl⟩

/-! ### Gaps -/

/-- The gaps of a scope change in both runs, and there are as many of them afterwards. -/
theorem setGaps_runs (x y : Option (Array ℕ) → Option (Array ℕ)) (id : ScopeId)
    (h : ∀ p q, p.map Array.size = q.map Array.size → (x p).map Array.size = (y q).map Array.size) :
    Runs limited g 0 (modifyScope id fun s => { s with gaps := x s.gaps })
      (modifyScope id fun s => { s with gaps := y s.gaps }) (Plain fun g' _ _ => g' = g) :=
  modifyScope_runs id fun _ _ n hab =>
    ⟨n, Multiset.le_add_right _ _, { hab with gaps := h _ _ hab.gaps }⟩

theorem openGap_runs (id : ScopeId) (pc pc' : ℕ) : Runs limited g 0 (openGap id pc) (openGap id pc')
    (Plain fun g' _ _ => g' = g) := by
  refine .get_bind fun F s t hst => ?_
  obtain ⟨waiting, held, -, hheld, -⟩ := hst.links
  obtain ⟨n, hid⟩ := hheld.get id
  refine .ite (iff_of_eq (congrArg (· = true) hid.hasOpenGap_eq))
    (fun _ => Fails.runs Fails.throw.bind) ?_
  intro _
  refine setGaps_runs (fun p => some ((p.getD #[]).push pc))
    (fun q => some ((q.getD #[]).push pc')) id ?_
  intro p q hpq
  cases p <;> cases q <;> simp at hpq ⊢
  exact hpq

theorem closeGap_runs (id : ScopeId) (pc pc' : ℕ) :
    Runs limited g 0 (closeGap id pc) (closeGap id pc')
    (Plain fun g' _ _ => g' = g) := by
  refine modifyScope_runs id fun a b n h => ⟨n, Multiset.le_add_right _ _, ?_⟩
  rw [h.hasOpenGap_eq]
  split
  · refine { h with gaps := ?_ }
    have hgaps := h.gaps
    cases ha : a.gaps <;> cases hb : b.gaps <;> rw [ha, hb] at hgaps <;> simp at hgaps ⊢
    exact hgaps
  · exact h

/-- Positions are taken out of the gaps in both runs. -/
theorem leaveGaps_runs (id : ScopeId) {xs ys : List ℕ} (h : xs.length = ys.length) :
    Runs limited g 0 (modifyScope id fun s => { s with gaps := s.gaps.map fun _ => xs.toArray })
      (modifyScope id fun s => { s with gaps := s.gaps.map fun _ => ys.toArray })
      (Plain fun g' _ _ => g' = g) := by
  refine setGaps_runs (Option.map fun _ => xs.toArray) (Option.map fun _ => ys.toArray) id
    fun p q hpq => ?_
  cases p <;> cases q <;> simp at hpq ⊢
  exact h

theorem takeGap_runs (id : ScopeId) : Runs limited g 0 (takeGap id) (takeGap id)
    (Plain fun g' a b => g' = g ∧ a.isSome = b.isSome) := by
  refine .get_bind fun F s t hst => ?_
  obtain ⟨waiting, held, -, hheld, -⟩ := hst.links
  obtain ⟨n, hid⟩ := hheld.get id
  have hlen : (((Part.get s : Scopes).get id).gaps.getD #[]).toList.length =
      (((Part.get t : Scopes).get id).gaps.getD #[]).toList.length := hid.gaps_size
  refine (leaveGaps_runs id (by rw [List.length_tail, List.length_tail, hlen])).step
    fun g' _ _ _ hg => ?_
  refine .pure ⟨rfl, hg, ?_⟩
  generalize (((Part.get s : Scopes).get id).gaps.getD #[]).toList = xs at hlen
  generalize (((Part.get t : Scopes).get id).gaps.getD #[]).toList = ys at hlen
  cases xs <;> cases ys <;> simp at hlen ⊢

theorem takeGaps_runs (id : ScopeId) : Runs limited g 0 (takeGaps id) (takeGaps id)
    (Plain fun g' a b => g' = g ∧ a.length = b.length) := by
  refine .get_bind fun F s t hst => ?_
  obtain ⟨waiting, held, -, hheld, -⟩ := hst.links
  obtain ⟨n, hid⟩ := hheld.get id
  have hnone : ([] : List ℕ).length = ([] : List ℕ).length := rfl
  exact (leaveGaps_runs id hnone).step fun g' _ _ _ hg => .pure ⟨rfl, hg, hid.gaps_size⟩

end Scoping

end StackCode
