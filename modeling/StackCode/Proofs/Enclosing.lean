import StackCode.Generate.Cleanup
import StackCode.Proofs.Orderly

/-!
# The scopes around a statement

While a statement is generated, the scopes around it form a chain from the innermost
one out to the method. `Ring` is one link of that chain as far as it never changes, and
`Scopes.Chained` says that a list of rings is the chain from its head outward. The
positions of the rings strictly decrease, so going outward meets each ring once, and a
jump finds the innermost ring of its target.

`Scopes.Within` says what a statement may do to the scopes: nothing to a scope that does
not enclose it, and to one that does only what the kind of the scope allows. A scope of
which a jump cannot be the target gets no jumps behind it, and one that is neither a loop
nor a region with a `finally` block gets no jumps to its next round.
-/

namespace StackCode

/-! ### The table of scopes -/

namespace Scopes

theorem depth_push (σ : Scopes) (kind : ScopeKind) (tree : Option NodeId) (parent : ScopeId) :
    (σ.push kind tree parent).2.depth = σ.depth + 1 := by
  simp [push, depth]

theorem get_push_self (σ : Scopes) (kind : ScopeKind) (tree : Option NodeId) (parent : ScopeId) :
    (σ.push kind tree parent).2.get σ.depth = { kind, tree, parent := some parent } := by
  simp [push, get, depth]

theorem get_push_of_lt {σ : Scopes} {i : ScopeId} (h : i < σ.depth) (kind : ScopeKind)
    (tree : Option NodeId) (parent : ScopeId) : (σ.push kind tree parent).2.get i = σ.get i := by
  have hi : i < σ.table.size := h
  simp [push, get, Array.getElem?_push, Nat.ne_of_lt hi]

theorem get_of_depth_le {σ : Scopes} {i : ScopeId} (h : σ.depth ≤ i) :
    σ.get i = { kind := .method } := by
  have hi : σ.table.size ≤ i := h
  simp [get, hi]

@[simp] theorem depth_modifyScope (σ : Scopes) (id : ScopeId) (f : Scope → Scope) :
    (σ.modifyScope id f).depth = σ.depth := by
  simp [modifyScope, depth]

theorem get_modifyScope_self {σ : Scopes} {id : ScopeId} (h : id < σ.depth) (f : Scope → Scope) :
    (σ.modifyScope id f).get id = f (σ.get id) := by
  have hid : id < σ.table.size := h
  simp [modifyScope, get, Array.getElem_modify, hid]

theorem get_modifyScope_of_ne (σ : Scopes) {id i : ScopeId} (h : i ≠ id) (f : Scope → Scope) :
    (σ.modifyScope id f).get i = σ.get i := by
  simp [modifyScope, get, Array.getElem?_modify, h.symm]

theorem modifyScope_modifyScope (σ : Scopes) (id : ScopeId) (f g : Scope → Scope) :
    (σ.modifyScope id f).modifyScope id g = σ.modifyScope id (g ∘ f) := by
  simp only [modifyScope, mk.injEq]
  refine Array.ext (by simp) fun i h₁ h₂ => ?_
  simp only [Array.getElem_modify]
  split <;> rfl

theorem get_pop_of_lt {σ : Scopes} {i : ScopeId} (h : i + 1 < σ.depth) :
    ({ σ with table := σ.table.pop } : Scopes).get i = σ.get i := by
  have hi : i < σ.table.size - 1 := Nat.lt_sub_of_add_lt h
  have hi' : i < σ.table.size := Nat.lt_of_succ_lt h
  simp [get, hi, hi']

end Scopes

/-! ### Rings -/

/-- A scope around a place, with what stays the same while it is open. -/
structure Ring where
  id : ScopeId
  kind : ScopeKind
  tree : Option NodeId
  cleanup : Option Cleanup

namespace Scopes

/-- The rings are the chain of scopes from the first of them outward. -/
def Chained (σ : Scopes) : List Ring → Prop
  | [] => True
  | r :: rs =>
    r.id < σ.depth ∧ (σ.get r.id).kind = r.kind ∧ (σ.get r.id).tree = r.tree ∧
      (σ.get r.id).cleanup = r.cleanup ∧ (σ.get r.id).parent = rs.head?.map Ring.id ∧
      (∀ r' ∈ rs, r'.id < r.id) ∧ σ.Chained rs

/-- None of the rings has a gap that waits for its end. -/
def Tight (σ : Scopes) (rs : List Ring) : Prop :=
  ∀ r ∈ rs, (σ.get r.id).hasOpenGap = false

variable {σ : Scopes} {r : Ring} {rs : List Ring}

theorem Tight.tail (h : σ.Tight (r :: rs)) : σ.Tight rs :=
  fun r' hr' => h r' (List.mem_cons_of_mem r hr')

theorem Chained.id_lt (h : σ.Chained rs) : ∀ r ∈ rs, r.id < σ.depth := by
  induction rs with
  | nil => exact fun r hr => absurd hr List.not_mem_nil
  | cons r rs ih =>
      obtain ⟨hid, -, -, -, -, -, hrest⟩ := h
      rintro r' hr'
      rcases List.mem_cons.mp hr' with rfl | hr'
      · exact hid
      · exact ih hrest r' hr'

/-- What a ring says of its scope. -/
theorem Chained.fits (h : σ.Chained rs) {r : Ring} (hr : r ∈ rs) :
    (σ.get r.id).kind = r.kind ∧ (σ.get r.id).tree = r.tree ∧ (σ.get r.id).cleanup = r.cleanup := by
  induction rs with
  | nil => exact absurd hr List.not_mem_nil
  | cons r' rs ih =>
      obtain ⟨-, hkind, htree, hcleanup, -, -, hrest⟩ := h
      rcases List.mem_cons.mp hr with rfl | hr
      · exact ⟨hkind, htree, hcleanup⟩
      · exact ih hrest hr

/-- Positions strictly decrease on the way outward, so there are at most as many rings as
positions below a bound on the first. -/
theorem Chained.length_le {n : Nat} (h : σ.Chained rs) (hn : ∀ r ∈ rs, r.id < n) :
    rs.length ≤ n := by
  induction rs generalizing n with
  | nil => exact Nat.zero_le n
  | cons r rs ih =>
      obtain ⟨-, -, -, -, -, hlt, hrest⟩ := h
      have hlen : rs.length ≤ r.id := ih hrest hlt
      have hr : r.id < n := hn r (List.mem_cons_self ..)
      exact Nat.succ_le_of_lt (Nat.lt_of_le_of_lt hlen hr)

theorem Chained.outward (h : σ.Chained (r :: rs)) {n : Nat} (hn : (r :: rs).length ≤ n) :
    σ.outward n r.id = (r :: rs).map Ring.id := by
  induction rs generalizing r n with
  | nil =>
      obtain ⟨n, rfl⟩ : ∃ m, n = m + 1 := Nat.exists_eq_add_of_le' hn
      obtain ⟨-, -, -, -, hparent, -, -⟩ := h
      simp [Scopes.outward, hparent]
  | cons r' rs ih =>
      obtain ⟨n, rfl⟩ : ∃ m, n = m + 1 := Nat.exists_eq_add_of_le' (Nat.le_of_add_left_le hn)
      obtain ⟨-, -, -, -, hparent, -, hrest⟩ := h
      have hout := ih hrest (Nat.le_of_succ_le_succ hn)
      rw [Scopes.outward, hparent]
      simp [hout]

/-- Going outward meets the rings, each once. -/
theorem Chained.ancestors (h : σ.Chained (r :: rs)) :
    σ.ancestors r.id = (r :: rs).map Ring.id :=
  h.outward (Nat.le_succ_of_le (h.length_le h.id_lt))

/-- A jump finds the innermost ring of its target. -/
theorem Chained.findTarget (h : σ.Chained (r :: rs)) {target : NodeId} {r' : Ring}
    (hfind : (r :: rs).find? (·.tree == some target) = some r') :
    σ.findTarget r.id target = .ok r'.id := by
  have htree (path : List Ring) (hpath : ∀ q ∈ path, (σ.get q.id).tree = q.tree) :
      (path.map Ring.id).find? (fun i => (σ.get i).tree == some target) =
        (path.find? (·.tree == some target)).map Ring.id := by
    induction path with
    | nil => rfl
    | cons q path ih =>
        have hq := hpath q (List.mem_cons_self ..)
        have hrest := ih fun q' hq' => hpath q' (List.mem_cons_of_mem q hq')
        simp only [List.map_cons, List.find?_cons, hq, hrest]
        split <;> rfl
  unfold Scopes.findTarget
  rw [h.ancestors, htree _ fun q hq => (h.fits hq).2.1, hfind]
  rfl

/-- The way out to any position runs through the innermost rings. -/
theorem Chained.path (h : σ.Chained (r :: rs)) (last : ScopeId) :
    ∃ front rest, r :: rs = front ++ rest ∧ σ.path r.id last = front.map Ring.id := by
  have hprefix : σ.path r.id last <+: (r :: rs).map Ring.id := by
    unfold Scopes.path
    dsimp only
    rw [h.ancestors]
    generalize (r :: rs).map Ring.id = ids
    split
    · rename_i hmem
      induction ids with
      | nil => exact absurd hmem List.not_mem_nil
      | cons i ids ih =>
          by_cases hi : i = last
          · subst hi
            simp
          · have hmem' : last ∈ ids := by
              rcases List.mem_cons.mp hmem with hmem | hmem
              · exact absurd hmem.symm hi
              · exact hmem
            rw [List.takeWhile_cons_of_pos (by simp [hi])]
            exact List.prefix_cons_inj i |>.mpr (ih hmem')
    · rw [List.append_nil]
      exact List.takeWhile_prefix _
  obtain ⟨rest, hrest⟩ := hprefix
  obtain ⟨front, rest', hsplit, hfront, -⟩ := List.append_eq_map_iff.mp hrest
  exact ⟨front, rest', hsplit, hfront.symm⟩

end Scopes

/-! ### What a statement may do to the scopes -/

/-- Whether jumps may lead behind a construct of this kind. -/
def ScopeKind.takesExit : ScopeKind → Bool
  | labelled | loop | switch => true
  | method | block | tryBlock | monitor => false

namespace Scope

/-- Whether jumps may lead behind the construct. -/
def takesExit (s : Scope) : Bool := s.kind.takesExit

/-- Whether jumps may lead to the next round, or calls to the subroutine. -/
def takesCont (s : Scope) : Bool := s.kind == .loop || s.cleanup == some (.finallyBlock true)

/-- Of a scope only gaps and the jumps that it may take have changed. -/
structure Steady (s s' : Scope) : Prop where
  kind : s'.kind = s.kind
  tree : s'.tree = s.tree
  parent : s'.parent = s.parent
  cleanup : s'.cleanup = s.cleanup
  exit : s.takesExit = false → s'.exit = s.exit
  cont : s.takesCont = false → s'.cont = s.cont

namespace Steady

theorem refl (s : Scope) : s.Steady s := ⟨rfl, rfl, rfl, rfl, fun _ => rfl, fun _ => rfl⟩

theorem takesExit {s s' : Scope} (h : s.Steady s') : s'.takesExit = s.takesExit :=
  congrArg ScopeKind.takesExit h.kind

theorem takesCont {s s' : Scope} (h : s.Steady s') : s'.takesCont = s.takesCont := by
  rw [Scope.takesCont, h.kind, h.cleanup, ← Scope.takesCont]

theorem trans {s s' s'' : Scope} (h : s.Steady s') (h' : s'.Steady s'') : s.Steady s'' where
  kind := h'.kind.trans h.kind
  tree := h'.tree.trans h.tree
  parent := h'.parent.trans h.parent
  cleanup := h'.cleanup.trans h.cleanup
  exit ht := (h'.exit (h.takesExit.trans ht)).trans (h.exit ht)
  cont ht := (h'.cont (h.takesCont.trans ht)).trans (h.cont ht)

end Steady

end Scope

namespace Scopes

/-- Only scopes of `path` have changed, and those steadily; a gap may have been opened or
closed only in scopes of `loose`. -/
structure Within (path loose : List ScopeId) (σ σ' : Scopes) : Prop where
  depth : σ'.depth = σ.depth
  steady : ∀ i, (σ.get i).Steady (σ'.get i)
  off : ∀ i, i ∉ path → σ'.get i = σ.get i
  gaps : ∀ i, i ∉ loose → (σ'.get i).hasOpenGap = (σ.get i).hasOpenGap

namespace Within

variable {path loose : List ScopeId} {σ σ' σ'' : Scopes}

theorem refl (path loose : List ScopeId) (σ : Scopes) : Within path loose σ σ :=
  ⟨rfl, fun _ => .refl _, fun _ _ => rfl, fun _ _ => rfl⟩

theorem trans (h : Within path loose σ σ') (h' : Within path loose σ' σ'') :
    Within path loose σ σ'' where
  depth := h'.depth.trans h.depth
  steady i := (h.steady i).trans (h'.steady i)
  off i hi := (h'.off i hi).trans (h.off i hi)
  gaps i hi := (h'.gaps i hi).trans (h.gaps i hi)

theorem mono {path' loose' : List ScopeId} (h : Within path loose σ σ') (hpath : path ⊆ path')
    (hloose : loose ⊆ loose') : Within path' loose' σ σ' where
  depth := h.depth
  steady := h.steady
  off i hi := h.off i fun hmem => hi (hpath hmem)
  gaps i hi := h.gaps i fun hmem => hi (hloose hmem)

/-- One scope has changed. -/
theorem of_modifyScope {id : ScopeId} (hid : id < σ.depth) {f : Scope → Scope} (hpath : id ∈ path)
    (hsteady : (σ.get id).Steady (f (σ.get id)))
    (hgaps : id ∉ loose → (f (σ.get id)).hasOpenGap = (σ.get id).hasOpenGap) :
    Within path loose σ (σ.modifyScope id f) where
  depth := depth_modifyScope σ id f
  steady i := by
    by_cases hi : i = id
    · subst hi
      rw [get_modifyScope_self hid]
      exact hsteady
    · rw [get_modifyScope_of_ne σ hi]
      exact .refl _
  off i hi := get_modifyScope_of_ne σ (fun h : i = id => hi (h ▸ hpath)) f
  gaps i hi := by
    by_cases hid' : i = id
    · subst hid'
      rw [get_modifyScope_self hid]
      exact hgaps hi
    · rw [get_modifyScope_of_ne σ hid']

theorem chained (h : Within path loose σ σ') {rs : List Ring} (hrs : σ.Chained rs) :
    σ'.Chained rs := by
  induction rs with
  | nil => trivial
  | cons r rs ih =>
      obtain ⟨hid, hkind, htree, hcleanup, hparent, hlt, hrest⟩ := hrs
      have hs := h.steady r.id
      exact ⟨h.depth ▸ hid, hs.kind.trans hkind, hs.tree.trans htree, hs.cleanup.trans hcleanup,
        hs.parent.trans hparent, hlt, ih hrest⟩

theorem tight (h : Within path loose σ σ') {rs : List Ring} (hrs : σ.Tight rs)
    (hloose : ∀ r ∈ rs, r.id ∉ loose) : σ'.Tight rs :=
  fun r hr => (h.gaps r.id (hloose r hr)).trans (hrs r hr)

/-- Gaps that were closed before and are closed again were never loose. -/
theorem close (h : Within path loose σ σ')
    (hloose : ∀ i ∈ loose, (σ.get i).hasOpenGap = false ∧ (σ'.get i).hasOpenGap = false) :
    Within path [] σ σ' where
  depth := h.depth
  steady := h.steady
  off := h.off
  gaps i _ := by
    by_cases hi : i ∈ loose
    · rw [(hloose i hi).1, (hloose i hi).2]
    · exact h.gaps i hi

end Within

end Scopes

/-! ### Steps from given scopes -/

/-- From any state with the scopes `σ`, the step fails with no disorder, or it succeeds and
leaves scopes with `Q`. -/
def Gen.Orders {α : Type} (x : Gen α) (σ : Scopes) (Q : α → Scopes → Prop) : Prop :=
  ∀ s : MethodState, s.scopes = σ → Orderly x s fun a s' => Q a s'.scopes

theorem Orderly.peek_bind {α β : Type} {g : Code → α} {f : α → Gen β} {s : MethodState}
    {R : β → MethodState → Prop} (h : Orderly (f (g s.asm.code)) s R) :
    Orderly (Gen.peek g >>= f) s R := h

namespace Gen.Orders

variable {α β : Type} {x : Gen α} {f : α → Gen β} {σ : Scopes} {P Q : α → Scopes → Prop}
  {R : β → Scopes → Prop}

theorem mono (h : x.Orders σ P) (hPQ : ∀ a σ', P a σ' → Q a σ') : x.Orders σ Q :=
  fun s hs => (h s hs).mono fun a s' => hPQ a s'.scopes

theorem bind (h : x.Orders σ P) (hf : ∀ a σ', P a σ' → (f a).Orders σ' R) : (x >>= f).Orders σ R :=
  fun s hs => (h s hs).bind fun a s' hP => hf a s'.scopes hP s' rfl

theorem pure {a : α} (h : Q a σ) : (pure a : Gen α).Orders σ Q := by
  intro s hs
  subst hs
  exact h

theorem throw {e : Error} (h : e.isDisorder = false) : (throw e : Gen α).Orders σ Q := fun _ _ => h

theorem ite {c : Prop} [Decidable c] {y : Gen α} (hx : c → x.Orders σ Q) (hy : ¬ c → y.Orders σ Q) :
    (if c then x else y).Orders σ Q := by
  split
  · exact hx ‹_›
  · exact hy ‹_›

theorem get_bind {f : MethodState → Gen β} (h : ∀ s, s.scopes = σ → (f s).Orders σ R) :
    (MonadState.get >>= f).Orders σ R := fun s hs => h s hs s hs

theorem peekScope_bind {id : ScopeId} {g : Scope → α} (h : (f (g (σ.get id))).Orders σ R) :
    (Gen.peekScope id g >>= f).Orders σ R := by
  intro s hs
  subst hs
  exact h s rfl

theorem onScopes {y : Scoping α} (h : Orderly y σ Q) : (Gen.onScopes y).Orders σ Q := by
  rintro ⟨asm, scopes, locals, subroutines, letDepth, reports, appends⟩ hs
  cases hs
  simp only [Orderly, Gen.onScopes] at h ⊢
  cases hrun : y scopes <;> rw [hrun] at h <;> exact h

/-- A calm step changes nothing. -/
theorem of_calm (h : Calm x) : x.Orders σ fun _ σ' => σ' = σ :=
  fun s hs => (h s).mono fun _ _ hs' => hs'.scopes.trans hs

theorem calm_bind (h : Calm x) (hf : ∀ a, (f a).Orders σ R) : (x >>= f).Orders σ R :=
  (of_calm h).bind fun a _ hσ => hσ ▸ hf a

theorem touch {g : Code → Code} : (Gen.touch g).Orders σ fun _ σ' => σ' = σ :=
  fun s hs => by
    cases s
    exact hs

theorem touch_bind {g : Code → Code} {f : Unit → Gen β} (h : (f ()).Orders σ R) :
    (Gen.touch g >>= f).Orders σ R :=
  touch.bind fun _ _ hσ => hσ ▸ h

theorem freeing {Q : Scopes → Prop} (h : x.Orders σ fun _ => Q) :
    (Gen.freeing x).Orders σ fun _ => Q :=
  calm_bind (Calm.peek _) fun _ => h.bind fun _ _ hQ =>
    calm_bind (Emit.composed_endScopes _).inGen.calm fun _ => pure hQ

theorem ranged {Q : Scopes → Prop} {span : Span} {flags : UInt16} (h : x.Orders σ fun _ => Q) :
    (Gen.ranged span flags x).Orders σ fun _ => Q :=
  calm_bind (Calm.peek _) fun _ => ite (fun _ => h) fun _ =>
    calm_bind Emit.composed_curPc.inGen.calm fun _ => h.bind fun _ _ hQ =>
      calm_bind Emit.composed_curPc.inGen.calm fun _ => touch_bind (pure hQ)

end Gen.Orders

end StackCode
