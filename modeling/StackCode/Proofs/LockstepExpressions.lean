import StackCode.Generate.Tree
import StackCode.Proofs.LockstepItems
import StackCode.Proofs.Opcodes

/-!
# Expressions in lockstep

The code of an expression is in step if both runs come to corresponding items and conditions,
whatever is wanted of the expression. Every construct of an expression is in step if its parts
are; a `letIn` is left out, since its statements may do more.
-/

set_option maxRecDepth 4000

namespace StackCode

/-! ### Steps that answer with an item -/

/-- Both runs of the step come to corresponding items, or the first one to an item that is of
no use. -/
def Offers (g : Ghost) (m : Multiset ℕ) (x y : Gen Item) : Prop :=
  ∀ F s t, Tied g (m + F) s t → ∀ a s' b t', x s = .ok a s' → y t = .ok b t' →
    a.isDoomed = true ∨ ∃ g' m', Tied g' (m' + F) s' t' ∧ Grown F g g' ∧ Valued Items g g' m' a b

namespace Offers

variable {α : Type} {limited : Bool} {g : Ghost} {m k : Multiset ℕ} {x y : Gen Item}

theorem of_runs (h : Runs false g m x y (Valued Items g)) : Offers g m x y :=
  fun F s t hst a s' b t' hx hy => .inr (h F s t hst a s' b t' hx hy nofun)

theorem of_loaded (h : Runs false g m x y (Plain (OnStack g))) : Offers g m x y := by
  refine of_runs (h.mono ?_)
  rintro g' _ a _ ⟨rfl, rfl, hflat, hlive⟩
  exact ⟨.same hflat, hlive⟩

theorem pure {i j : Item} (h : Items g.segs i j m) : Offers g m (Pure.pure i) (Pure.pure j) :=
  of_runs (.pure ⟨h, id⟩)

theorem throw {e : Error} : Offers g m (MonadExcept.throw e) y := of_runs .throw

/-- A step that can only come to an item of no use. -/
theorem of_doomed (h : Answers x (·.isDoomed = true)) : Offers g m x y :=
  fun _ s _ _ a s' _ _ hx _ => .inl (h s a s' hx)

theorem forget {m' : Multiset ℕ} (h : Offers g m x y) (hm : m ≤ m') : Offers g m' x y :=
  fun F s t hst => h F s t (hst.mono (Multiset.add_le_add_right hm))

theorem ite {c : Prop} [Decidable c] {x' y' : Gen Item} (hx : c → Offers g m x y)
    (hy : ¬ c → Offers g m x' y') : Offers g m (if c then x else x') (if c then y else y') := by
  by_cases h : c
  · rw [if_pos h, if_pos h]
    exact hx h
  · rw [if_neg h, if_neg h]
    exact hy h

theorem liftExcept_bind {x : Except Error α} {f f' : α → Gen Item}
    (h : ∀ a, x = .ok a → Offers g m (f a) (f' a)) :
    Offers g m (liftM x >>= f) (liftM x >>= f') := by
  cases x with
  | ok a => exact h a rfl
  | error e => exact throw

/-- An item is used. -/
theorem use {f f' : Item → Gen α} {R : Ghost → Multiset ℕ → α → α → Prop} (hx : Offers g 0 x y)
    (hdoomed : ∀ i, i.isDoomed = true → Fails (f i))
    (hf : ∀ g' m i j, Grown k g g' → (g.live = true → g'.live = true) → Items g'.segs i j m →
      Runs limited g' (m + k) (f i) (f' j) R) : Runs limited g k (x >>= f) (y >>= f') R := by
  intro F s t hst b p b' q hxf hyf hlim
  obtain ⟨i, s₁, hxi, hfi⟩ := EStateM.bind_eq_ok.mp hxf
  obtain ⟨j, t₁, hyj, hfj⟩ := EStateM.bind_eq_ok.mp hyf
  have hst : Tied g (0 + (k + F)) s t := by rwa [zero_add]
  rcases hx _ s t hst i s₁ j t₁ hxi hyj with hi | ⟨g₁, m₁, hst₁, hg₁, hitem, hlive⟩
  · exact (hdoomed i hi _ _ _ hfi).elim
  · rw [← add_assoc] at hst₁
    obtain ⟨g₂, m₂, hst₂, hg₂, hr⟩ :=
      hf g₁ m₁ i j (hg₁.mono (Multiset.le_add_right _ _)) hlive hitem
      F s₁ t₁ hst₁ b p b' q hfi hfj fun h => ⟨hg₁.firm (hlim h).1, (hlim h).2⟩
    exact ⟨g₂, m₂, hst₂, (hg₁.mono (Multiset.le_add_left _ _)).trans hg₂, hr⟩

/-- An item becomes part of another one. -/
theorem andThen {f f' : Item → Gen Item} (hx : Offers g 0 x y)
    (hdoomed : ∀ i, i.isDoomed = true → Answers (f i) (·.isDoomed = true))
    (hf : ∀ g' m i j, Grown k g g' → (g.live = true → g'.live = true) → Items g'.segs i j m →
      Offers g' (m + k) (f i) (f' j)) : Offers g k (x >>= f) (y >>= f') := by
  intro F s t hst b s' b' t' hxf hyf
  obtain ⟨i, s₁, hxi, hfi⟩ := EStateM.bind_eq_ok.mp hxf
  obtain ⟨j, t₁, hyj, hfj⟩ := EStateM.bind_eq_ok.mp hyf
  have hst : Tied g (0 + (k + F)) s t := by rwa [zero_add]
  rcases hx _ s t hst i s₁ j t₁ hxi hyj with hi | ⟨g₁, m₁, hst₁, hg₁, hitem, hlive⟩
  · exact .inl (hdoomed i hi _ _ _ hfi)
  · rw [← add_assoc] at hst₁
    refine (hf g₁ m₁ i j (hg₁.mono (Multiset.le_add_right _ _)) hlive hitem F s₁ t₁ hst₁ b
      s' b' t' hfi
      hfj).imp_right ?_
    rintro ⟨g₂, m₂, hst₂, hg₂, hitem₂, hlive₂⟩
    exact ⟨g₂, m₂, hst₂, (hg₁.mono (Multiset.le_add_left _ _)).trans hg₂, hitem₂, hlive₂ ∘ hlive⟩

end Offers

/-- A step, and then one that answers with an item. -/
theorem Runs.offers {α : Type} {g : Ghost} {m k : Multiset ℕ} {x y : Gen α} {f f' : α → Gen Item}
    {Q : Ghost → Multiset ℕ → α → α → Prop} (hx : Runs false g m x y Q)
    (hf : ∀ g' m' a b, Grown k g g' → Q g' m' a b →
      (g.live = true → g'.live = true) ∧ Offers g' (m' + k) (f a) (f' b)) :
    Offers g (m + k) (x >>= f) (y >>= f') := by
  intro F s t hst b s' b' t' hxf hyf
  obtain ⟨a, s₁, hxa, hfa⟩ := EStateM.bind_eq_ok.mp hxf
  obtain ⟨a', t₁, hya, hfa'⟩ := EStateM.bind_eq_ok.mp hyf
  rw [add_assoc] at hst
  obtain ⟨g₁, m₁, hst₁, hg₁, hq⟩ := hx _ s t hst a s₁ a' t₁ hxa hya nofun
  rw [← add_assoc] at hst₁
  obtain ⟨hlive, hoffers⟩ := hf g₁ m₁ a a' (hg₁.mono (Multiset.le_add_right _ _)) hq
  refine (hoffers F s₁ t₁ hst₁ b s' b' t' hfa hfa').imp_right ?_
  rintro ⟨g₂, m₂, hst₂, hg₂, hitem₂, hlive₂⟩
  exact ⟨g₂, m₂, hst₂, (hg₁.mono (Multiset.le_add_left _ _)).trans hg₂, hitem₂, hlive₂ ∘ hlive⟩

/-- A step, and then one that answers with an item and goes on with what the first one gives. -/
theorem Runs.offersAll {α : Type} {g : Ghost} {m : Multiset ℕ} {x y : Gen α} {f f' : α → Gen Item}
    {Q : Ghost → Multiset ℕ → α → α → Prop} (hx : Runs false g m x y Q)
    (hf : ∀ g' m' a b, Q g' m' a b → (g.live = true → g'.live = true) ∧ Offers g' m' (f a) (f' b)) :
    Offers g m (x >>= f) (y >>= f') := by
  have hrest : Offers g (m + 0) (x >>= f) (y >>= f') := by
    refine hx.offers fun g' m' a b _ hq => ?_
    rw [add_zero]
    exact hf g' m' a b hq
  rwa [add_zero] at hrest

theorem Straight.offers {α : Type} {g : Ghost} {m : Multiset ℕ} {x : Gen α} {f f' : α → Gen Item}
    (hx : Straight x) (hf : ∀ g' a, Grown m g g' → Offers g' m (f a) (f' a)) :
    Offers g m (x >>= f) (x >>= f') := by
  have hrest : Offers g (0 + m) (x >>= f) (x >>= f') := by
    refine (hx g).offers ?_
    rintro g' _ a _ hg ⟨rfl, rfl, hlive⟩
    rw [zero_add]
    exact ⟨hlive, hf g' a hg⟩
  rwa [zero_add] at hrest

/-- A value that is put on the stack, and then a step that answers with an item. -/
theorem Runs.loaded {g : Ghost} {m : Multiset ℕ} {x y : Gen Item} {f f' : Item → Gen Item}
    (hx : Runs false g 0 x y (Plain (OnStack g)))
    (hf : ∀ g' i, Grown m g g' → i.isCond = false → Offers g' m (f i) (f' i)) :
    Offers g m (x >>= f) (y >>= f') := by
  have hrest : Offers g (0 + m) (x >>= f) (y >>= f') := by
    refine hx.offers ?_
    rintro g' _ i _ hg ⟨rfl, rfl, hflat, hlive⟩
    rw [zero_add]
    exact ⟨hlive, hf g' i hg hflat⟩
  rwa [zero_add] at hrest

/-! ### The code of an expression -/

/-- Both runs come to corresponding values, whatever is wanted of the expression. -/
structure ExprCode.InStep (e : ExprCode) : Prop where
  item : ∀ t g, Offers g 0 (e.item t) (e.item t)
  cond : ∀ g, Runs false g 0 e.cond e.cond (Valued Conds g)
  bareCond : ∀ g, Runs false g 0 e.bareCond e.bareCond (Valued Conds g)
  append : Straight e.append
  effect : ∀ g, Offers g 0 e.effect e.effect

namespace Gen

theorem straight_ranged {α : Type} {x : Gen α} (span : Span) (flags : UInt16) (h : Straight x) :
    Straight (ranged span flags x) := by
  refine fun g => ranged_runs span flags nofun (fun g' hg' => (h g').mono ?_) ?_
  · rintro g'' _ _ _ ⟨rfl, rfl, hlive⟩
    exact ⟨rfl, rfl, fun hg => hlive (hg'.trans hg)⟩
  · rintro g' g'' _ _ _ - hlive ⟨rfl, rfl, hlive'⟩
    exact ⟨rfl, rfl, hlive ∘ hlive'⟩

theorem ranged_conds {x : Gen Cond} (span : Span) (flags : UInt16)
    (h : ∀ g, Runs false g 0 x x (Valued Conds g)) (g : Ghost) :
    Runs false g 0 (ranged span flags x) (ranged span flags x) (Valued Conds g) := by
  refine ranged_runs span flags nofun (fun g' hg' => (h g').mono ?_) ?_
  · exact fun g'' m c d h => ⟨h.1, fun hg => h.2 (hg'.trans hg)⟩
  · exact fun g' g'' m c d hg hlive h => ⟨h.1.grown hg le_rfl, hlive ∘ h.2⟩

end Gen

namespace ExprCode

variable {ctx : Context} {e : ExprCode} {g : Ghost}

/-- An item is converted. -/
theorem coerced {x : Gen Item} (h : Offers g 0 x x) (k : Kind) :
    Offers g 0 (do (← x).coerce k) (do (← x).coerce k) := by
  refine h.andThen (fun i hi => (Item.isDoomed_coerce hi k).asmInGen) fun g' m i j _ _ hitem => ?_
  rw [add_zero]
  exact .of_runs (Item.coerce_runs hitem k).asmInGen

/-- An item is put on the stack. -/
theorem loaded {x : Gen Item} (h : Offers g 0 x x) :
    Runs false g 0 (do (← x).load : Gen Item) (do (← x).load) (Plain (OnStack g)) := by
  refine h.use (fun i hi => (Item.fails_load hi).asmInGen) fun g' m i j _ hlive hitem => ?_
  rw [add_zero]
  exact (Item.load_runs hitem).asmInGen.mono fun _ _ _ _ h => ⟨h.1, h.2.after hlive⟩

namespace InStep

theorem value (h : e.InStep) (t : Ty) (g : Ghost) : Offers g 0 (e.value t) (e.value t) :=
  coerced (h.item t g) t.kind

theorem push (h : e.InStep) (t : Ty) (g : Ghost) :
    Runs false g 0 (e.push t) (e.push t) (Plain (OnStack g)) :=
  loaded (h.value t g)

/-- The value is put on the stack, whatever it is. -/
theorem straight_push (h : e.InStep) (t : Ty) : Straight (e.push t) :=
  fun g => (h.push t g).mono fun _ _ _ _ h => ⟨h.1, h.2.1, h.2.2.2⟩

theorem test (h : e.InStep) (flags : UInt16) (g : Ghost) :
    Runs false g 0 (e.test flags) (e.test flags) (Valued Conds g) :=
  Gen.ranged_conds _ _ h.cond g

theorem bareTest (h : e.InStep) (flags : UInt16) (g : Ghost) :
    Runs false g 0 (e.bareTest flags) (e.bareTest flags) (Valued Conds g) :=
  Gen.ranged_conds _ _ h.bareCond g

end InStep

end ExprCode

/-! ### Library calls -/

namespace Context

variable {ctx : Context}

theorem straight_callLibrary (site : Ty) (name : String) (args : List Ty) :
    Straight (ctx.callLibrary site name args) :=
  Straight.liftExcept.bind fun _ => (Item.straight_invoke _).asmInGen

theorem straight_appendMethod (t : Ty) : Straight (ctx.appendMethod t) := by
  intro g
  refine .get_bind fun F s t' hst => ?_
  have happends : (Part.get s : MethodState).appends = (Part.get t' : MethodState).appends :=
    hst.appends
  rw [happends]
  split
  · exact .pure ⟨rfl, rfl, id⟩
  · refine Straight.bind .liftExcept
      (fun m => .bind (fun g F s t' hst a p b q hx hy _ => ?_) fun _ => .pure) g
    cases hx
    cases hy
    refine ⟨g, 0, ?_, .refl _ _, rfl, rfl, id⟩
    exact { hst with appends := congrArg (List.cons (t, m)) hst.appends }

theorem straight_newBuilder (span : Span) : Straight (ctx.newBuilder span) :=
  (Gen.straight_typeIndex _ _).bind fun _ =>
    (Emit.straight_short (by decide) (by decide) _).inGen.bind fun _ =>
      (Emit.straight_plain (by decide)).inGen.bind fun _ => (straight_callLibrary _ _ _).bind
        fun _ => .pure

theorem straight_appendPiece (t : Ty) : Straight (ctx.appendPiece t) :=
  (straight_appendMethod _).bind fun _ => (Item.straight_invoke _).asmInGen.bind fun _ => .pure

theorem builderText_offers {g : Ghost} : Offers g 0 ctx.builderText ctx.builderText :=
  (straight_callLibrary _ _ _).offers fun _ _ _ => .pure (.same rfl)

theorem straight_builderText : Straight ctx.builderText :=
  (straight_callLibrary _ _ _).bind fun _ => .pure

theorem straight_nullCheck : Straight ctx.nullCheck :=
  (straight_callLibrary _ _ _).bind fun _ => (Emit.straight_plain (by decide)).inGen

end Context

namespace ExprCode

variable {ctx : Context} {e : ExprCode}

theorem itemOf_offers (info : ExprInfo) {visit : Ty → Gen Item}
    (h : ∀ t g, Offers g 0 (visit t) (visit t)) (t : Ty) (g : Ghost) :
    Offers g 0 (itemOf info visit t) (itemOf info visit t) := by
  unfold itemOf
  split
  · exact (Straight.reporting _).offers fun _ _ _ => .pure (.same rfl)
  · exact h t g

theorem inStep_ofItem (info : ExprInfo) {visit : Ty → Gen Item}
    (h : ∀ t g, Offers g 0 (visit t) (visit t)) : (ofItem ctx info visit).InStep := by
  have hvalue (t : Ty) (g : Ghost) := coerced (itemOf_offers info h t g) t.kind
  have hcond (g : Ghost) : Runs false g 0
      (do (← (do (← itemOf info visit .boolean).coerce Ty.boolean.kind : Gen Item)).toCond :
        Gen Cond)
      (do (← (do (← itemOf info visit .boolean).coerce Ty.boolean.kind : Gen Item)).toCond)
      (Valued Conds g) := by
    refine (hvalue .boolean g).use (fun i hi => (Item.fails_toCond hi).asmInGen) ?_
    intro g' m i j _ hlive hitem
    rw [add_zero]
    exact (Item.toCond_runs hitem).asmInGen.mono fun _ _ _ _ h => ⟨h.1, h.2 ∘ hlive⟩
  refine ⟨itemOf_offers info h, hcond, hcond, fun g => ?_, fun g => hvalue info.ty g⟩
  refine (hvalue info.ty g).use (fun i hi => Fails.bind (Item.fails_load hi).asmInGen) ?_
  intro g₁ m i j _ hlive hitem
  rw [add_zero]
  refine (Item.load_runs hitem).asmInGen.spendAll fun g₂ _ _ hload => ?_
  refine (Context.straight_appendPiece info.ty g₂).mono ?_
  rintro g₃ _ _ _ ⟨rfl, rfl, hlive₃⟩
  exact ⟨rfl, rfl, fun hg => hlive₃ (hload.2.2 (hlive hg))⟩

theorem inStep_parens (info : ExprInfo) (bareIsCond : Bool) (h : e.InStep) :
    (parens ctx info bareIsCond e).InStep := by
  have hplain : (ofItem ctx info fun _ => e.value e.info.ty).InStep :=
    inStep_ofItem info fun _ => h.value e.info.ty
  refine ⟨hplain.item, fun g => ?_, h.bareCond, h.append, hplain.effect⟩
  cases bareIsCond
  · exact hplain.cond g
  · exact h.cond g

end ExprCode

/-! ### Constructs -/

namespace Gen

variable {g : Ghost}

theorem literal_offers (info : ExprInfo) (t : Ty) :
    Offers g 0 (literal info t) (literal info t) := by
  refine .ite (fun _ => .of_runs (Fails.runs (Fails.throw.bind))) fun _ => ?_
  refine (Emit.straight_plain (by decide)).inGen.offers fun g₁ _ _ => .ite (fun _ => ?_) fun _ =>
    .pure (.same rfl)
  exact (straight_typeIndex _ _).offers fun _ _ _ =>
    (Emit.straight_short (by decide) (by decide) _).inGen.offers fun _ _ _ => .pure (.ofKind _)

theorem selfRef_offers (isSuper : Bool) (ctor : Option MethodSymbol) :
    Offers g 0 (selfRef isSuper ctor) (selfRef isSuper ctor) := by
  cases ctor with
  | none => exact .pure (.same rfl)
  | some m => exact (Item.straight_load rfl).asmInGen.offers fun _ _ _ => .pure (.same rfl)

theorem classLit_offers (info : ExprInfo) (t : Ty) :
    Offers g 0 (classLit info t) (classLit info t) :=
  (straight_typeIndex _ _).offers fun _ _ _ => (Emit.straight_ldc _ _).inGen.offers fun _ _ _ =>
    .pure (.same rfl)

theorem straight_pushArgs {args : List ExprCode} (h : ∀ e ∈ args, e.InStep) (params : List Ty) :
    Straight (pushArgs args params) :=
  .optional .throw fun _ => .forM fun (e, t) ht =>
    ((h e (List.of_mem_zip ht).1).straight_push t).bind fun _ => .pure

theorem apply_offers {callee : ExprCode} {args : List ExprCode} (hc : callee.InStep)
    (ha : ∀ e ∈ args, e.InStep) (m : Option MethodSymbol) :
    Offers g 0 (apply callee m args) (apply callee m args) := by
  refine (hc.item _ g).andThen (fun i hi => ?_) fun g₁ n i j _ _ hitem => ?_
  · cases m with
    | none => exact .throw
    | some m =>
        exact .after fun _ => fun s a s' ha => ((Item.fails_invoke hi).asmInGen s a s' ha).elim
  · cases m with
    | none => exact .throw
    | some m =>
        refine (straight_pushArgs ha _).offers fun g₂ _ hg => .of_loaded ?_
        rw [add_zero] at hg ⊢
        exact (Item.invoke_runs (hitem.grown hg le_rfl)).asmInGen

theorem newClass_offers (info : ExprInfo) (ctor : MethodSymbol) {args : List ExprCode}
    (h : ∀ e ∈ args, e.InStep) : Offers g 0 (newClass info ctor args) (newClass info ctor args) :=
  (straight_typeIndex _ _).offers fun _ _ _ =>
    (Emit.straight_short (by decide) (by decide) _).inGen.offers fun _ _ _ =>
      (Emit.straight_plain (by decide)).inGen.offers fun _ _ _ =>
        (straight_pushArgs h _).offers fun _ _ _ =>
          (Item.straight_invoke _).asmInGen.offers fun _ _ _ => .pure (.ofKind _)

theorem straight_allocate (span : Span) (t : Ty) (dims : Nat) :
    Straight (allocate span t dims) := by
  unfold allocate
  split
  · exact .throw
  · refine (Straight.reporting _).bind fun _ => .ite ?_ (.ite ?_ ?_)
    · exact (straight_typeIndex _ _).bind fun _ =>
        (Emit.straight_short (by decide) (by decide) _).inGen.bind fun _ => .pure
    · exact (straight_typeIndex _ _).bind fun _ => (Emit.straight_multiarray _ _).inGen.bind
        fun _ => .pure
    · exact (Emit.straight_byte (by decide) _).inGen.bind fun _ => .pure

theorem answers_allocate (span : Span) (t : Ty) (dims : Nat) :
    Answers (allocate span t dims) (·.isCond = false) := by
  unfold allocate
  split
  · exact .throw
  · refine .after fun _ => ?_
    dsimp only
    split
    · exact .after fun _ => .after fun _ => .pure rfl
    · split
      · exact .after fun _ => .after fun _ => .pure rfl
      · exact .after fun _ => .pure rfl

theorem allocate_runs (span : Span) (t : Ty) (dims : Nat) : Runs false g 0 (allocate span t dims)
    (allocate span t dims) (Plain (OnStack g)) :=
  (straight_allocate span t dims).onStack (answers_allocate span t dims)

theorem newArray_offers (info : ExprInfo) {dims : List ExprCode} (h : ∀ e ∈ dims, e.InStep) :
    Offers g 0 (newArray info dims) (newArray info dims) :=
  (Straight.forM fun d hd => ((h d hd).straight_push .int).bind fun _ => .pure).offers fun _ _ _ =>
    .of_loaded (allocate_runs _ _ _)

theorem straight_storeElems {array : Item} (harray : array.isCond = false) (t : Ty)
    {elems : List ExprCode} (h : ∀ e ∈ elems, e.InStep) (i : Nat) :
    Straight (storeElems array t elems i) := by
  induction elems generalizing i with
  | nil => exact .pure
  | cons e es ih =>
      exact (Item.straight_duplicate harray).asmInGen.bind fun _ =>
        (Item.straight_load rfl).asmInGen.bind fun _ =>
          ((h e (List.mem_cons_self ..)).straight_push t).bind fun _ =>
            (Item.straight_store _).asmInGen.bind fun _ =>
              ih (fun e' he' => h e' (List.mem_cons_of_mem e he')) (i + 1)

theorem arrayInit_offers (info : ExprInfo) {elems : List ExprCode} (h : ∀ e ∈ elems, e.InStep) :
    Offers g 0 (arrayInit info elems) (arrayInit info elems) := by
  unfold arrayInit
  split
  · exact .throw
  · exact (Item.straight_load rfl).asmInGen.offers fun _ _ _ =>
      (allocate_runs _ _ _).loaded fun _ _ _ harray =>
        (straight_storeElems harray _ h 0).offers fun _ _ _ => .pure (.same harray)

theorem assign_offers {lhs rhs : ExprCode} (hl : lhs.InStep) (hr : rhs.InStep) :
    Offers g 0 (assign lhs rhs) (assign lhs rhs) := by
  refine (hl.value _ g).andThen (fun i hi => ?_) fun g₁ m i j _ _ hitem => ?_
  · exact .after fun _ => .pure (Item.isDoomed_assign (.inr hi))
  · cases hitem with
    | same h => exact (hr.straight_push _).offers fun _ _ _ => .pure (.same rfl)
    | cond h => exact .of_doomed (.after fun _ => .pure rfl)

theorem index_offers (info : ExprInfo) {array idx : ExprCode} (ha : array.InStep)
    (hi : idx.InStep) :
    Offers g 0 (index info array idx) (index info array idx) :=
  (ha.straight_push _).offers fun _ _ _ => (hi.straight_push _).offers fun _ _ _ =>
    .pure (.same rfl)

theorem typeTest_offers (info : ExprInfo) {arg : ExprCode} (h : arg.InStep) (target : Ty) :
    Offers g 0 (typeTest info arg target) (typeTest info arg target) :=
  (h.straight_push _).offers fun _ _ _ => (straight_typeIndex _ _).offers fun _ _ _ =>
    (Emit.straight_short (by decide) (by decide) _).inGen.offers fun _ _ _ => .pure (.same rfl)

/-! ### Conditional values -/

theorem straight_retype (k : Kind) :
    Straight (touch fun c => { c with frame := c.frame.retype k }) := by
  refine straight_touch (Emit.straight_change (fun g c d h => ?_) fun _ => ⟨rfl, rfl⟩)
  have hc := Frame.Level.retype c.frame k
  have hd := Frame.Level.retype d.frame k
  exact { h with
    frame := (hc.trans h.frame).trans hd.symm
    depth := by
      show (c.frame.retype k).depth ≤ _
      rw [hc.depth]
      exact h.depth
    loose := fun hloose i frame htrail =>
      ⟨(h.loose hloose i frame htrail).1, hc.trans (h.loose hloose i frame htrail).2.1,
        (h.loose hloose i frame htrail).2.2⟩ }

theorem straight_arm {e : ExprCode} (h : e.InStep) (t : Ty) (k : Kind) : Straight (arm e t k) :=
  straight_ranged _ _ ((h.straight_push t).bind fun _ => straight_retype k)

theorem condValue_offers (info : ExprInfo) {test onTrue onFalse : ExprCode} (ht : test.InStep)
    (hT : onTrue.InStep) (hF : onFalse.InStep) (t : Ty) :
    Offers g 0 (condValue info test onTrue onFalse t) (condValue info test onTrue onFalse t) := by
  refine .of_runs ((ht.test _ g).next fun g₁ m c d ⟨hcond, hlive⟩ => ?_)
  refine .fork (fun x => liftM x) Runs.inGen hcond true nofun (fun g₂ _ => ?_) ?_
  · exact (straight_arm hT t info.ty.kind g₂).mono fun _ _ _ _ h => ⟨h.1, fun _ => h.2.2⟩
  intro g₂ no no' out out' m n hno hout hne
  refine .otherwise (fun x => liftM x) Runs.inGen hno true nofun (fun g₃ hg₃ => ?_)
    fun g₃ hg₃ hlive₃ => ?_
  · exact (straight_arm hF t info.ty.kind g₃).mono fun _ _ _ _ h => ⟨h.1, fun _ => h.2.2 hg₃⟩
  · refine (Emit.resolve_runs (hout.grown hg₃ le_rfl)).inGen.spendAll fun g₄ _ _ hlive₄ =>
      .pure ⟨.ofKind _, ?_⟩
    exact fun hg => live_of_joined (hne rfl (hlive hg)) (hlive₃ rfl) hlive₄

/-! ### Conditions -/

/-- The opposite of a test is written, and control goes on where the condition holds. -/
theorem jumpFalse_runs {α : Type} {limited : Bool} {m k : Multiset ℕ} {c d : Cond}
    {f f' : Chain → Gen α} {R : Ghost → Multiset ℕ → α → α → Prop} (h : Conds g.segs c d m)
    (hf : ∀ g' m' no no', Grown k g g' → Chains g'.segs no no' m' →
      (c.isFalse = false → g.live = true → g'.live = true) →
      (c.isTrue = false → g.live = true → no ≠ []) → Runs limited g' (m' + k) (f no) (f' no') R) :
    Runs limited g (m + k) (do let no ← c.jumpFalse; Emit.resolve c.onTrue; f no : Gen α)
      (do let no ← d.jumpFalse; Emit.resolve d.onTrue; f' no : Gen α) R := by
  obtain ⟨onTrue, onFalse, hT, hF, rfl⟩ := h.chains
  refine .cast (.parted (fun x => liftM x) Runs.inGen (Cond.jumpFalse_runs h.op h.test hF) hT ?_)
    (by rw [add_comm onTrue])
  intro g' m' no no' hg hno hlive htaken
  obtain ⟨-, -, -, hgoto, hnever⟩ := h.test.negate
  refine hf g' m' no no' hg hno (fun hfalse => hlive fun hop hnil => ?_) fun htrue =>
    htaken fun hop hnil => ?_
  · rw [Cond.isFalse_iff.mpr ⟨hnil, hgoto.mp hop⟩] at hfalse
    cases hfalse
  · rw [Cond.isTrue_iff.mpr ⟨hnil, hnever.mp hop⟩] at htrue
    cases htrue

/-- A test is written, and control goes on where the condition does not hold. -/
theorem jumpTrue_runs {α : Type} {limited : Bool} {m k : Multiset ℕ} {c d : Cond}
    {f f' : Chain → Gen α} {R : Ghost → Multiset ℕ → α → α → Prop} (h : Conds g.segs c d m)
    (hf : ∀ g' m' yes yes', Grown k g g' → Chains g'.segs yes yes' m' →
      (c.isTrue = false → g.live = true → g'.live = true) →
        Runs limited g' (m' + k) (f yes) (f' yes') R) :
    Runs limited g (m + k) (do let yes ← c.jumpTrue; Emit.resolve c.onFalse; f yes : Gen α)
      (do let yes ← d.jumpTrue; Emit.resolve d.onFalse; f' yes : Gen α) R := by
  obtain ⟨onTrue, onFalse, hT, hF, rfl⟩ := h.chains
  refine .parted (fun x => liftM x) Runs.inGen (Cond.jumpTrue_runs h.op h.test hT) hF ?_
  intro g' m' yes yes' hg hyes hlive _
  refine hf g' m' yes yes' hg hyes fun htrue => hlive fun hgoto hnil => ?_
  rw [Cond.isTrue_iff.mpr ⟨hnil, hgoto⟩] at htrue
  cases htrue

theorem both_runs {lhs rhs : ExprCode} (hl : lhs.InStep) (hr : rhs.InStep) :
    Runs false g 0 (both lhs rhs) (both lhs rhs) (Valued Conds g) := by
  refine (hl.test _ g).next fun g₁ m l l' ⟨hcond, hlive⟩ => ?_
  refine .ite (by rw [hcond.isFalse_eq]) (fun _ => .pure ⟨hcond, hlive⟩) fun hfalse => ?_
  refine .cast (jumpFalse_runs (k := 0) hcond fun g₂ n no no' _ hno hlive₂ _ => ?_)
    (add_zero m).symm
  rw [add_zero]
  refine (hr.test _ g₂).value fun g₃ p r r' hg₃ ⟨hcond', hlive₃⟩ => ?_
  obtain ⟨onTrue, onFalse, hT, hF, rfl⟩ := hcond'.chains
  refine .cast (.bind (Cond.join_runs (hno.grown hg₃ le_rfl) hF).inGen ?_)
    (by rw [add_comm onTrue, add_right_comm, add_comm onFalse])
  rintro _ _ joined joined' - ⟨rfl, rfl, hjoined, -⟩
  refine .pure ⟨⟨hcond'.op, hcond'.test, onTrue, n + onFalse, hT, hjoined, add_comm _ _⟩,
    fun hg => ?_⟩
  exact hlive₃ (hlive₂ (by simpa using hfalse) (hlive hg))

theorem either_runs {lhs rhs : ExprCode} (hl : lhs.InStep) (hr : rhs.InStep) :
    Runs false g 0 (either lhs rhs) (either lhs rhs) (Valued Conds g) := by
  refine (hl.test _ g).next fun g₁ m l l' ⟨hcond, hlive⟩ => ?_
  refine .ite (by rw [hcond.isTrue_eq]) (fun _ => .pure ⟨hcond, hlive⟩) fun htrue => ?_
  refine .cast (jumpTrue_runs (k := 0) hcond fun g₂ n yes yes' _ hyes hlive₂ => ?_)
    (add_zero m).symm
  rw [add_zero]
  refine (hr.test _ g₂).value fun g₃ p r r' hg₃ ⟨hcond', hlive₃⟩ => ?_
  obtain ⟨onTrue, onFalse, hT, hF, rfl⟩ := hcond'.chains
  refine .cast (.bind (Cond.join_runs (hyes.grown hg₃ le_rfl) hT).inGen ?_)
    (by rw [add_right_comm, add_comm onTrue])
  rintro _ _ joined joined' - ⟨rfl, rfl, hjoined, -⟩
  refine .pure ⟨⟨hcond'.op, hcond'.test, n + onTrue, onFalse, hjoined, hF, rfl⟩, fun hg => ?_⟩
  exact hlive₃ (hlive₂ (by simpa using htrue) (hlive hg))

theorem condCond_runs {test onTrue onFalse : ExprCode} (ht : test.InStep) (hT : onTrue.InStep)
    (hF : onFalse.InStep) :
    Runs false g 0 (condCond test onTrue onFalse) (condCond test onTrue onFalse)
      (Valued Conds g) := by
  refine (ht.test _ g).next fun g₁ m c d ⟨hcond, hlive⟩ => ?_
  -- Where only one way is left, its condition is the condition.
  have hone {a b other other' : Chain} {e : ExprCode} (he : e.InStep)
      (hab : ∃ x y, Chains g₁.segs a b x ∧ Chains g₁.segs other other' y ∧ m = x + y) :
      Runs false g₁ m (do Emit.resolve a; e.test RangeFlag.flowTarget : Gen Cond)
        (do Emit.resolve b; e.test RangeFlag.flowTarget) (Valued Conds g) := by
    obtain ⟨x, y, hx, -, rfl⟩ := hab
    refine Runs.forget ((Emit.resolve_runs hx).inGen.spendAll fun g₂ _ _ hlive₂ => ?_)
      (Multiset.le_add_right x y)
    refine (he.test _ g₂).mono fun g₃ _ _ _ h => ⟨h.1, fun hg => h.2 ?_⟩
    rw [hlive₂, hlive hg, Bool.true_or]
  refine .ite (by rw [hcond.isTrue_eq]) (fun _ => hone hT hcond.chains) fun htrue => ?_
  refine .ite (by rw [hcond.isFalse_eq]) (fun _ => hone hF hcond.negate.chains) fun hfalse => ?_
  refine .cast (jumpFalse_runs (k := 0) hcond fun g₂ n no no' _ hno hlive₂ hne => ?_)
    (add_zero m).symm
  rw [add_zero]
  refine (hT.test _ g₂).value fun g₃ p t t' hg₃ ⟨hcond₃, hlive₃⟩ => ?_
  refine jumpFalse_runs hcond₃ fun g₄ q low low' hg₄ hlow _ _ => ?_
  refine .value (Emit.branch_runs (.inr (.inl rfl))).inGen fun g₅ r high high' hg₅ ⟨hhigh, _⟩ => ?_
  have hno₅ := ((hno.grown hg₃ le_rfl).grown hg₄ le_rfl).grown hg₅ (Multiset.le_add_left _ _)
  refine .cast (.spend (Emit.resolve_runs hno₅).inGen fun g₆ _ _ hg₆ hlive₆ => ?_)
    (by rw [← add_assoc r, add_comm])
  have hlow₆ := (hlow.grown hg₅ (Multiset.le_add_right _ _)).grown hg₆ (Multiset.le_add_left _ _)
  have hhigh₆ := hhigh.grown hg₆ (Multiset.le_add_right _ _)
  refine (hF.test _ g₆).value fun g₇ u f f' hg₇ ⟨hcond₇, hlive₇⟩ => ?_
  obtain ⟨mT, mF, hfT, hfF, rfl⟩ := hcond₇.chains
  have hhigh₇ := hhigh₆.grown hg₇ (Multiset.le_add_right _ _)
  have hlow₇ := hlow₆.grown hg₇ (Multiset.le_add_left _ _)
  refine .cast (.bind (k := q + mF) (Cond.join_runs hhigh₇ hfT).inGen ?_) (by ac_rfl)
  rintro _ _ joinT joinT' - ⟨rfl, rfl, hjoinT, -⟩
  refine .cast (.bind (k := r + mT) (Cond.join_runs hlow₇ hfF).inGen ?_) (by ac_rfl)
  rintro _ _ joinF joinF' - ⟨rfl, rfl, hjoinF, -⟩
  refine .pure ⟨⟨hcond₇.op, hcond₇.test, r + mT, q + mF, hjoinT, hjoinF, add_comm _ _⟩,
    fun hg => hlive₇ ?_⟩
  simp [hlive₆, hne (by simpa using htrue) (hlive hg)]

/-! ### Arithmetic -/

/-- An operation on what is on the stack, or a test of it. -/
theorem finish_runs {op : Opcode} (result : Ty) (h : op.isConditional = true ∨ op.IsStraight)
    {g₁ : Ghost} (hlive : g.live = true → g₁.live = true) :
    Runs false g₁ 0
      (if op.isConditional then pure (.cond { op })
        else do Emit.plain op; return .ofTy result : Gen Item)
      (if op.isConditional then pure (.cond { op }) else do Emit.plain op; return .ofTy result)
      (Valued Items g) := by
  refine .ite .rfl (fun hop => .pure ⟨.cond (.first (.inl hop)), hlive⟩) fun hop => ?_
  exact (Emit.straight_plain (h.resolve_left hop)).inGen.step fun _ _ _ hlive₂ =>
    .pure ⟨.ofKind _, hlive₂ ∘ hlive⟩

theorem finishBinary_runs (op : BinaryOp) (operand : Ty) {rhs : ExprCode} (h : rhs.InStep)
    (rhsIsNull : Bool) (result : Ty) : Runs false g 0 (finishBinary op operand rhs rhsIsNull result)
      (finishBinary op operand rhs rhsIsNull result) (Valued Items g) := by
  refine .liftExcept_bind fun sel hsel => ?_
  have hfits := BinaryOp.select_fits hsel
  have hop : sel.op.isConditional = true ∨ sel.op.IsStraight := by
    cases hcomparison : op.isComparison with
    | true => exact .inl (hfits.test hcomparison).1
    | false => exact .inr (hfits.plain hcomparison).2.2.1
  refine .ite .rfl (fun hzero => ?_) fun _ => .ite .rfl (fun hnull => ?_) fun _ => ?_
  · exact finish_runs result (.inl (hfits.zero ⟨hzero.1, hzero.2.1⟩).2.1) id
  · exact finish_runs result (.inl (hfits.null ⟨hnull.1, hnull.2.1⟩).2.1) id
  · refine (h.straight_push _).step fun g₁ _ _ hlive => ?_
    split
    · rename_i compare hcompare
      exact (Emit.straight_plain (hfits.compared compare hcompare).1).inGen.step fun _ _ _ hlive₂ =>
        finish_runs result hop (hlive₂ ∘ hlive)
    · exact finish_runs result hop hlive

theorem straight_narrow (k : Kind) : Straight (narrow k) := by
  unfold narrow
  split
  · rename_i hk
    exact (Emit.straight_plain (Item.narrow_opcode k (by rw [hk.2]; exact hk.1)).1).inGen
  · exact .pure

theorem stepFirst_offers {op : Opcode} (hop : op.IsStraight) (delta : Int32) {i j : Item}
    {m : Multiset ℕ} (h : Items g.segs i j m) :
    Offers g m (stepFirst op delta i) (stepFirst op delta j) := by
  cases h with
  | @same i h =>
      refine (Item.straight_duplicate h).asmInGen.offers fun _ _ _ => .ite (fun _ => ?_) fun _ => ?_
      · exact (Item.straight_increment i delta).asmInGen.offers fun _ _ _ => .pure (.same h)
      · exact (Item.straight_load h).asmInGen.offers fun _ _ _ =>
          (Emit.straight_plain (one_opcode _).1).inGen.offers fun _ _ _ =>
            (Emit.straight_plain hop).inGen.offers fun _ _ _ =>
              (straight_narrow _).offers fun _ _ _ => .pure (.same rfl)
  | cond h =>
      refine .of_doomed ?_
      exact .after fun _ => .after fun _ => .after fun _ => .after fun _ =>
        .after fun _ => .pure rfl

theorem stepLast_offers {op : Opcode} (hop : op.IsStraight) (delta : Int32) {i j : Item}
    {m : Multiset ℕ} (h : Items g.segs i j m) :
    Offers g m (stepLast op delta i) (stepLast op delta j) := by
  cases h with
  | @same i h =>
      refine (Item.straight_duplicate h).asmInGen.offers fun _ _ _ => .ite (fun _ => ?_) fun _ => ?_
      · exact Runs.loaded (Item.load_runs (.same h)).asmInGen fun _ old _ hold =>
          (Item.straight_increment i delta).asmInGen.offers fun _ _ _ => .pure (.same hold)
      · exact Runs.loaded (Item.load_runs (.same h)).asmInGen fun _ old _ hold =>
          (Item.straight_stash i _).asmInGen.offers fun _ _ _ =>
            (Emit.straight_plain (one_opcode _).1).inGen.offers fun _ _ _ =>
              (Emit.straight_plain hop).inGen.offers fun _ _ _ =>
                (straight_narrow _).offers fun _ _ _ =>
                  (Item.straight_store i).asmInGen.offers fun _ _ _ => .pure (.same hold)
  | cond h =>
      -- A condition cannot be stashed.
      exact .of_runs (Fails.runs
        (.after fun _ => .after fun _ => Fails.bind (Fails.asmInGen .throw)))

end Gen

namespace Context

open Gen

variable {ctx : Context} {g : Ghost} {m : Multiset ℕ} {i j : Item}

/-! ### Members -/

theorem ownMember_offers (member : MemberRef) (flags : Access) :
    Offers g 0 (ctx.ownMember member flags) (ctx.ownMember member flags) :=
  .ite (fun _ => .pure (.same rfl)) fun _ =>
    (Item.straight_load rfl).asmInGen.offers fun _ _ _ => .pure (.same rfl)

theorem ident_offers (info : ExprInfo) (sym : Symbol) :
    Offers g 0 (ctx.ident info sym) (ctx.ident info sym) := by
  cases sym with
  | var id => exact (straight_registerOf id).offers fun _ _ _ => .pure (.same rfl)
  | field f => exact ownMember_offers _ _
  | method m => exact ownMember_offers _ _
  | length | type _ => exact .throw

theorem dropQualifier_runs (h : Items g.segs i j m) (viaSuper : Bool) :
    Runs false g m (dropQualifier i viaSuper) (dropQualifier j viaSuper) (Plain (Alike g)) := by
  refine .ite .rfl (fun _ => (Item.discard_runs h).asmInGen) fun _ => ?_
  refine (Item.load_runs h).asmInGen.spendAll fun g₁ a b hload => ?_
  obtain ⟨rfl, hflat, hlive⟩ := hload
  exact (Item.discard_runs (.same hflat)).asmInGen.mono fun _ _ _ _ h => ⟨h.1, h.2.1, h.2.2 ∘ hlive⟩

theorem fails_dropQualifier (h : i.isDoomed = true) (viaSuper : Bool) :
    Fails (dropQualifier i viaSuper) := by
  unfold dropQualifier
  split
  · exact (Item.fails_discard h).asmInGen
  · exact Fails.bind (Item.fails_load h).asmInGen

theorem selectMember_offers (h : Items g.segs i j m) (viaSuper : Bool) (site : Ty)
    (member : MemberRef) (flags : Access) :
    Offers g m (ctx.selectMember i viaSuper site member flags)
      (ctx.selectMember j viaSuper site member flags) := by
  refine .of_runs (.ite .rfl (fun _ => ?_) fun _ => ?_)
  · exact (dropQualifier_runs h viaSuper).spendAll fun g₁ _ _ hlive => .pure ⟨.same rfl, hlive.2⟩
  · exact (Item.load_runs h).asmInGen.spendAll fun g₁ _ _ hload => .pure ⟨.same rfl, hload.2.2⟩

theorem fails_selectMember (h : i.isDoomed = true) (viaSuper : Bool) (site : Ty)
    (member : MemberRef) (flags : Access) :
    Fails (ctx.selectMember i viaSuper site member flags) := by
  unfold selectMember
  dsimp only
  split
  · exact Fails.bind (fails_dropQualifier h viaSuper)
  · exact Fails.bind (Item.fails_load h).asmInGen

/-- What is selected from a qualifier that is there. -/
def selected (ctx : Context) (target : ExprCode) (viaSuper : Bool) (sym : Symbol) (base : Item) :
    Gen Item := do
  match sym with
  | .length =>
    let _ ← base.load
    Emit.plain .arraylength
    return .stack .int
  | .field f =>
    match f.const with
    | some c =>
      if f.flags.has Access.staticBit then dropQualifier base viaSuper
      else
        let _ ← base.load
        ctx.nullCheck
      return .const f.ty.kind c
    | none => ctx.selectMember base viaSuper target.info.ty (.ofField f) f.flags
  | .method m => ctx.selectMember base viaSuper target.info.ty (.ofMethod m) m.flags
  | .var _ | .type _ => throw (.internal (.notAMember target.info.span.firstLine))

theorem selected_offers (h : Items g.segs i j m) (target : ExprCode) (viaSuper : Bool)
    (sym : Symbol) :
    Offers g m (ctx.selected target viaSuper sym i) (ctx.selected target viaSuper sym j) := by
  have hload : Runs false g m (liftM i.load : Gen Item) (liftM j.load) (Plain (OnStack g)) :=
    (Item.load_runs h).asmInGen
  cases sym with
  | length =>
      refine .of_runs (hload.spendAll fun g₁ _ _ hload => ?_)
      exact (Emit.straight_plain (by decide)).inGen.step fun _ _ _ hlive =>
        .pure ⟨.same rfl, hlive ∘ hload.2.2⟩
  | field f =>
      unfold selected
      dsimp only
      cases f.const with
      | some c =>
          refine .of_runs (.ite .rfl (fun _ => ?_) fun _ => ?_)
          · exact (dropQualifier_runs h viaSuper).spendAll fun g₁ _ _ hlive =>
              .pure ⟨.same rfl, hlive.2⟩
          · refine hload.spendAll fun g₁ _ _ hload => ?_
            exact straight_nullCheck.step fun _ _ _ hlive => .pure ⟨.same rfl, hlive ∘ hload.2.2⟩
      | none => exact selectMember_offers h _ _ _ _
  | method m => exact selectMember_offers h _ _ _ _
  | var _ | type _ => exact .throw

theorem fails_selected (h : i.isDoomed = true) (target : ExprCode) (viaSuper : Bool)
    (sym : Symbol) :
    Fails (ctx.selected target viaSuper sym i) := by
  have hload := Fails.asmInGen (Item.fails_load h)
  cases sym with
  | length => exact hload.bind
  | field f =>
      unfold selected
      dsimp only
      cases f.const with
      | some c =>
          dsimp only
          split
          · exact Fails.bind (fails_dropQualifier h viaSuper)
          · exact hload.bind
      | none => exact fails_selectMember h _ _ _ _
  | method m => exact fails_selectMember h _ _ _ _
  | var _ | type _ => exact .throw

theorem select_offers {target : ExprCode} (h : target.InStep) (viaSuper : Bool) (sym : Symbol) :
    Offers g 0 (ctx.select target viaSuper sym) (ctx.select target viaSuper sym) := by
  refine .ite (fun _ => selected_offers (.same rfl) target viaSuper sym) fun _ => ?_
  refine (h.value _ g).andThen (fun i hi s a s' ha => ?_) fun g₁ n i j _ _ hitem => ?_
  · exact (fails_selected hi target viaSuper sym s a s' ha).elim
  · rw [add_zero]
    exact selected_offers hitem target viaSuper sym

theorem cast_offers (info : ExprInfo) (target : Ty) {arg : ExprCode} (h : arg.InStep) :
    Offers g 0 (ctx.cast info target arg) (ctx.cast info target arg) := by
  refine (h.push target g).loaded fun _ v _ hv => .ite (fun _ => ?_) fun _ => .pure (.same hv)
  exact (straight_typeIndex _ _).offers fun _ _ _ =>
    (Emit.straight_short (by decide) (by decide) _).inGen.offers fun _ _ _ => .pure (.same hv)

/-! ### Operators -/

/-- A place is stepped. -/
theorem stepped_offers {op : UnaryOp} {operand : Ty} {arg : ExprCode}
    {step : Opcode → Item → Gen Item} (h : arg.InStep)
    (hstep : ∀ {g m i j o}, Opcode.IsStraight o → Items g.segs i j m →
      Offers g m (step o i) (step o j))
    (hdoomed : ∀ {i o}, i.isDoomed = true → Fails (step o i)) :
    Offers g 0 (do let place ← arg.value operand; step (← op.select operand) place)
      (do let place ← arg.value operand; step (← op.select operand) place) := by
  refine (h.value _ g).andThen (fun i hi s a s' ha => ?_) fun g₁ n i j _ _ hitem => ?_
  · exact (Fails.after (fun _ => hdoomed hi) s a s' ha).elim
  · rw [add_zero]
    exact .liftExcept_bind fun o ho => hstep (UnaryOp.select_fits ho).straight hitem

theorem unary_offers (op : UnaryOp) (operand : Ty) {arg : ExprCode} (h : arg.InStep) :
    Offers g 0 (ctx.unary op operand arg) (ctx.unary op operand arg) := by
  have hfails (op : Opcode) (delta : Int32) {i : Item} (hi : i.isDoomed = true) :
      Fails (stepFirst op delta i) ∧ Fails (stepLast op delta i) :=
    ⟨Fails.bind (Item.fails_duplicate hi).asmInGen, Fails.bind (Item.fails_duplicate hi).asmInGen⟩
  cases op with
  | not =>
      exact .of_runs ((h.cond g).next fun g₁ m c d hcond => .pure ⟨.cond hcond.1.negate, hcond.2⟩)
  | pos => exact .of_loaded (ExprCode.loaded (h.value operand g))
  | neg =>
      exact (h.push operand g).loaded fun _ v _ hv => .liftExcept_bind fun o ho =>
        (Emit.straight_plain (UnaryOp.select_fits ho).straight).inGen.offers fun _ _ _ =>
          .pure (.same hv)
  | compl =>
      refine (h.push operand g).loaded fun _ v _ hv => .ite (fun _ => ?_) fun _ => ?_
      · exact (Item.straight_load rfl).asmInGen.offers fun _ _ _ => .liftExcept_bind fun o ho =>
          (Emit.straight_plain (UnaryOp.select_fits ho).straight).inGen.offers fun _ _ _ =>
            .pure (.same hv)
      · exact (Emit.straight_plain (by decide)).inGen.offers fun _ _ _ =>
          .liftExcept_bind fun o ho =>
          (Emit.straight_plain (UnaryOp.select_fits ho).straight).inGen.offers fun _ _ _ =>
            .pure (.same hv)
  | preInc | preDec =>
      exact stepped_offers h (fun ho hitem => stepFirst_offers ho _ hitem) fun hi =>
        (hfails _ _ hi).1
  | postInc | postDec =>
      exact stepped_offers h (fun ho hitem => stepLast_offers ho _ hitem) fun hi =>
        (hfails _ _ hi).2
  | nullCheck =>
      exact (h.push operand g).loaded fun _ v _ hv => (Emit.straight_plain (by decide)).inGen.offers
        fun _ _ _ => straight_nullCheck.offers fun _ _ _ => .pure (.same hv)

theorem inStep_unaryCode (info : ExprInfo) (op : UnaryOp) (operand : Ty) {arg : ExprCode}
    (h : arg.InStep) : (ctx.unaryCode info op operand arg).InStep := by
  have hunary (op : UnaryOp) (g : Ghost) : Offers g 0 (ctx.unary op operand arg)
      (ctx.unary op operand arg) := unary_offers op operand h
  have hcode : (ExprCode.ofItem ctx info fun _ => ctx.unary op operand arg).InStep :=
    ExprCode.inStep_ofItem info fun _ => hunary op
  unfold unaryCode
  split
  · exact ⟨hcode.item, hcode.cond, hcode.bareCond, hcode.append, hunary .preInc⟩
  · exact ⟨hcode.item, hcode.cond, hcode.bareCond, hcode.append, hunary .preDec⟩
  · exact hcode

theorem inStep_binaryCode (info : ExprInfo) (op : BinaryOp) (operand : Ty) {lhs rhs : ExprCode}
    (hl : lhs.InStep) (hr : rhs.InStep) (rhsIsNull : Bool) :
    (ctx.binaryCode info op operand lhs rhs rhsIsNull).InStep := by
  have hcond {x : Gen Cond} (hx : ∀ g, Runs false g 0 x x (Valued Conds g)) :
      (ExprCode.ofItem ctx info fun _ => do return .cond (← x)).InStep :=
    ExprCode.inStep_ofItem info fun _ g =>
      .of_runs ((hx g).next fun _ _ _ _ h => .pure ⟨.cond h.1, h.2⟩)
  unfold binaryCode
  split
  · exact hcond fun _ => both_runs hl hr
  split
  · exact hcond fun _ => either_runs hl hr
  split
  · have hpieces := hl.append.bind fun _ => hr.append
    have hcode : (ExprCode.ofItem ctx info fun _ => do
        ctx.newBuilder info.span
        (do lhs.append; rhs.append : Gen Unit)
        ctx.builderText).InStep :=
      ExprCode.inStep_ofItem info fun _ _ => (straight_newBuilder info.span).offers fun _ _ _ =>
        hpieces.offers fun _ _ _ => builderText_offers
    exact ⟨hcode.item, hcode.cond, hcode.bareCond, .ite hpieces hcode.append, hcode.effect⟩
  · exact ExprCode.inStep_ofItem info fun _ _ => (hl.straight_push _).offers fun _ _ _ =>
      .of_runs (finishBinary_runs _ _ hr _ _)

/-- A value on the stack is copied below the words that a place keeps there. -/
theorem below_opcode {n : ℕ} (hpos : 0 < n) (hle : n ≤ 4) :
    (Opcode.dupX1 + 3 * (.ofNat n - 1)).IsStraight := by
  have hall : ∀ n ∈ [1, 2, 3, 4], (Opcode.dupX1 + 3 * (.ofNat n - 1)).IsStraight := by decide
  exact hall n (by simp; omega)

theorem concatAssign_offers (info : ExprInfo) {lhs rhs : ExprCode} (hl : lhs.InStep)
    (hr : rhs.InStep) :
    Offers g 0 (ctx.concatAssign info lhs rhs) (ctx.concatAssign info lhs rhs) := by
  have hend (place : Item) :
      ∀ _ : PUnit, (place.isCond = true ∨ place.isDoomed = true) → Answers (do
      let _ ← place.load
      ctx.appendPiece lhs.info.ty
      rhs.append
      let _ ← ctx.builderText
      return .assign place : Gen Item) (·.isDoomed = true) := fun _ hplace =>
    .after fun _ => .after fun _ => .after fun _ => .after fun _ =>
      .pure (Item.isDoomed_assign hplace)
  refine (straight_newBuilder info.span).offers fun g₁ _ _ => ?_
  refine (hl.value _ g₁).andThen (fun i hi => ?_) fun g₂ m i j _ _ hitem => ?_
  · dsimp only
    split
    · exact .after fun u => hend i u (.inr hi)
    · exact hend i ⟨⟩ (.inr hi)
  · cases hitem with
    | cond h => exact .of_doomed (hend _ ⟨⟩ (.inl rfl))
    | @same i h =>
        cases hi : i.isDoomed with
        | true =>
            refine .of_doomed ?_
            split
            · exact .after fun u => hend i u (.inr hi)
            · exact hend i ⟨⟩ (.inr hi)
        | false =>
            have hrest (g : Ghost) : Offers g 0 (do
                let _ ← i.load
                ctx.appendPiece lhs.info.ty
                rhs.append
                let _ ← ctx.builderText
                return .assign i : Gen Item) (do
                let _ ← i.load
                ctx.appendPiece lhs.info.ty
                rhs.append
                let _ ← ctx.builderText
                return .assign i) :=
              (Item.straight_load h).asmInGen.offers fun _ _ _ =>
                (straight_appendPiece _).offers fun _ _ _ =>
                hr.append.offers fun _ _ _ => straight_builderText.offers fun _ _ _ =>
                  .pure (.same rfl)
            refine .ite (fun hwidth => ?_) fun _ => hrest g₂
            exact (Emit.straight_plain (below_opcode hwidth (Item.width_le hi))).inGen.offers
              fun g₃ _ _ => hrest g₃

theorem assignOp_offers (info : ExprInfo) (op : BinaryOp) (operand : Ty) {lhs rhs : ExprCode}
    (hl : lhs.InStep) (hr : rhs.InStep) (rhsIsNull : Bool) :
    Offers g 0 (ctx.assignOp info op operand lhs rhs rhsIsNull)
      (ctx.assignOp info op operand lhs rhs rhsIsNull) := by
  refine .ite (fun _ => concatAssign_offers info hl hr) fun _ => ?_
  refine (hl.value _ g).andThen (fun i hi => ?_) fun g₁ m i j _ _ hitem => ?_
  · rw [Item.isVar_of_isDoomed hi]
    exact Fails.bind (Item.fails_duplicate hi).asmInGen
  · cases hitem with
    | cond h =>
        refine .of_doomed ?_
        exact .after fun _ => .after fun _ => .after fun _ => .after fun _ =>
          .after fun _ => .pure rfl
    | @same i h =>
        split
        · exact (Item.straight_increment i _).asmInGen.offers fun _ _ _ => .pure (.same h)
        · refine (Item.straight_duplicate h).asmInGen.offers fun _ _ _ => ?_
          refine Runs.loaded ((Item.straight_coerce h operand.kind).onStack
            (Item.answers_coerce h operand.kind)).asmInGen fun _ v _ hv => ?_
          refine (Item.straight_load hv).asmInGen.offers fun _ _ _ => ?_
          refine (finishBinary_runs op operand hr rhsIsNull operand).offersAll
            fun _ _ v v' hv => ⟨hv.2, ?_⟩
          refine (Item.coerce_runs hv.1 _).asmInGen.offersAll fun _ _ _ _ hlive => ⟨hlive.2, ?_⟩
          exact .forget (.pure (.same rfl)) (Multiset.zero_le _)

end Context

/-! ### Trees -/

section

variable {ctx : Context}

mutual

theorem Expr.inStep_code (env : Env) (e : Expr) (h : e.letFree = true) :
    (e.code ctx env).InStep := by
  cases e with
  | literal i =>
      rw [Expr.code]
      exact ExprCode.inStep_ofItem i fun t _ => Gen.literal_offers i t
  | ident i s =>
      rw [Expr.code]
      exact ExprCode.inStep_ofItem i fun _ _ => Context.ident_offers i s
  | selfRef i isSuper ctor =>
      rw [Expr.code]
      exact ExprCode.inStep_ofItem i fun _ _ => Gen.selfRef_offers isSuper ctor
  | select i t s =>
      simp only [Expr.letFree] at h
      rw [Expr.code]
      exact ExprCode.inStep_ofItem i fun _ _ => Context.select_offers (t.inStep_code env h) _ s
  | classLit i t =>
      rw [Expr.code]
      exact ExprCode.inStep_ofItem i fun _ _ => Gen.classLit_offers i t
  | apply i f as =>
      simp only [Expr.letFree, Bool.and_eq_true] at h
      rw [Expr.code]
      exact ExprCode.inStep_ofItem i fun _ _ =>
        Gen.apply_offers (f.inStep_code env h.1) (Expr.inStep_codes env as h.2) _
  | newClass i m as =>
      simp only [Expr.letFree] at h
      rw [Expr.code]
      exact ExprCode.inStep_ofItem i fun _ _ => Gen.newClass_offers i m (Expr.inStep_codes env as h)
  | newArray i ds =>
      simp only [Expr.letFree] at h
      rw [Expr.code]
      exact ExprCode.inStep_ofItem i fun _ _ => Gen.newArray_offers i (Expr.inStep_codes env ds h)
  | arrayInit i es =>
      simp only [Expr.letFree] at h
      rw [Expr.code]
      exact ExprCode.inStep_ofItem i fun _ _ => Gen.arrayInit_offers i (Expr.inStep_codes env es h)
  | parens i a =>
      simp only [Expr.letFree] at h
      rw [Expr.code]
      exact ExprCode.inStep_parens i _ (a.inStep_code env h)
  | assign i l r =>
      simp only [Expr.letFree, Bool.and_eq_true] at h
      rw [Expr.code]
      exact ExprCode.inStep_ofItem i fun _ _ =>
        Gen.assign_offers (l.inStep_code env h.1) (r.inStep_code env h.2)
  | assignOp i op t l r =>
      simp only [Expr.letFree, Bool.and_eq_true] at h
      rw [Expr.code]
      exact ExprCode.inStep_ofItem i fun _ _ =>
        Context.assignOp_offers i op t (l.inStep_code env h.1) (r.inStep_code env h.2) _
  | unary i op t a =>
      simp only [Expr.letFree] at h
      rw [Expr.code]
      exact Context.inStep_unaryCode i op t (a.inStep_code env h)
  | binary i op t l r =>
      simp only [Expr.letFree, Bool.and_eq_true] at h
      rw [Expr.code]
      exact Context.inStep_binaryCode i op t (l.inStep_code env h.1) (r.inStep_code env h.2) _
  | cast i t a =>
      simp only [Expr.letFree] at h
      rw [Expr.code]
      exact ExprCode.inStep_ofItem i fun _ _ => Context.cast_offers i t (a.inStep_code env h)
  | typeTest i a t =>
      simp only [Expr.letFree] at h
      rw [Expr.code]
      exact ExprCode.inStep_ofItem i fun _ _ => Gen.typeTest_offers i (a.inStep_code env h) t
  | index i a x =>
      simp only [Expr.letFree, Bool.and_eq_true] at h
      rw [Expr.code]
      exact ExprCode.inStep_ofItem i fun _ _ => Gen.index_offers i (a.inStep_code env h.1)
        (x.inStep_code env h.2)
  | cond i c t f =>
      simp only [Expr.letFree, Bool.and_eq_true] at h
      have hc := c.inStep_code env h.1.1
      have ht := t.inStep_code env h.1.2
      have hf := f.inStep_code env h.2
      have hvalue : (ExprCode.ofItem ctx i (Gen.condValue i (c.code ctx env) (t.code ctx env)
          (f.code ctx env))).InStep :=
        ExprCode.inStep_ofItem i fun u _ => Gen.condValue_offers i hc ht hf u
      rw [Expr.code]
      exact ⟨hvalue.item, fun _ => Gen.condCond_runs hc ht hf, fun _ => Gen.condCond_runs hc ht hf,
        hvalue.append, hvalue.effect⟩
  | letIn i ss v => simp [Expr.letFree] at h

theorem Expr.inStep_codes (env : Env) (es : List Expr) (h : Expr.allLetFree es = true) :
    ∀ c ∈ Expr.codes ctx es env, c.InStep := by
  cases es with
  | nil =>
      rw [Expr.codes]
      exact fun c hc => absurd hc List.not_mem_nil
  | cons e es =>
      simp only [Expr.allLetFree, Bool.and_eq_true] at h
      rw [Expr.codes]
      intro c hc
      rcases List.mem_cons.mp hc with rfl | hc
      · exact e.inStep_code env h.1
      · exact Expr.inStep_codes env es h.2 c hc

end

end

end StackCode
