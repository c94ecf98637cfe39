import StackCode.Proofs.Opcodes
import StackCode.Proofs.LockstepPlaces

/-!
# Conditions and items in lockstep

Two conditions correspond if they end in the same test and their earlier tests have taken the
same branches; two items correspond if they are the same or are such conditions. What is done
with an item is then done in both codes, and the branches of a condition are handed on or come
to wait.

An assignment to something that cannot be assigned to can no longer be used for anything, so
nothing needs to be known of a run that has come to such an item: it fails. `Offers` is `Runs`
for steps that answer with an item, up to these.
-/

set_option maxRecDepth 4000

namespace StackCode

/-! ### What a step answers with -/

/-- Whatever the step comes to has the property. -/
def Answers {σ α : Type} (x : EStateM Error σ α) (P : α → Prop) : Prop :=
  ∀ s a s', x s = .ok a s' → P a

/-- The step comes to nothing. -/
def Fails {σ α : Type} (x : EStateM Error σ α) : Prop := Answers x fun _ => False

namespace Answers

variable {σ α β : Type} {x : EStateM Error σ α} {f : α → EStateM Error σ β} {P : α → Prop}
  {Q : β → Prop}

theorem pure {a : α} (h : P a) : Answers (Pure.pure a : EStateM Error σ α) P := by
  rintro s _ _ ⟨⟩
  exact h

theorem throw {e : Error} : Answers (MonadExcept.throw e : EStateM Error σ α) P := by
  rintro s _ _ ⟨⟩

theorem bind (hx : Answers x P) (hf : ∀ a, P a → Answers (f a) Q) : Answers (x >>= f) Q := by
  intro s b s' hok
  obtain ⟨a, s₁, hxa, hfa⟩ := EStateM.bind_eq_ok.mp hok
  exact hf a (hx s a s₁ hxa) s₁ b s' hfa

/-- What a step comes to is up to its last part. -/
theorem after (hf : ∀ a, Answers (f a) Q) : Answers (x >>= f) Q :=
  bind (P := fun _ => True) (fun _ _ _ _ => trivial) fun a _ => hf a

theorem asmInGen {x : Asm α} (h : Answers x P) : Answers (liftM x : Gen α) P := by
  intro s a s' hok
  change Gen.onAsm x s = _ at hok
  simp only [Gen.onAsm] at hok
  split at hok
  · rename_i hxa
    cases hok
    exact h _ _ _ hxa
  · cases hok

end Answers

namespace Fails

variable {σ α β : Type} {x : EStateM Error σ α} {f : α → EStateM Error σ β}

theorem throw {e : Error} : Fails (MonadExcept.throw e : EStateM Error σ α) := Answers.throw

theorem bind {Q : β → Prop} (h : Fails x) : Answers (x >>= f) Q :=
  Answers.bind h fun _ => False.elim

theorem after (h : ∀ a, Fails (f a)) : Fails (x >>= f) := Answers.after h

theorem asmInGen {x : Asm α} (h : Fails x) : Fails (liftM x : Gen α) := Answers.asmInGen h

theorem runs [Part σ] {limited : Bool} {g : Ghost} {m : Multiset ℕ} {y : EStateM Error σ α}
    {Q : Ghost → Multiset ℕ → α → α → Prop} (h : Fails x) : Runs limited g m x y Q :=
  fun _ _ _ _ a p _ _ hx _ _ => (h _ a p hx).elim

theorem straight [Part σ] (h : Fails x) : Straight x := fun _ => h.runs

end Fails

/-! ### Values with branches in them -/

/-- What a step comes to in the two runs, with the branches it holds; where control comes to
the step, it goes on behind it. -/
def Valued {α : Type} (R : List Seg → α → α → Multiset ℕ → Prop) (g : Ghost) :
    Ghost → Multiset ℕ → α → α → Prop :=
  fun g' m a b => R g'.segs a b m ∧ (g.live = true → g'.live = true)

theorem Valued.after {α : Type} {R : List Seg → α → α → Multiset ℕ → Prop} {g g' g'' : Ghost}
    {m : Multiset ℕ} {a b : α} (h : Valued R g' g'' m a b)
    (hlive : g.live = true → g'.live = true) :
    Valued R g g'' m a b := ⟨h.1, h.2 ∘ hlive⟩

/-- Two conditions that end in the same test; earlier tests have taken the same branches. -/
structure Conds (segs : List Seg) (c d : Cond) (m : Multiset ℕ) : Prop where
  op : c.op = d.op
  test : c.op.IsTest
  chains : ∃ onTrue onFalse, Chains segs c.onTrue d.onTrue onTrue ∧
    Chains segs c.onFalse d.onFalse onFalse ∧ m = onTrue + onFalse

namespace Conds

variable {segs : List Seg} {c d : Cond} {m : Multiset ℕ}

/-- A test that is the first one. -/
theorem first {op : Opcode} (h : op.IsTest) : Conds segs { op } { op } 0 :=
  ⟨rfl, h, 0, 0, .nil, .nil, rfl⟩

theorem ofBool (b : Bool) : Conds segs (.ofBool b) (.ofBool b) 0 := by
  refine first ?_
  cases b
  · exact .inr (.inr rfl)
  · exact .inr (.inl rfl)

theorem negate (h : Conds segs c d m) : Conds segs c.negate d.negate m := by
  obtain ⟨onTrue, onFalse, hT, hF, rfl⟩ := h.chains
  exact ⟨congrArg Opcode.negate h.op, h.test.negate.1, onFalse, onTrue, hF, hT, add_comm _ _⟩

theorem isTrue_eq (h : Conds segs c d m) : c.isTrue = d.isTrue := by
  obtain ⟨onTrue, onFalse, -, hF, -⟩ := h.chains
  rw [Cond.isTrue, Cond.isTrue, h.op, hF.isEmpty_eq]

theorem isFalse_eq (h : Conds segs c d m) : c.isFalse = d.isFalse := by
  obtain ⟨onTrue, onFalse, hT, -, -⟩ := h.chains
  rw [Cond.isFalse, Cond.isFalse, h.op, hT.isEmpty_eq]

theorem grown {F : Multiset ℕ} {g g' : Ghost} (h : Conds g.segs c d m) (hg : Grown F g g')
    (hF : m ≤ F) : Conds g'.segs c d m := by
  obtain ⟨onTrue, onFalse, hT, hFalse, rfl⟩ := h.chains
  refine ⟨h.op, h.test, onTrue, onFalse, hT.grown hg ?_, hFalse.grown hg ?_, rfl⟩
  · exact (Multiset.le_add_right _ _).trans hF
  · exact (Multiset.le_add_left _ _).trans hF

end Conds

/-! ### Writing the last test -/

namespace Cond

variable {g : Ghost} {m m' : Multiset ℕ} {limited : Bool}

theorem join_runs {a b a' b' : Chain} (h : Chains g.segs a b m) (h' : Chains g.segs a' b' m') :
    Runs limited g (m + m') (join a a') (join b b') fun g' n x y => g' = g ∧ n = m + m' ∧
      Chains g.segs x y n ∧ x.isEmpty = (a.isEmpty && a'.isEmpty) := by
  intro F s t hst x p y q hx hy _
  cases hmerge : a.merge a' with
  | error e =>
      rw [join, hmerge] at hx
      cases hx
  | ok r =>
  cases hmerge' : b.merge b' with
  | error e =>
      rw [join, hmerge'] at hy
      cases hy
  | ok r' =>
      rw [join, hmerge] at hx
      rw [join, hmerge'] at hy
      cases hx
      cases hy
      refine ⟨g, m + m', hst, .refl _ _, rfl, rfl, h.merge h' hmerge hmerge', ?_⟩
      rw [(Chain.merge_perm hmerge).isEmpty_eq]
      cases a <;> rfl

/-- What is known of the branches taken once a test has been written, and of where control is
if none of them is taken. -/
structure Taken (g : Ghost) (op : Opcode) (before : Chain) (g' : Ghost) (m : Multiset ℕ)
    (a b : Chain) : Prop where
  chains : Chains g'.segs a b m
  live : op ≠ .goto → g.live = true → g'.live = true
  taken : op ≠ .never → g.live = true → a ≠ []
  before : before ≠ [] → a ≠ []

/-- Control goes on if the test lets it or if there are branches to where it goes on. -/
theorem Taken.live_or {op : Opcode} {before other a b : Chain} {g' g'' : Ghost}
    (h : Taken g op before g' m a b) (hlive : g''.live = (g'.live || !other.isEmpty))
    (hother : op = .goto → other ≠ []) (hg : g.live = true) : g''.live = true := by
  rw [hlive]
  by_cases hop : op = .goto
  · simp [hother hop]
  · rw [h.live hop hg, Bool.true_or]

/-- A test is written behind others. -/
theorem branch_join_runs {op : Opcode} {before before' : Chain} (hop : op.IsTest)
    (h : Chains g.segs before before' m) :
    Runs limited g m (do let jump ← Emit.branch op; join before jump)
      (do let jump ← Emit.branch op; join before' jump) (Taken g op before) := by
  refine (Emit.branch_runs hop).value fun g' m' a b hg ⟨hch, hlive, htaken⟩ => ?_
  refine ((join_runs (h.grown hg le_rfl) hch).mono ?_).cast (add_comm _ _)
  rintro _ _ x y ⟨rfl, rfl, hchains, hempty⟩
  have hne : before ≠ [] ∨ a ≠ [] → x ≠ [] := by
    rintro hne rfl
    rcases hne with hne | hne <;> simp_all
  exact ⟨hchains, hlive, fun hn hg => hne (.inr (htaken hn hg)), fun hn => hne (.inl hn)⟩

theorem jumpTrue_runs {c d : Cond} (h : c.op = d.op) (hop : c.op.IsTest)
    (hch : Chains g.segs c.onTrue d.onTrue m) :
    Runs limited g m c.jumpTrue d.jumpTrue (Taken g c.op c.onTrue) := by
  unfold jumpTrue
  rw [← h]
  exact branch_join_runs hop hch

theorem jumpFalse_runs {c d : Cond} (h : c.op = d.op) (hop : c.op.IsTest)
    (hch : Chains g.segs c.onFalse d.onFalse m) :
    Runs limited g m c.jumpFalse d.jumpFalse (Taken g c.op.negate c.onFalse) := by
  unfold jumpFalse
  rw [← h]
  exact branch_join_runs hop.negate.1 hch

end Cond

/-! ### Both ways of a condition -/

section Fork

variable {σ β : Type} [Part σ] {limited : Bool} {g : Ghost} {m n : Multiset ℕ}
  {R : Ghost → Multiset ℕ → β → β → Prop}

/-- A test is written, and control goes on at the branches of the way that is not taken. -/
theorem Runs.parted (up : ∀ {α : Type}, Emit α → EStateM Error σ α)
    (hup : ∀ {α : Type} {limited : Bool} {g : Ghost} {m : Multiset ℕ} {x y : Emit α}
      {Q : Ghost → Multiset ℕ → α → α → Prop}, Runs limited g m x y Q →
        Runs limited g m (up x) (up y) Q)
    {op : Opcode} {before other other' : Chain} {x y : Emit Chain} {k : Multiset ℕ}
    {f f' : Chain → EStateM Error σ β} (hx : Runs false g m x y (Cond.Taken g op before))
    (hother : Chains g.segs other other' n)
    (hf : ∀ g' m' no no', Grown k g g' → Chains g'.segs no no' m' →
      ((op = .goto → other ≠ []) → g.live = true → g'.live = true) →
      ((op = .never → before ≠ []) → g.live = true → no ≠ []) →
        Runs limited g' (m' + k) (f no) (f' no') R) :
    Runs limited g (m + n + k) (up x >>= fun no => up (Emit.resolve other) >>= fun _ => f no)
      (up y >>= fun no => up (Emit.resolve other') >>= fun _ => f' no) R := by
  refine .cast (.bind (hup hx) fun g₁ m₁ no no' hg₁ hno => ?_) (add_assoc m n k)
  have hother₁ := hother.grown hg₁ (Multiset.le_add_right _ _)
  refine .cast (.spend (hup (Emit.resolve_runs hother₁)) fun g₂ _ _ hg₂ hlive => ?_)
    (add_left_comm m₁ n k)
  refine hf g₂ m₁ no no' ?_ (hno.chains.grown hg₂ (Multiset.le_add_right _ _)) (hno.live_or hlive)
    fun hbefore hg => ?_
  · exact (hg₁.mono (Multiset.le_add_left _ _)).trans (hg₂.mono (Multiset.le_add_left _ _))
  · by_cases hop : op = .never
    · exact hno.before (hbefore hop)
    · exact hno.taken hop hg

/-- One way of a condition is written and then left by a jump, unless it is known not to be
taken. What follows is left with the branches of the other way and with that jump. If `keep`,
control goes on behind what is written. -/
theorem Runs.fork (up : ∀ {α : Type}, Emit α → EStateM Error σ α)
    (hup : ∀ {α : Type} {limited : Bool} {g : Ghost} {m : Multiset ℕ} {x y : Emit α}
      {Q : Ghost → Multiset ℕ → α → α → Prop}, Runs limited g m x y Q →
        Runs limited g m (up x) (up y) Q)
    {c d : Cond} {x y : EStateM Error σ PUnit} {f f' : Chain → Chain → EStateM Error σ β}
    (h : Conds g.segs c d m)
    (keep : Bool) (hcomp : limited = true → Composed (fun _ => True) true y ∧
      ∀ no, Composed (fun _ => True) true (up (Emit.branch .goto) >>= f' no))
    (hx : ∀ g', (g.live = true → g'.live = true) → Runs limited g' 0 x y
      (Plain fun g'' _ _ => keep = true → g'.live = true → g''.live = true))
    (hf : ∀ g' no no' out out' m n, Chains g'.segs no no' m → Chains g'.segs out out' n →
      (keep = true → g.live = true → no ≠ [] ∨ out ≠ []) →
        Runs limited g' (m + n) (f no out) (f' no' out') R) :
    Runs limited g m
      (up c.jumpFalse >>= fun no => if c.isFalse then Pure.pure [] >>= f no else
        up (Emit.resolve c.onTrue) >>= fun _ => x >>= fun _ => up (Emit.branch .goto) >>= f no)
      (up d.jumpFalse >>= fun no => if d.isFalse then Pure.pure [] >>= f' no else
        up (Emit.resolve d.onTrue) >>= fun _ => y >>= fun _ => up
          (Emit.branch .goto) >>= f' no) R := by
  obtain ⟨onTrue, onFalse, hT, hF, rfl⟩ := h.chains
  refine .cast (.bind (hup (Cond.jumpFalse_runs h.op h.test hF)) fun g₁ n no no' hg hno => ?_)
    (add_comm _ _)
  have hT₁ := hT.grown hg le_rfl
  refine .ite (by rw [h.isFalse_eq]) (fun hfalse => ?_) fun hfalse => ?_
  · obtain ⟨hnil, hnever⟩ := Cond.isFalse_iff.mp hfalse
    rw [hnil] at hT₁
    obtain ⟨-, rfl⟩ := hT₁.eq_nil
    refine hf g₁ no no' [] [] n 0 hno.chains .nil fun _ hlive => .inl (hno.taken ?_ hlive)
    rw [hnever]
    decide
  · refine .cast (.bind (hup (Emit.resolve_runs hT₁)) fun g₂ m₂ _ _ hg₂ hres => ?_) (add_comm _ _)
    obtain ⟨rfl, hlive₂⟩ := hres
    have hhere : g.live = true → g₂.live = true :=
      hno.live_or hlive₂ fun hgoto hnil =>
        hfalse (Cond.isFalse_iff.mpr ⟨hnil, h.test.negate.2.2.2.1.mp hgoto⟩)
    refine .seq (hx g₂ hhere) (fun hl => ⟨(hcomp hl).1, fun _ => (hcomp hl).2 no'⟩) ?_
    rintro g₃ m₃ _ _ hg₃ ⟨rfl, hlive₃⟩
    rw [zero_add]
    refine .value (hup (Emit.branch_runs (.inr (.inl rfl)))) fun g₄ m₄ out out' hg₄ hout => ?_
    refine .cast (hf g₄ no no' out out' n m₄ ?_ hout.1 ?_) (add_comm _ _)
    · exact ((hno.chains.grown hg₂ le_rfl).grown hg₃ le_rfl).grown hg₄ le_rfl
    · exact fun hkeep hlive => .inr (hout.2.2 (by decide) (hlive₃ hkeep (hhere hlive)))

/-- The other way of a condition is written if there are branches to it. -/
theorem Runs.otherwise (up : ∀ {α : Type}, Emit α → EStateM Error σ α)
    (hup : ∀ {α : Type} {limited : Bool} {g : Ghost} {m : Multiset ℕ} {x y : Emit α}
      {Q : Ghost → Multiset ℕ → α → α → Prop},
      Runs limited g m x y Q → Runs limited g m (up x) (up y) Q)
    {no no' : Chain} {x y : EStateM Error σ PUnit} {f f' : PUnit → EStateM Error σ β}
    (h : Chains g.segs no no' m) (keep : Bool)
    (hcomp : limited = true → Composed (fun _ => True) true y ∧
      ∀ u, Composed (fun _ => True) true (f' u))
    (hx : ∀ g', g'.live = true →
      Runs limited g' 0 x y (Plain fun g'' _ _ => keep = true → g''.live = true))
    (hf : ∀ g', Grown n g g' → (keep = true → no ≠ [] → g'.live = true) →
      Runs limited g' n (f ⟨⟩) (f' ⟨⟩) R) :
    Runs limited g (m + n)
      (if no.isEmpty then f ⟨⟩ else up (Emit.resolve no) >>= fun _ => x >>= f)
      (if no'.isEmpty then f' ⟨⟩ else up (Emit.resolve no') >>= fun _ => y >>= f') R := by
  refine .ite (by rw [h.isEmpty_eq]) (fun hnil => ?_) fun hne => ?_
  · rw [List.isEmpty_iff] at hnil
    subst hnil
    obtain ⟨-, rfl⟩ := h.eq_nil
    rw [zero_add]
    exact hf g (.refl _ _) fun _ hne => absurd rfl hne
  · refine .bind (hup (Emit.resolve_runs h)) fun g₁ m₁ _ _ hg hres => ?_
    obtain ⟨rfl, hlive⟩ := hres
    have hhere : g₁.live = true := by simp [hlive, hne]
    refine .cast (.seq (hx g₁ hhere) hcomp ?_) rfl
    rintro g₂ m₂ _ _ hg₂ ⟨rfl, hlive₂⟩
    rw [zero_add]
    exact hf g₂ (hg.trans hg₂) fun hkeep _ => hlive₂ hkeep

end Fork

/-- Where both ways of a condition come together again, control goes on. -/
theorem live_of_joined {no out : Chain} {g g' : Ghost} (h : no ≠ [] ∨ out ≠ [])
    (hno : no ≠ [] → g.live = true) (hlive : g'.live = (g.live || !out.isEmpty)) :
    g'.live = true := by
  rw [hlive]
  rcases h with hne | hne
  · rw [hno hne, Bool.true_or]
  · simp [hne]

/-- A condition becomes a value in both codes. -/
theorem Cond.load_runs {limited : Bool} {g : Ghost} {m : Multiset ℕ} {c d : Cond}
    (h : Conds g.segs c d m) : Runs limited g m c.load d.load (Plain (Alike g)) := by
  have hone : Straight (Emit.plain .iconst1) := Emit.straight_plain (by decide)
  have hzero : Straight (Emit.plain .iconst0) := Emit.straight_plain (by decide)
  refine Runs.relax (.fork (fun x => x) id h true nofun (fun g₁ _ => ?_) ?_)
  · exact (hone g₁).mono fun _ _ _ _ h => ⟨h.1, fun _ => h.2.2⟩
  intro g₁ no no' out out' m n hno hout hlive
  refine .otherwise (fun x => x) id hno true nofun (fun g₂ hg₂ => ?_) fun g₂ hg₂ hlive₂ => ?_
  · exact (hzero g₂).mono fun _ _ _ _ h => ⟨h.1, fun _ => h.2.2 hg₂⟩
  · refine (Emit.resolve_runs (hout.grown hg₂ le_rfl)).mono ?_
    rintro g₃ _ _ _ ⟨rfl, hlive₃⟩
    exact ⟨rfl, rfl, fun hg => live_of_joined (hlive rfl hg) (hlive₂ rfl) hlive₃⟩

/-! ### Items without branches -/

namespace Item

theorem straight_loadInt (v : Int32) : Straight (loadInt v) := by
  unfold loadInt
  split
  · exact (Emit.straight_plain (iconst_opcode ‹_›).1).inAsm
  · refine .ite (Emit.straight_byte (by decide) _).inAsm (.ite ?_ ?_)
    · exact (Emit.straight_short (by decide) (by decide) _).inAsm
    · exact (Straight.pooled _).bind fun i => (Emit.straight_ldc i _).inAsm

theorem straight_loadLong (v : Int64) : Straight (loadLong v) :=
  .ite (Emit.straight_plain (by decide)).inAsm <| .ite (Emit.straight_plain (by decide)).inAsm <|
    (Straight.pooled _).bind fun i => (Emit.straight_ldc i _).inAsm

theorem straight_loadFloat (bits : UInt32) : Straight (loadFloat bits) :=
  .ite (Emit.straight_plain (by decide)).inAsm <| .ite (Emit.straight_plain (by decide)).inAsm <|
    .ite (Emit.straight_plain (by decide)).inAsm <|
      (Straight.pooled _).bind fun i => (Emit.straight_ldc i _).inAsm

theorem straight_loadDouble (bits : UInt64) : Straight (loadDouble bits) :=
  .ite (Emit.straight_plain (by decide)).inAsm <| .ite (Emit.straight_plain (by decide)).inAsm <|
    (Straight.pooled _).bind fun i => (Emit.straight_ldc i _).inAsm

theorem straight_loadConst (k : Kind) (c : Const) : Straight (loadConst k c) := by
  have hput : Straight (do Emit.ldc (← Asm.pooled (·.putConst c)) .object : Asm Unit) :=
    (Straight.pooled _).bind fun i => (Emit.straight_ldc i _).inAsm
  cases k with
  | int | byte | short | char => exact straight_loadInt _
  | long => exact straight_loadLong _
  | float => exact straight_loadFloat _
  | double => exact straight_loadDouble _
  | object | void => exact hput

theorem straight_onRegister {family short : Opcode} {k : Kind} (reg : UInt16)
    (hfamily : (family + k.widen.code).IsStraight)
    (hshort : ∀ r < 4, (short + k.widen.code * 4 + UInt8.ofNat r).IsStraight) :
    Straight (onRegister family short k reg) := by
  unfold onRegister
  split
  · have hlt : reg.toNat < 4 := Nat.lt_succ_of_le (UInt16.le_iff_toNat_le.mp ‹_›)
    exact Emit.straight_plain (hshort _ hlt)
  · exact Emit.straight_register hfamily reg

/-- Access to a field. -/
theorem straight_access {op : Opcode} (m : MemberRef)
    (hop : op = .getstatic ∨ op = .putstatic ∨ op = .getfield ∨ op = .putfield) :
    Straight (do Emit.field op (← Asm.memberIndex m) m.kind : Asm Unit) :=
  (Straight.pooled _).bind fun i => (Emit.straight_field i _ hop).inAsm

theorem straight_illegal {α : Type} (i : Item) (use : String) : Straight (i.illegal use : Asm α) :=
  .throw

theorem straight_dupKind (k : Kind) : Straight (dupKind k) := by
  unfold dupKind
  split
  · exact .pure
  · exact Emit.straight_plain (by decide)
  · exact Emit.straight_plain (by decide)

theorem straight_store (i : Item) : Straight i.store := by
  cases i with
  | var k reg =>
      exact (straight_onRegister reg (store_opcode k).1 fun r hr =>
        (store_opcode_short k r hr).1).inAsm.bind
        fun _ => (Emit.straight_define reg).inAsm
  | static m => exact straight_access m (by decide)
  | member m _ => exact straight_access m (by decide)
  | indexed k => exact (Emit.straight_plain (store_array_opcode k).1).inAsm
  | void | stack _ | self _ | const _ _ | assign _ | cond _ => exact straight_illegal _ _

theorem straight_stash (i : Item) (k : Kind) : Straight (i.stash k) := by
  have hX1 : Straight (Emit.plain (Opcode.dupX1 + 3 * (.ofNat k.width - 1)) : Asm Unit) :=
    (Emit.straight_plain (stash_opcode k).1.1).inAsm
  have hX2 : Straight (Emit.plain (Opcode.dupX2 + 3 * (.ofNat k.width - 1)) : Asm Unit) :=
    (Emit.straight_plain (stash_opcode k).2.1).inAsm
  cases i with
  | stack k' =>
      unfold stash
      dsimp only
      split
      · exact hX2
      · exact hX1
  | member _ _ => exact hX1
  | indexed _ => exact hX2
  | assign _ | cond _ => exact straight_illegal _ _
  | void | self _ | var _ _ | static _ | const _ _ => exact (straight_dupKind k).inAsm

theorem straight_invoke (i : Item) : Straight i.invoke := by
  cases i with
  | static m =>
      exact (Straight.pooled _).bind fun i => (Emit.straight_invoke i _ _ (by decide)).inAsm.bind
        fun _ => .pure
  | member m nonvirtual =>
      refine (Straight.pooled _).bind fun i => (Emit.straight_invoke i _ _ ?_).inAsm.bind
        fun _ => .pure
      split
      · decide
      · split <;> decide
  | void | stack _ | self _ | var _ _ | indexed _ | const _ _ | assign _ | cond _ =>
      exact straight_illegal _ _

theorem straight_convert (source target : Kind) : Straight (convert source target) := by
  have hlast : ∀ _ : PUnit, Straight (do
      if target ≠ target.widen then Emit.plain (.i2b + (target.code - Kind.byte.code)) :
        Emit Unit) := by
    intro _
    split
    · exact Emit.straight_plain (narrow_opcode target ‹_›).1
    · exact .pure
  unfold convert
  dsimp only
  split
  · rename_i hne
    split
    · exact Fails.straight (Fails.throw.bind)
    · rename_i hnumeric
      simp only [Bool.or_eq_true, Bool.not_eq_true', not_or, Bool.not_eq_false] at hnumeric
      exact (Emit.straight_plain (convert_opcode _ _ hne hnumeric.1 hnumeric.2).1).bind hlast
  · exact hlast ⟨⟩

/-- Whether the item is a condition. -/
def isCond : Item → Bool
  | cond _ => true
  | _ => false

theorem straight_load {i : Item} (h : i.isCond = false) : Straight i.load := by
  cases i with
  | void => exact straight_illegal _ _
  | stack k => exact .pure
  | self _ => exact (Emit.straight_plain (by decide)).inAsm.bind fun _ => .pure
  | var k reg =>
      exact (straight_onRegister reg (load_opcode k).1 fun r hr =>
        (load_opcode_short k r hr).1).inAsm.bind
        fun _ => .pure
  | static m =>
      exact (Straight.pooled _).bind fun i => (Emit.straight_field i _ (by decide)).inAsm.bind
        fun _ => .pure
  | member m _ =>
      exact (Straight.pooled _).bind fun i => (Emit.straight_field i _ (by decide)).inAsm.bind
        fun _ => .pure
  | indexed k => exact (Emit.straight_plain (load_array_opcode k).1).inAsm.bind fun _ => .pure
  | const k c => exact (straight_loadConst k c).bind fun _ => .pure
  | assign lhs =>
      exact (straight_stash lhs _).bind fun _ => (straight_store lhs).bind fun _ => .pure
  | cond c => cases h

theorem straight_duplicate {i : Item} (h : i.isCond = false) : Straight i.duplicate := by
  cases i with
  | stack k =>
      show Straight (liftM (Emit.plain (if k.width = 2 then .dup2 else .dup)) : Asm Unit)
      split <;> exact (Emit.straight_plain (by decide)).inAsm
  | member _ _ | indexed _ => exact (Emit.straight_plain (by decide)).inAsm
  | assign lhs =>
      exact (straight_load rfl).bind fun i => (straight_dupKind i.kind).inAsm
  | cond c => cases h
  | void | self _ | var _ _ | static _ | const _ _ => exact .pure

theorem straight_coerce {i : Item} (h : i.isCond = false) (target : Kind) :
    Straight (i.coerce target) := by
  unfold coerce
  refine .ite .pure ?_
  dsimp only
  split
  · exact .pure
  · exact (straight_load h).bind fun _ => (straight_convert _ _).inAsm.bind fun _ => .pure

theorem straight_increment (i : Item) (delta : Int32) : Straight (i.increment delta) := by
  cases i with
  | var k reg =>
      have hend : ∀ _ : PUnit, Straight (do
          let _ ← (Item.stack .int).coerce k
          (Item.var k reg).store : Asm Unit) :=
        fun _ => (straight_coerce rfl _).bind fun _ => straight_store _
      refine .ite (Emit.straight_iinc reg _).inAsm ((straight_load rfl).bind fun _ => .ite ?_ ?_)
      · exact (straight_load rfl).bind fun _ => (Emit.straight_plain (by decide)).inAsm.bind hend
      · exact (straight_load rfl).bind fun _ => (Emit.straight_plain (by decide)).inAsm.bind hend
  | void | stack _ | self _ | static _ | member _ _ | indexed _ | const _ _ | assign _ | cond _ =>
      exact straight_illegal _ _

theorem isCond_ofKind (k : Kind) : (ofKind k).isCond = false := by
  unfold ofKind
  split <;> rfl

/-- A value that has been loaded is on the stack. -/
theorem answers_load (i : Item) : Answers i.load (·.isCond = false) := by
  cases i with
  | stack k => exact .pure rfl
  | self _ | cond _ => exact .after fun _ => .pure rfl
  | var k _ | indexed k | const k _ => exact .after fun _ => .pure (isCond_ofKind k)
  | static m | member m _ => exact .after fun _ => .after fun _ => .pure (isCond_ofKind m.kind)
  | assign lhs => exact .after fun _ => .after fun _ => .pure (isCond_ofKind lhs.kind)
  | void => exact .throw

theorem answers_coerce {i : Item} (h : i.isCond = false) (target : Kind) :
    Answers (i.coerce target) (·.isCond = false) := by
  unfold coerce
  split
  · exact .pure h
  · dsimp only
    split
    · rename_i b hb
      refine .pure ?_
      split at hb
      · split at hb
        · cases hb
          exact h
        · obtain ⟨c', -, rfl⟩ := Option.map_eq_some_iff.mp hb
          rfl
      · cases hb
    · exact .after fun _ => .after fun _ => .pure (isCond_ofKind target)

theorem answers_invoke (i : Item) : Answers i.invoke (·.isCond = false) := by
  cases i with
  | static m | member m _ => exact .after fun _ => .after fun _ => .pure (isCond_ofKind m.kind)
  | _ => exact .throw

/-! ### Items of no use -/

/-- Whether the item is an assignment to something that cannot be assigned to. -/
def isDoomed : Item → Bool
  | assign (assign _) | assign (cond _) => true
  | _ => false

theorem isDoomed_assign {i : Item} (h : i.isCond = true ∨ i.isDoomed = true) :
    (assign i).isDoomed = true := by
  cases i <;> first | rfl | simp [isCond, isDoomed] at h

theorem eq_assign {i : Item} (h : i.isDoomed = true) : ∃ lhs, i = assign lhs ∧
    Fails lhs.store ∧ ∀ k, Fails (lhs.stash k) := by
  cases i with
  | assign lhs =>
      cases lhs with
      | assign _ | cond _ => exact ⟨_, rfl, .throw, fun _ => .throw⟩
      | _ => cases h
  | _ => cases h

theorem fails_load {i : Item} (h : i.isDoomed = true) : Fails i.load := by
  obtain ⟨lhs, rfl, -, hstash⟩ := eq_assign h
  exact (hstash _).bind

theorem fails_duplicate {i : Item} (h : i.isDoomed = true) : Fails i.duplicate := by
  have hload := fails_load h
  obtain ⟨lhs, rfl, -⟩ := eq_assign h
  exact hload.bind

theorem fails_discard {i : Item} (h : i.isDoomed = true) : Fails i.discard := by
  obtain ⟨lhs, rfl, hstore, -⟩ := eq_assign h
  exact hstore

theorem fails_toCond {i : Item} (h : i.isDoomed = true) : Fails i.toCond := by
  have hload := fails_load h
  obtain ⟨lhs, rfl, -⟩ := eq_assign h
  exact hload.bind

theorem fails_invoke {i : Item} (h : i.isDoomed = true) : Fails i.invoke := by
  obtain ⟨lhs, rfl, -⟩ := eq_assign h
  exact .throw

theorem isVar_of_isDoomed {i : Item} (h : i.isDoomed = true) : i.isVar = false := by
  obtain ⟨lhs, rfl, -⟩ := eq_assign h
  rfl

/-- What an item keeps on the stack, unless it is of no use. -/
theorem width_le {i : Item} (h : i.isDoomed = false) : i.width ≤ 4 := by
  have hkind (k : Kind) : k.width ≤ 2 := by cases k <;> decide
  have hplace (i : Item) (h : ∀ lhs, i ≠ assign lhs) : i.width ≤ 2 := by
    cases i with
    | stack k => exact hkind k
    | assign lhs => exact absurd rfl (h lhs)
    | _ => simp [width]
  cases i with
  | assign lhs =>
      refine Nat.add_le_add (hplace lhs fun lhs' hlhs => ?_) (hkind _)
      rw [hlhs] at h
      cases h
  | _ => exact Nat.le_trans (hplace _ nofun) (by decide)

/-- A conversion does not help. -/
theorem isDoomed_coerce {i : Item} (h : i.isDoomed = true) (target : Kind) :
    Answers (i.coerce target) (·.isDoomed = true) := by
  have hload := fails_load h
  obtain ⟨lhs, rfl, -⟩ := eq_assign h
  unfold coerce
  split
  · exact .pure h
  · exact hload.bind

end Item

/-! ### Corresponding items -/

/-- Two items are the same, or conditions with the same branches. -/
inductive Items (segs : List Seg) : Item → Item → Multiset ℕ → Prop
  | same {i : Item} (h : i.isCond = false) : Items segs i i 0
  | cond {c d : Cond} {m : Multiset ℕ} (h : Conds segs c d m) : Items segs (.cond c) (.cond d) m

namespace Items

variable {segs : List Seg} {i j : Item} {m : Multiset ℕ}

theorem grown {F : Multiset ℕ} {g g' : Ghost} (h : Items g.segs i j m) (hg : Grown F g g')
    (hF : m ≤ F) : Items g'.segs i j m := by
  cases h with
  | same h => exact .same h
  | cond h => exact .cond (h.grown hg hF)

theorem ofKind (k : Kind) : Items segs (.ofKind k) (.ofKind k) 0 := .same (Item.isCond_ofKind k)

end Items

/-- Both runs come to the same item on the stack. -/
def OnStack (g : Ghost) : Ghost → Item → Item → Prop :=
  fun g' a b => a = b ∧ a.isCond = false ∧ (g.live = true → g'.live = true)

theorem OnStack.after {g g' g'' : Ghost} {a b : Item} (h : OnStack g' g'' a b)
    (hlive : g.live = true → g'.live = true) : OnStack g g'' a b := ⟨h.1, h.2.1, h.2.2 ∘ hlive⟩

/-- A step that comes to the same item in both runs, which is not a condition. -/
theorem Straight.onStack {σ : Type} [Part σ] {x : EStateM Error σ Item} {limited : Bool} {g : Ghost}
    (h : Straight x) (hx : Answers x (·.isCond = false)) :
    Runs limited g 0 x x (Plain (OnStack g)) := by
  intro F s t hst a p b q hxa hyb hlim
  obtain ⟨g', m', htied, hgrown, hm, hab, hlive⟩ := (h g).relax F s t hst a p b q hxa hyb hlim
  exact ⟨g', m', htied, hgrown, hm, hab, hx _ _ _ hxa, hlive⟩

namespace Item

variable {g : Ghost} {m : Multiset ℕ} {limited : Bool} {i j : Item}

theorem load_runs (h : Items g.segs i j m) :
    Runs limited g m i.load j.load (Plain (OnStack g)) := by
  cases h with
  | same h => exact (straight_load h).onStack (answers_load _)
  | cond h =>
      exact (Cond.load_runs h).inAsm.spendAll fun g' _ _ halike => .pure ⟨rfl, rfl, rfl, halike.2⟩

theorem invoke_runs (h : Items g.segs i j m) :
    Runs limited g m i.invoke j.invoke (Plain (OnStack g)) := by
  cases h with
  | @same i h => exact (straight_invoke i).onStack (answers_invoke i)
  | cond h => exact .throw

theorem discard_runs (h : Items g.segs i j m) :
    Runs limited g m i.discard j.discard (Plain (Alike g)) := by
  cases h with
  | cond h =>
      refine (Cond.load_runs h).inAsm.spendAll fun g' _ _ halike => ?_
      refine ((Emit.straight_plain (by decide)).inAsm g').relax.mono ?_
      exact fun _ _ _ _ h => ⟨h.1, h.2.1, fun hg => h.2.2 (halike.2 hg)⟩
  | @same i h =>
      suffices hsame : Straight i.discard from (hsame g).relax
      cases i with
      | stack k =>
          show Straight (liftM (Emit.plain (if k.width = 2 then .pop2 else .pop)) : Asm Unit)
          split <;> exact (Emit.straight_plain (by decide)).inAsm
      | member _ _ | indexed _ => exact (Emit.straight_plain (by decide)).inAsm
      | assign lhs => exact straight_store lhs
      | cond c => cases h
      | void | self _ | var _ _ | static _ | const _ _ => exact .pure

theorem coerce_runs (h : Items g.segs i j m) (target : Kind) :
    Runs limited g m (i.coerce target) (j.coerce target) (Valued Items g) := by
  cases h with
  | cond h =>
      refine .ite .rfl (fun _ => .pure ⟨.cond h, id⟩) fun _ => ?_
      refine (load_runs (.cond h)).spendAll fun g₁ _ _ hload => ?_
      refine (straight_convert _ _).inAsm.step fun g₂ _ _ hlive => .pure ⟨.ofKind target, ?_⟩
      exact hlive ∘ hload.2.2
  | @same i h =>
      refine ((straight_coerce h target).onStack (answers_coerce h target)).mono ?_
      rintro g' _ a _ ⟨rfl, rfl, ha, hlive⟩
      exact ⟨.same ha, hlive⟩

theorem toCond_runs (h : Items g.segs i j m) :
    Runs limited g m i.toCond j.toCond (Valued Conds g) := by
  cases h with
  | cond h => exact .pure ⟨h, id⟩
  | @same i h =>
      have hvalue : Runs limited g 0 (do let _ ← i.load; return { op := .ifne } : Asm Cond)
          (do let _ ← i.load; return { op := .ifne }) (Valued Conds g) :=
        (straight_load h).step fun g' _ _ hlive => .pure ⟨.first (.inl (by decide)), hlive⟩
      cases i with
      | const k c => exact .pure ⟨.ofBool _, id⟩
      | cond c => cases h
      | _ => exact hvalue

end Item

end StackCode
