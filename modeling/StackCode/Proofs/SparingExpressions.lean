import StackCode.Proofs.Sparing

/-!
# Expressions leave code alone

The branches that a condition has taken are in its hands until they are made to wait, and a
stretch of code is left alone if they lie off it. `Cond.Off` and `Item.Off` say so, and
`ExprCode.Sparing` says that the code of an expression spares a zone and comes to such items and
conditions, whatever is wanted of it.

With the flag set, control is known to come to the expression and goes on behind it; only a
`letIn` may stop it.
-/

set_option maxRecDepth 4000

namespace StackCode

/-! ### Conditions -/

/-- The branches that a condition has taken lie off the zone. -/
structure Cond.Off (z : Zone) (c : Cond) : Prop where
  test : c.op.IsTest
  onTrue : z.Avoids c.onTrue
  onFalse : z.Avoids c.onFalse

/-- The branches of an item lie off the zone, if it is a condition. -/
def Item.Off (z : Zone) (i : Item) : Prop := ∀ c, i = .cond c → c.Off z

namespace Cond

variable {z : Zone} {l : Bool} {c : Cond}

theorem off_first {op : Opcode} (h : op.IsTest) : Cond.Off z { op } := ⟨h, .nil, .nil⟩

theorem off_ofBool (b : Bool) : Off z (ofBool b) := by
  refine off_first ?_
  cases b
  · exact .inr (.inr rfl)
  · exact .inr (.inl rfl)

theorem Off.negate (h : c.Off z) : c.negate.Off z := ⟨h.test.negate.1, h.onFalse, h.onTrue⟩

theorem spares_join {a b : Chain} (ha : z.Avoids a) (hb : z.Avoids b) :
    Spares z l l (join a b) fun chain => z.Avoids chain ∧ (a ≠ [] ∨ b ≠ [] → chain ≠ []) := by
  unfold join
  split
  · rename_i merged hmerge
    refine .pure ⟨ha.merge hb hmerge, fun hne hnil => ?_⟩
    have hperm := Chain.merge_perm hmerge
    rw [hnil] at hperm
    have happend := List.nil_perm.mp hperm
    rw [List.append_eq_nil_iff] at happend
    rcases hne with hne | hne
    · exact hne happend.1
    · exact hne happend.2
  · exact .throw

/-- The opposite of the last test is written. -/
theorem spares_jumpFalse (h : c.Off z) :
    Spares z l (l && c.op != .never) c.jumpFalse fun no => z.Avoids no ∧
      (l = true → c.isTrue = false → no ≠ []) := by
  obtain ⟨hneg, -, -, hgoto, hnever⟩ := h.test.negate
  have hflag : (l && c.op.negate != .goto) = (l && c.op != .never) := by
    congr 1
    rw [Bool.eq_iff_iff, bne_iff_ne, bne_iff_ne, ne_eq, hgoto]
  refine hflag ▸ (Emit.spares_branch hneg).bind fun jump hjump => ?_
  refine (spares_join h.onFalse hjump.1).mono fun no hno => ⟨hno.1, fun hl htrue => hno.2 ?_⟩
  by_cases hop : c.op = .goto
  · refine .inl fun hnil => ?_
    rw [isTrue_iff.mpr ⟨hnil, hop⟩] at htrue
    cases htrue
  · exact .inr (hjump.2 hl fun hop' => hop (hnever.mp hop'))

/-- The last test is written. -/
theorem spares_jumpTrue (h : c.Off z) :
    Spares z l (l && c.op != .goto) c.jumpTrue fun yes => z.Avoids yes := by
  refine (Emit.spares_branch h.test).bind fun jump hjump => ?_
  exact (spares_join h.onTrue hjump.1).mono fun yes hyes => hyes.1

/-- Unless the condition is known not to hold, control comes to where it does. -/
theorem live_onTrue (h : l = true → c.isFalse = false) (hl : l = true) :
    (l && c.op != .never || !c.onTrue.isEmpty) = true := by
  have hfalse := h hl
  simp only [isFalse, Bool.and_eq_false_iff, hl, Bool.true_and, Bool.or_eq_true, bne_iff_ne,
    Bool.not_eq_true', beq_eq_false_iff_ne] at hfalse ⊢
  exact hfalse.symm

theorem live_onFalse (h : l = true → c.isTrue = false) (hl : l = true) :
    (l && c.op != .goto || !c.onFalse.isEmpty) = true := by
  have htrue := h hl
  simp only [isTrue, Bool.and_eq_false_iff, hl, Bool.true_and, Bool.or_eq_true, bne_iff_ne,
    Bool.not_eq_true', beq_eq_false_iff_ne] at htrue ⊢
  exact htrue.symm

end Cond

/-! ### Both ways of a condition -/

section Fork

variable {σ β : Type} [Part σ] {z : Zone} {l l' : Bool} {c : Cond} {R : β → Prop}

/-- The opposite of a test is written, and control goes on where the condition holds. -/
theorem Spares.partFalse (up : ∀ {α : Type}, Emit α → EStateM Error σ α)
    (hup : ∀ {α : Type} {l l' : Bool} {x : Emit α} {Q : α → Prop}, Spares z l l' x Q →
      Spares z l l' (up x) Q)
    {f : Chain → EStateM Error σ β} (h : c.Off z) (hfalse : l = true → c.isFalse = false)
    (hf : ∀ no, z.Avoids no → (l = true → c.isTrue = false → no ≠ []) → Spares z l l' (f no) R) :
    Spares z l l' (up c.jumpFalse >>= fun no => up (Emit.resolve c.onTrue) >>= fun _ =>
      f no) R := by
  refine (hup (Cond.spares_jumpFalse h)).bind fun no hno =>
    (hup (Emit.spares_resolve h.onTrue)).next fun _ => ?_
  exact (hf no hno.1 hno.2).relax (Cond.live_onTrue hfalse) id

/-- A test is written, and control goes on where the condition does not hold. -/
theorem Spares.partTrue (up : ∀ {α : Type}, Emit α → EStateM Error σ α)
    (hup : ∀ {α : Type} {l l' : Bool} {x : Emit α} {Q : α → Prop}, Spares z l l' x Q →
      Spares z l l' (up x) Q)
    {f : Chain → EStateM Error σ β} (h : c.Off z) (htrue : l = true → c.isTrue = false)
    (hf : ∀ yes, z.Avoids yes → Spares z l l' (f yes) R) :
    Spares z l l' (up c.jumpTrue >>= fun yes => up (Emit.resolve c.onFalse) >>= fun _ =>
      f yes) R := by
  refine (hup (Cond.spares_jumpTrue h)).bind fun yes hyes =>
    (hup (Emit.spares_resolve h.onFalse)).next fun _ => ?_
  exact (hf yes hyes).relax (Cond.live_onFalse htrue) id

/-- One way of a condition is written and then left by a jump, unless it is known not to be
taken. What follows is left with the branches of the other way and with that jump. -/
theorem Spares.fork (up : ∀ {α : Type}, Emit α → EStateM Error σ α)
    (hup : ∀ {α : Type} {l l' : Bool} {x : Emit α} {Q : α → Prop}, Spares z l l' x Q →
      Spares z l l' (up x) Q)
    {x : EStateM Error σ PUnit} {f : Chain → Chain → EStateM Error σ β} (h : c.Off z)
    (hx : Steady z l x)
    (hf : ∀ no out, z.Avoids no → z.Avoids out → (l = true → no ≠ [] ∨ out ≠ []) →
      Spares z false l' (f no out) R) :
    Spares z l l' (up c.jumpFalse >>= fun no => if c.isFalse then Pure.pure [] >>= f no else
      up (Emit.resolve c.onTrue) >>= fun _ => x >>= fun _ => up
        (Emit.branch .goto) >>= f no) R := by
  refine (hup (Cond.spares_jumpFalse h)).bind fun no hno => .ite (fun hfalse => ?_) fun hfalse => ?_
  · refine (hf no [] hno.1 .nil fun hl => .inl (hno.2 hl ?_)).anywhere
    obtain ⟨-, hop⟩ := Cond.isFalse_iff.mp hfalse
    rw [Cond.isTrue, hop]
    exact Bool.and_false _
  · refine (hup (Emit.spares_resolve h.onTrue)).next fun _ => ?_
    refine Spares.relax (l := l) ?_ (Cond.live_onTrue fun _ => by simpa using hfalse) id
    refine hx.next fun _ => (hup (Emit.spares_branch (.inr (.inl rfl)))).bind fun out hout => ?_
    exact (hf no out hno.1 hout.1 fun hl => .inr (hout.2 hl (by decide))).anywhere

/-- The other way of a condition is written if there are branches to it. -/
theorem Spares.otherwise (up : ∀ {α : Type}, Emit α → EStateM Error σ α)
    (hup : ∀ {α : Type} {l l' : Bool} {x : Emit α} {Q : α → Prop}, Spares z l l' x Q →
      Spares z l l' (up x) Q)
    {no : Chain} {x : EStateM Error σ PUnit} {f : PUnit → EStateM Error σ β} (h : z.Avoids no)
    (hx : Steady z l x) (hf : Spares z (l && !no.isEmpty) l' (f ⟨⟩) R) :
    Spares z false l' (if no.isEmpty then f ⟨⟩ else up (Emit.resolve no) >>= fun _ =>
      x >>= f) R := by
  refine .ite (fun hnil => ?_) fun hne => ?_
  · rwa [hnil, Bool.not_true, Bool.and_false] at hf
  · rw [Bool.eq_false_iff.mpr hne, Bool.not_false, Bool.and_true] at hf
    refine (hup (Emit.spares_resolve h)).next fun _ => .relax (hx.next fun _ => hf) (fun _ => ?_) id
    simp [hne]

/-- Where both ways of a condition come together again, control goes on. -/
theorem Emit.spares_joined {no out : Chain} (h : z.Avoids out)
    (hlive : l = true → no ≠ [] ∨ out ≠ []) :
    Spares z (l && !no.isEmpty) l (Emit.resolve out) fun _ => True := by
  refine (Emit.spares_resolve h).relax id fun hl => ?_
  rcases hlive hl with hne | hne
  · simp [hl, hne]
  · simp [hne]

end Fork

variable {z : Zone} {l : Bool}

/-- A condition becomes a value. -/
theorem Cond.steady_load {c : Cond} (h : c.Off z) : Steady z l c.load := by
  have hone : Steady z l (Emit.plain .iconst1) := Emit.steady_plain fun _ => by decide
  have hzero : Steady z l (Emit.plain .iconst0) := Emit.steady_plain fun _ => by decide
  refine .fork (fun x => x) id h hone fun no out hno hout hlive => ?_
  exact .otherwise (fun x => x) id hno hzero (Emit.spares_joined hout hlive)

/-! ### Items -/

namespace Item

theorem off_of_not_isCond {i : Item} (h : i.isCond = false) : i.Off z := by
  rintro c rfl
  cases h

theorem off_cond {c : Cond} (h : c.Off z) : (cond c).Off z := by
  rintro _ ⟨⟩
  exact h

theorem off_ofKind (k : Kind) : (ofKind k).Off z := off_of_not_isCond (isCond_ofKind k)

theorem steady_loadInt (v : Int32) : Steady z l (loadInt v) := by
  unfold loadInt
  split
  · exact (Emit.steady_plain fun _ => (iconst_opcode ‹_›).1).inAsm
  · refine .ite (Emit.steady_byte (by decide) _).inAsm (.ite ?_ ?_)
    · exact (Emit.steady_short (by decide) _).inAsm
    · exact (Steady.pooled _).next fun i => (Emit.steady_ldc i _).inAsm

theorem steady_loadLong (v : Int64) : Steady z l (loadLong v) :=
  .ite (Emit.steady_plain fun _ => by decide).inAsm <|
    .ite (Emit.steady_plain fun _ => by decide).inAsm <|
    (Steady.pooled _).next fun i => (Emit.steady_ldc i _).inAsm

theorem steady_loadFloat (bits : UInt32) : Steady z l (loadFloat bits) :=
  .ite (Emit.steady_plain fun _ => by decide).inAsm <|
    .ite (Emit.steady_plain fun _ => by decide).inAsm <|
    .ite (Emit.steady_plain fun _ => by decide).inAsm <|
      (Steady.pooled _).next fun i => (Emit.steady_ldc i _).inAsm

theorem steady_loadDouble (bits : UInt64) : Steady z l (loadDouble bits) :=
  .ite (Emit.steady_plain fun _ => by decide).inAsm <|
    .ite (Emit.steady_plain fun _ => by decide).inAsm <|
    (Steady.pooled _).next fun i => (Emit.steady_ldc i _).inAsm

theorem steady_loadConst (k : Kind) (c : Const) : Steady z l (loadConst k c) := by
  have hput : Steady z l (do Emit.ldc (← Asm.pooled (·.putConst c)) .object : Asm Unit) :=
    (Steady.pooled _).next fun i => (Emit.steady_ldc i _).inAsm
  cases k with
  | int | byte | short | char => exact steady_loadInt _
  | long => exact steady_loadLong _
  | float => exact steady_loadFloat _
  | double => exact steady_loadDouble _
  | object | void => exact hput

theorem steady_onRegister {family short : Opcode} {k : Kind} (reg : UInt16)
    (hfamily : (family + k.widen.code).IsStraight)
    (hshort : ∀ r < 4, (short + k.widen.code * 4 + UInt8.ofNat r).IsStraight) :
    Steady z l (onRegister family short k reg) := by
  unfold onRegister
  split
  · have hlt : reg.toNat < 4 := Nat.lt_succ_of_le (UInt16.le_iff_toNat_le.mp ‹_›)
    exact Emit.steady_plain fun _ => hshort _ hlt
  · exact Emit.steady_register (fun _ => hfamily) reg

/-- Access to a field. -/
theorem steady_access {op : Opcode} (m : MemberRef)
    (hop : op = .getstatic ∨ op = .putstatic ∨ op = .getfield ∨ op = .putfield) :
    Steady z l (do Emit.field op (← Asm.memberIndex m) m.kind : Asm Unit) :=
  (Steady.pooled _).next fun i => (Emit.steady_field i _ hop).inAsm

theorem steady_illegal {α : Type} (i : Item) (use : String) : Steady z l (i.illegal use : Asm α) :=
  .throw

theorem steady_dupKind (k : Kind) : Steady z l (dupKind k) := by
  unfold dupKind
  split
  · exact .pure
  · exact Emit.steady_plain fun _ => by decide
  · exact Emit.steady_plain fun _ => by decide

theorem steady_define (reg : UInt16) :
    Steady z l (modify fun s => { s with code := s.code.define reg } : Asm Unit) := by
  rintro s _ _ ⟨⟩ hs
  have hdefine : z.Spared s.asm.code (s.asm.code.define reg) := hs.toClear.still rfl rfl rfl
  exact ⟨hs.withCode hdefine.toClear hs.live, hdefine.same, trivial⟩

theorem steady_store (i : Item) : Steady z l i.store := by
  cases i with
  | var k reg =>
      exact (steady_onRegister reg (store_opcode k).1 fun r hr =>
        (store_opcode_short k r hr).1).inAsm.next
        fun _ => steady_define reg
  | static m => exact steady_access m (by decide)
  | member m _ => exact steady_access m (by decide)
  | indexed k => exact (Emit.steady_plain fun _ => (store_array_opcode k).1).inAsm
  | void | stack _ | self _ | const _ _ | assign _ | cond _ => exact steady_illegal _ _

theorem steady_stash (i : Item) (k : Kind) : Steady z l (i.stash k) := by
  have hX1 : Steady z l (Emit.plain (Opcode.dupX1 + 3 * (.ofNat k.width - 1)) : Asm Unit) :=
    (Emit.steady_plain fun _ => (stash_opcode k).1.1).inAsm
  have hX2 : Steady z l (Emit.plain (Opcode.dupX2 + 3 * (.ofNat k.width - 1)) : Asm Unit) :=
    (Emit.steady_plain fun _ => (stash_opcode k).2.1).inAsm
  cases i with
  | stack k' =>
      unfold stash
      dsimp only
      split
      · exact hX2
      · exact hX1
  | member _ _ => exact hX1
  | indexed _ => exact hX2
  | assign _ | cond _ => exact steady_illegal _ _
  | void | self _ | var _ _ | static _ | const _ _ => exact (steady_dupKind k).inAsm

theorem spares_invoke (i : Item) : Spares z l l i.invoke (·.isCond = false) := by
  refine Steady.answers ?_ (answers_invoke i)
  cases i with
  | static m =>
      exact (Steady.pooled _).next fun i => Spares.inAsm (Emit.steady_invoke _ i _ _) |>.next
        fun _ => .pure trivial
  | member m nonvirtual =>
      exact (Steady.pooled _).next fun i => Spares.inAsm (Emit.steady_invoke _ i _ _) |>.next
        fun _ => .pure trivial
  | void | stack _ | self _ | var _ _ | indexed _ | const _ _ | assign _ | cond _ =>
      exact steady_illegal _ _

theorem steady_convert (source target : Kind) : Steady z l (convert source target) := by
  have hlast : ∀ _ : PUnit, Steady z l (do
      if target ≠ target.widen then Emit.plain (.i2b + (target.code - Kind.byte.code)) :
        Emit Unit) := by
    intro _
    split
    · exact Emit.steady_plain fun _ => (narrow_opcode target ‹_›).1
    · exact .pure
  unfold convert
  dsimp only
  split
  · rename_i hne
    split
    · exact .of_fails (Fails.throw.bind)
    · rename_i hnumeric
      simp only [Bool.or_eq_true, Bool.not_eq_true', not_or, Bool.not_eq_false] at hnumeric
      exact (Emit.steady_plain fun _ => (convert_opcode _ _ hne hnumeric.1 hnumeric.2).1).next hlast
  · exact hlast ⟨⟩

theorem spares_load {i : Item} (h : i.Off z) : Spares z l l i.load (·.isCond = false) := by
  refine Steady.answers ?_ (answers_load i)
  cases i with
  | void => exact steady_illegal _ _
  | stack k => exact .pure
  | self _ =>
      exact Spares.inAsm (Emit.steady_plain fun _ => by decide) |>.next fun _ => .pure trivial
  | var k reg =>
      exact Spares.inAsm (steady_onRegister reg (load_opcode k).1 fun r hr =>
        (load_opcode_short k r hr).1)
        |>.next fun _ => .pure trivial
  | static m | member m _ =>
      exact (Steady.pooled _).next fun i => Spares.inAsm (Emit.steady_field i _ (by decide)) |>.next
        fun _ => .pure trivial
  | indexed k =>
      exact Spares.inAsm (Emit.steady_plain fun _ => (load_array_opcode k).1) |>.next fun _ =>
        .pure trivial
  | const k c => exact (steady_loadConst k c).next fun _ => .pure trivial
  | assign lhs =>
      exact (steady_stash lhs _).next fun _ => (steady_store lhs).next fun _ => .pure trivial
  | cond c => exact Spares.inAsm (Cond.steady_load (h c rfl)) |>.next fun _ => .pure trivial

theorem steady_load {i : Item} (h : i.Off z) : Steady z l i.load :=
  (spares_load h).mono fun _ _ => trivial

theorem steady_duplicate {i : Item} (h : i.Off z) : Steady z l i.duplicate := by
  cases i with
  | stack k =>
      show Steady z l (liftM (Emit.plain (if k.width = 2 then .dup2 else .dup)) : Asm Unit)
      split <;> exact (Emit.steady_plain fun _ => by decide).inAsm
  | member _ _ | indexed _ => exact (Emit.steady_plain fun _ => by decide).inAsm
  | assign _ | cond _ => exact (steady_load h).next fun i => (steady_dupKind i.kind).inAsm
  | void | self _ | var _ _ | static _ | const _ _ => exact .pure

theorem steady_discard {i : Item} (h : i.Off z) : Steady z l i.discard := by
  cases i with
  | stack k =>
      show Steady z l (liftM (Emit.plain (if k.width = 2 then .pop2 else .pop)) : Asm Unit)
      split <;> exact (Emit.steady_plain fun _ => by decide).inAsm
  | member _ _ | indexed _ => exact (Emit.steady_plain fun _ => by decide).inAsm
  | assign lhs => exact steady_store lhs
  | cond c =>
      exact (Cond.steady_load (h c rfl)).inAsm.next fun _ =>
        (Emit.steady_plain fun _ => by decide).inAsm
  | void | self _ | var _ _ | static _ | const _ _ => exact .pure

theorem spares_coerce {i : Item} (h : i.Off z) (target : Kind) :
    Spares z l l (i.coerce target) (Off z) := by
  unfold coerce
  refine .ite (fun _ => .pure h) fun _ => ?_
  dsimp only
  split
  · rename_i folded hfolded
    refine .pure (off_of_not_isCond ?_)
    split at hfolded
    · split at hfolded
      · cases hfolded
        rfl
      · obtain ⟨c', -, rfl⟩ := Option.map_eq_some_iff.mp hfolded
        rfl
    · cases hfolded
  · exact (steady_load h).next fun _ => Spares.inAsm (steady_convert _ _) |>.next fun _ =>
      .pure (off_ofKind target)

theorem steady_increment (i : Item) (delta : Int32) : Steady z l (i.increment delta) := by
  cases i with
  | var k reg =>
      have hflat {i : Item} (h : i.isCond = false) : Steady z l i.load :=
        steady_load (off_of_not_isCond h)
      have hend : ∀ _ : PUnit, Steady z l (do
          let _ ← (Item.stack .int).coerce k
          (Item.var k reg).store : Asm Unit) :=
        fun _ => (spares_coerce (off_of_not_isCond rfl) _).next fun _ => steady_store _
      refine .ite (Emit.steady_iinc reg _).inAsm ((hflat rfl).next fun _ => Steady.ite ?_ ?_)
      · exact (hflat rfl).next fun _ =>
          Spares.inAsm (Emit.steady_plain fun _ => by decide) |>.next hend
      · exact (hflat rfl).next fun _ =>
          Spares.inAsm (Emit.steady_plain fun _ => by decide) |>.next hend
  | void | stack _ | self _ | static _ | member _ _ | indexed _ | const _ _ | assign _ | cond _ =>
      exact steady_illegal _ _

theorem spares_toCond {i : Item} (h : i.Off z) : Spares z l l i.toCond (Cond.Off z) := by
  have hvalue : Spares z l l (do let _ ← i.load; return { op := .ifne } : Asm Cond) (Cond.Off z) :=
    (steady_load h).next fun _ => .pure (Cond.off_first (.inl (by decide)))
  cases i with
  | const k c => exact .pure (Cond.off_ofBool _)
  | cond c => exact .pure (h c rfl)
  | _ => exact hvalue

end Item

/-! ### Shared steps -/

namespace Gen

variable {α β : Type} {l' : Bool} {Q : α → Prop} {R : β → Prop}

theorem spares_peek {f : Code → α} {g : α → Gen β} (h : ∀ a, Spares z l l' (g a) R) :
    Spares z l l' (peek f >>= g) R := fun s b p hrun hs => h (f s.asm.code) s b p hrun hs

theorem steady_touch {f : Code → Code}
    (h : ∀ c, (f c).wide = c.wide ∧ (f c).bytes = c.bytes ∧ (f c).pending = c.pending ∧
      (f c).alive = c.alive) :
    Steady z l (touch f) :=
  (Steady.change h).inGen

theorem steady_reporting (f : Reports → Reports) : Steady z l (reporting f) := by
  rintro s _ _ ⟨⟩ hs
  exact ⟨⟨hs.toClear, hs.scopes, hs.live⟩, .refl _ _ _, trivial⟩

theorem steady_typeIndex (span : Span) (t : Ty) : Steady z l (typeIndex span t) :=
  (steady_reporting _).next fun _ => (Steady.pooled _).asmInGen

theorem steady_registerOf (id : VarId) : Steady z l (registerOf id) := by
  refine .get_bind fun s => ?_
  split
  · exact .pure trivial
  · exact .throw

theorem steady_declare (v : LocalVar) : Steady z l (declare v) := by
  refine Spares.next (Emit.steady_newVar _ _).inGen fun reg => .next (P := fun _ => True) ?_
    fun _ => .pure trivial
  rintro s _ _ ⟨⟩ hs
  exact ⟨⟨hs.toClear, hs.scopes, hs.live⟩, .refl _ _ _, trivial⟩

theorem spares_freeing {x : Gen α} (h : Spares z l l' x Q) : Spares z l l' (freeing x) Q :=
  spares_peek fun _ => h.bind fun _ ha => Spares.next (Emit.steady_endScopes _).inGen
    fun _ => .pure ha

theorem spares_ranged {x : Gen α} (span : Span) (flags : UInt16) (h : Spares z l l' x Q) :
    Spares z l l' (ranged span flags x) Q := by
  refine spares_peek fun _ => .ite (fun _ => h) fun _ => ?_
  refine Spares.next Emit.spares_curPc.inGen fun start => h.bind fun a ha => ?_
  refine Spares.next Emit.spares_curPc.inGen fun stop => Steady.next (steady_touch fun c => ?_)
    fun _ => .pure ha
  unfold Code.addRange
  split <;> exact ⟨rfl, rfl, rfl, rfl⟩

end Gen

/-! ### The code of an expression -/

/-- The code of an expression spares the zone, whatever is wanted of it. -/
structure ExprCode.Sparing (z : Zone) (l : Bool) (e : ExprCode) : Prop where
  item : ∀ t, Spares z l l (e.item t) (Item.Off z)
  cond : Spares z l l e.cond (Cond.Off z)
  bareCond : Spares z l l e.bareCond (Cond.Off z)
  append : Steady z l e.append
  effect : Spares z l l e.effect (Item.Off z)

namespace ExprCode

variable {ctx : Context} {e : ExprCode}

/-- An item is converted. -/
theorem spares_coerced {x : Gen Item} (h : Spares z l l x (Item.Off z)) (k : Kind) :
    Spares z l l (do (← x).coerce k) (Item.Off z) :=
  h.bind fun _ hi => (Item.spares_coerce hi k).asmInGen

namespace Sparing

theorem value (h : e.Sparing z l) (t : Ty) : Spares z l l (e.value t) (Item.Off z) :=
  spares_coerced (h.item t) t.kind

theorem push (h : e.Sparing z l) (t : Ty) : Spares z l l (e.push t) (·.isCond = false) :=
  (h.value t).bind fun _ hi => (Item.spares_load hi).asmInGen

theorem test (h : e.Sparing z l) (flags : UInt16) : Spares z l l (e.test flags) (Cond.Off z) :=
  Gen.spares_ranged _ _ h.cond

theorem bareTest (h : e.Sparing z l) (flags : UInt16) :
    Spares z l l (e.bareTest flags) (Cond.Off z) :=
  Gen.spares_ranged _ _ h.bareCond

end Sparing

end ExprCode

/-! ### Library calls -/

namespace Context

variable {ctx : Context}

theorem steady_callLibrary (site : Ty) (name : String) (args : List Ty) :
    Steady z l (ctx.callLibrary site name args) :=
  Steady.liftExcept.next fun _ => (Item.spares_invoke _).asmInGen.mono fun _ _ => trivial

theorem steady_appendMethod (t : Ty) : Steady z l (ctx.appendMethod t) := by
  refine .get_bind fun s => ?_
  split
  · exact .pure trivial
  · refine Steady.liftExcept.next fun m => .next (P := fun _ => True) ?_ fun _ => .pure trivial
    rintro s _ _ ⟨⟩ hs
    exact ⟨⟨hs.toClear, hs.scopes, hs.live⟩, .refl _ _ _, trivial⟩

theorem steady_newBuilder (span : Span) : Steady z l (ctx.newBuilder span) :=
  (Gen.steady_typeIndex _ _).next fun _ =>
    Spares.next (Emit.steady_short (by decide) _).inGen fun _ =>
    Spares.next (Emit.steady_plain fun _ => by decide).inGen fun _ =>
      (steady_callLibrary _ _ _).next fun _ => .pure trivial

theorem steady_appendPiece (t : Ty) : Steady z l (ctx.appendPiece t) :=
  (steady_appendMethod _).next fun _ => (Item.spares_invoke _).asmInGen.next fun _ => .pure trivial

theorem spares_builderText : Spares z l l ctx.builderText (Item.Off z) :=
  (steady_callLibrary _ _ _).next fun _ => .pure (Item.off_of_not_isCond rfl)

theorem steady_nullCheck : Steady z l ctx.nullCheck :=
  (steady_callLibrary _ _ _).next fun _ => (Emit.steady_plain fun _ => by decide).inGen

end Context

namespace ExprCode

variable {ctx : Context} {e : ExprCode}

theorem spares_itemOf (info : ExprInfo) {visit : Ty → Gen Item}
    (h : ∀ t, Spares z l l (visit t) (Item.Off z)) (t : Ty) :
    Spares z l l (itemOf info visit t) (Item.Off z) := by
  unfold itemOf
  split
  · exact (Gen.steady_reporting _).next fun _ => .pure (Item.off_of_not_isCond rfl)
  · exact h t

theorem sparing_ofItem (info : ExprInfo) {visit : Ty → Gen Item}
    (h : ∀ t, Spares z l l (visit t) (Item.Off z)) : (ofItem ctx info visit).Sparing z l := by
  have hvalue (t : Ty) := spares_coerced (spares_itemOf info h t) t.kind
  have hcond := (hvalue .boolean).bind fun _ hi => (Item.spares_toCond hi).asmInGen
  refine ⟨spares_itemOf info h, hcond, hcond, ?_, hvalue info.ty⟩
  exact (hvalue info.ty).bind fun _ hi => (Item.spares_load hi).asmInGen.next fun _ =>
    Context.steady_appendPiece info.ty

theorem sparing_parens (info : ExprInfo) (bareIsCond : Bool) (h : e.Sparing z l) :
    (parens ctx info bareIsCond e).Sparing z l := by
  have hplain : (ofItem ctx info fun _ => e.value e.info.ty).Sparing z l :=
    sparing_ofItem info fun _ => h.value e.info.ty
  refine ⟨hplain.item, ?_, h.bareCond, h.append, hplain.effect⟩
  cases bareIsCond
  · exact hplain.cond
  · exact h.cond

end ExprCode

/-! ### Constructs -/

namespace Gen

/-- An item that is no condition holds no branches. -/
theorem off_stack {k : Kind} : (Item.stack k).Off z := Item.off_of_not_isCond rfl

theorem spares_literal (info : ExprInfo) (t : Ty) : Spares z l l (literal info t) (Item.Off z) := by
  refine .ite (fun _ => .of_fails (Fails.throw.bind)) fun _ => ?_
  refine Spares.next (Emit.steady_plain fun _ => by decide).inGen fun _ =>
    .ite (fun _ => ?_) fun _ => .pure off_stack
  exact (steady_typeIndex _ _).next fun _ =>
    Spares.next (Emit.steady_short (by decide) _).inGen fun _ =>
    .pure (Item.off_ofKind _)

theorem spares_selfRef (isSuper : Bool) (ctor : Option MethodSymbol) :
    Spares z l l (selfRef isSuper ctor) (Item.Off z) := by
  cases ctor with
  | none => exact .pure (Item.off_of_not_isCond rfl)
  | some m =>
      exact Spares.next (Item.spares_load (Item.off_of_not_isCond rfl)).asmInGen fun _ =>
        .pure (Item.off_of_not_isCond rfl)

theorem spares_classLit (info : ExprInfo) (t : Ty) : Spares z l l (classLit info t) (Item.Off z) :=
  (steady_typeIndex _ _).next fun _ => Spares.next (Emit.steady_ldc _ _).inGen fun _ =>
    .pure off_stack

theorem steady_pushArgs {args : List ExprCode} (h : ∀ e ∈ args, e.Sparing z l) (params : List Ty) :
    Steady z l (pushArgs args params) := by
  refine .optional .throw fun _ => Steady.forM ?_
  rintro ⟨e, t⟩ ht
  exact ((h e (List.of_mem_zip ht).1).push t).next fun _ => .pure trivial

theorem spares_apply {callee : ExprCode} {args : List ExprCode} (hc : callee.Sparing z l)
    (ha : ∀ e ∈ args, e.Sparing z l) (m : Option MethodSymbol) :
    Spares z l l (apply callee m args) (Item.Off z) := by
  refine (hc.item _).next fun i => ?_
  cases m with
  | none => exact .throw
  | some m =>
      exact (steady_pushArgs ha _).next fun _ =>
        (Item.spares_invoke i).asmInGen.mono fun _ h => Item.off_of_not_isCond h

theorem spares_newClass (info : ExprInfo) (ctor : MethodSymbol) {args : List ExprCode}
    (h : ∀ e ∈ args, e.Sparing z l) : Spares z l l (newClass info ctor args) (Item.Off z) :=
  (steady_typeIndex _ _).next fun _ => Spares.next (Emit.steady_short (by decide) _).inGen fun _ =>
    Spares.next (Emit.steady_plain fun _ => by decide).inGen fun _ =>
      (steady_pushArgs h _).next fun _ =>
      Spares.next (Item.spares_invoke _).asmInGen fun _ => .pure (Item.off_ofKind _)

theorem spares_allocate (span : Span) (t : Ty) (dims : Nat) :
    Spares z l l (allocate span t dims) (·.isCond = false) := by
  refine Steady.answers ?_ (answers_allocate span t dims)
  unfold allocate
  split
  · exact .throw
  · refine (steady_reporting _).next fun _ => Steady.ite ?_ (.ite ?_ ?_)
    · exact (steady_typeIndex _ _).next fun _ =>
        Spares.next (Emit.steady_short (by decide) _).inGen fun _ =>
        .pure trivial
    · exact (steady_typeIndex _ _).next fun _ =>
        Spares.next (Emit.steady_multiarray _ _).inGen fun _ =>
        .pure trivial
    · exact Spares.next (Emit.steady_byte (by decide) _).inGen fun _ => .pure trivial

theorem spares_newArray (info : ExprInfo) {dims : List ExprCode} (h : ∀ e ∈ dims, e.Sparing z l) :
    Spares z l l (newArray info dims) (Item.Off z) :=
  Steady.next (.forM fun d hd => ((h d hd).push .int).next fun _ => .pure trivial) fun _ =>
    (spares_allocate _ _ _).mono fun _ h => Item.off_of_not_isCond h

theorem steady_storeElems {array : Item} (harray : array.isCond = false) (t : Ty)
    {elems : List ExprCode} (h : ∀ e ∈ elems, e.Sparing z l) (i : Nat) :
    Steady z l (storeElems array t elems i) := by
  induction elems generalizing i with
  | nil => exact .pure
  | cons e es ih =>
      refine Spares.next (Item.steady_duplicate (Item.off_of_not_isCond harray)).asmInGen fun _ =>
        ?_
      refine Spares.next (Item.spares_load (Item.off_of_not_isCond rfl)).asmInGen fun _ => ?_
      refine ((h e (List.mem_cons_self ..)).push t).next fun _ => ?_
      exact Spares.next (Item.steady_store _).asmInGen fun _ =>
        ih (fun e' he' => h e' (List.mem_cons_of_mem e he')) (i + 1)

theorem spares_arrayInit (info : ExprInfo) {elems : List ExprCode}
    (h : ∀ e ∈ elems, e.Sparing z l) :
    Spares z l l (arrayInit info elems) (Item.Off z) := by
  unfold arrayInit
  split
  · exact .throw
  · refine Spares.next (Item.spares_load (Item.off_of_not_isCond rfl)).asmInGen fun _ => ?_
    refine (spares_allocate _ _ _).bind fun array harray => ?_
    exact (steady_storeElems harray _ h 0).next fun _ => .pure (Item.off_of_not_isCond harray)

theorem spares_assign {lhs rhs : ExprCode} (hl : lhs.Sparing z l) (hr : rhs.Sparing z l) :
    Spares z l l (assign lhs rhs) (Item.Off z) :=
  (hl.value _).next fun _ => (hr.push _).next fun _ => .pure (Item.off_of_not_isCond rfl)

theorem spares_index (info : ExprInfo) {array idx : ExprCode} (ha : array.Sparing z l)
    (hi : idx.Sparing z l) : Spares z l l (index info array idx) (Item.Off z) :=
  (ha.push _).next fun _ => (hi.push _).next fun _ => .pure (Item.off_of_not_isCond rfl)

theorem spares_typeTest (info : ExprInfo) {arg : ExprCode} (h : arg.Sparing z l) (target : Ty) :
    Spares z l l (typeTest info arg target) (Item.Off z) :=
  (h.push _).next fun _ => (steady_typeIndex _ _).next fun _ =>
    Spares.next (Emit.steady_short (by decide) _).inGen fun _ => .pure off_stack

/-! ### Conditional values -/

theorem steady_arm {e : ExprCode} (h : e.Sparing z l) (t : Ty) (k : Kind) :
    Steady z l (arm e t k) :=
  spares_ranged _ _ ((h.push t).next fun _ => steady_touch fun _ => ⟨rfl, rfl, rfl, rfl⟩)

theorem spares_condValue (info : ExprInfo) {test onTrue onFalse : ExprCode} (ht : test.Sparing z l)
    (hT : onTrue.Sparing z l) (hF : onFalse.Sparing z l) (t : Ty) :
    Spares z l l (condValue info test onTrue onFalse t) (Item.Off z) := by
  refine (ht.test _).bind fun c hc => .fork (fun x => liftM x) Spares.inGen hc
    (steady_arm hT t _) ?_
  intro no out hno hout hlive
  refine .otherwise (fun x => liftM x) Spares.inGen hno (steady_arm hF t _) ?_
  exact (Emit.spares_joined hout hlive).inGen.next fun _ => .pure (Item.off_ofKind _)

/-! ### Conditions -/

theorem spares_both {lhs rhs : ExprCode} (hl : lhs.Sparing z l) (hr : rhs.Sparing z l) :
    Spares z l l (both lhs rhs) (Cond.Off z) := by
  refine (hl.test _).bind fun c hc => .ite (fun _ => .pure hc) fun hfalse => ?_
  refine .partFalse (fun x => liftM x) Spares.inGen hc (fun _ => by simpa using hfalse)
    fun no hno _ => ?_
  refine (hr.test _).bind fun r hr => (Cond.spares_join hno hr.onFalse).inGen.bind
    fun joined hjoined => ?_
  exact .pure ⟨hr.test, hr.onTrue, hjoined.1⟩

theorem spares_either {lhs rhs : ExprCode} (hl : lhs.Sparing z l) (hr : rhs.Sparing z l) :
    Spares z l l (either lhs rhs) (Cond.Off z) := by
  refine (hl.test _).bind fun c hc => .ite (fun _ => .pure hc) fun htrue => ?_
  refine .partTrue (fun x => liftM x) Spares.inGen hc (fun _ => by simpa using htrue)
    fun yes hyes => ?_
  refine (hr.test _).bind fun r hr => (Cond.spares_join hyes hr.onTrue).inGen.bind
    fun joined hjoined => ?_
  exact .pure ⟨hr.test, hjoined.1, hr.onFalse⟩

theorem spares_condCond {test onTrue onFalse : ExprCode} (ht : test.Sparing z l)
    (hT : onTrue.Sparing z l) (hF : onFalse.Sparing z l) :
    Spares z l l (condCond test onTrue onFalse) (Cond.Off z) := by
  refine (ht.test _).bind fun c hc => ?_
  -- Where only one way is left, its condition is the condition.
  have hone {chain : Chain} {e : ExprCode} (hchain : z.Avoids chain) (he : e.Sparing z l) :
      Spares z l l (do Emit.resolve chain; e.test RangeFlag.flowTarget : Gen Cond) (Cond.Off z) :=
    Spares.next (Emit.steady_resolve hchain).inGen fun _ => he.test _
  refine .ite (fun _ => hone hc.onTrue hT) fun htrue => .ite (fun _ => hone hc.onFalse hF)
    fun hfalse => ?_
  refine .partFalse (fun x => liftM x) Spares.inGen hc (fun _ => by simpa using hfalse)
    fun no hno hne => ?_
  refine (hT.test _).bind fun t ht => ?_
  refine (Cond.spares_jumpFalse ht).inGen.bind fun low hlow => ?_
  refine Spares.next (Emit.spares_resolve ht.onTrue).inGen fun _ => ?_
  refine (Emit.spares_branch (.inr (.inl rfl))).inGen.bind fun high hhigh => ?_
  -- Behind the jump out of the first way, control is brought here by the branches to the second.
  refine (Emit.spares_resolve hno).inGen.next fun _ => .relax (l := l) ?_ (fun hl => ?_) id
  · refine (hF.test _).bind fun f hf => ?_
    refine (Cond.spares_join hhigh.1 hf.onTrue).inGen.bind fun joinT hjoinT => ?_
    refine (Cond.spares_join hlow.1 hf.onFalse).inGen.bind fun joinF hjoinF => ?_
    exact .pure ⟨hf.test, hjoinT.1, hjoinF.1⟩
  · simp [hne hl (by simpa using htrue)]

/-! ### Arithmetic -/

/-- An operation on what is on the stack, or a test of it. -/
theorem spares_finish {op : Opcode} (result : Ty) (h : op.isConditional = true ∨ op.IsStraight) :
    Spares z l l (if op.isConditional then pure (.cond { op })
      else do Emit.plain op; return .ofTy result : Gen Item)
      (Item.Off z) := by
  refine .ite (fun hop => .pure (Item.off_cond (Cond.off_first (.inl hop)))) fun hop => ?_
  exact Spares.next (Emit.steady_plain fun _ => h.resolve_left hop).inGen fun _ =>
    .pure (Item.off_ofKind _)

theorem spares_finishBinary (op : BinaryOp) (operand : Ty) {rhs : ExprCode} (h : rhs.Sparing z l)
    (rhsIsNull : Bool) (result : Ty) :
    Spares z l l (finishBinary op operand rhs rhsIsNull result) (Item.Off z) := by
  refine .liftExcept_bind fun sel hsel => ?_
  have hfits := BinaryOp.select_fits hsel
  have hop : sel.op.isConditional = true ∨ sel.op.IsStraight := by
    cases hcomparison : op.isComparison with
    | true => exact .inl (hfits.test hcomparison).1
    | false => exact .inr (hfits.plain hcomparison).2.2.1
  refine .ite (fun hzero => ?_) fun _ => .ite (fun hnull => ?_) fun _ => ?_
  · exact spares_finish result (.inl (hfits.zero ⟨hzero.1, hzero.2.1⟩).2.1)
  · exact spares_finish result (.inl (hfits.null ⟨hnull.1, hnull.2.1⟩).2.1)
  · refine (h.push _).next fun _ => ?_
    split
    · rename_i compare hcompare
      exact Spares.next (Emit.steady_plain fun _ =>
        (hfits.compared compare hcompare).1).inGen fun _ =>
        spares_finish result hop
    · exact spares_finish result hop

theorem steady_narrow (k : Kind) : Steady z l (narrow k) := by
  unfold narrow
  split
  · rename_i hk
    exact (Emit.steady_plain fun _ => (Item.narrow_opcode k (by rw [hk.2]; exact hk.1)).1).inGen
  · exact .pure

theorem spares_stepFirst {op : Opcode} (hop : op.IsStraight) (delta : Int32) {i : Item}
    (h : i.Off z) :
    Spares z l l (stepFirst op delta i) (Item.Off z) := by
  refine Spares.next (Item.steady_duplicate h).asmInGen fun _ => .ite (fun _ => ?_) fun _ => ?_
  · exact Spares.next (Item.steady_increment i delta).asmInGen fun _ => .pure h
  · refine Spares.next (Item.spares_load h).asmInGen fun _ => ?_
    refine Spares.next (Emit.steady_plain fun _ => (one_opcode _).1).inGen fun _ => ?_
    refine Spares.next (Emit.steady_plain fun _ => hop).inGen fun _ => ?_
    exact (steady_narrow _).next fun _ => .pure (Item.off_of_not_isCond rfl)

theorem spares_stepLast {op : Opcode} (hop : op.IsStraight) (delta : Int32) {i : Item}
    (h : i.Off z) :
    Spares z l l (stepLast op delta i) (Item.Off z) := by
  refine Spares.next (Item.steady_duplicate h).asmInGen fun _ => .ite (fun _ => ?_) fun _ => ?_
  · refine (Item.spares_load h).asmInGen.bind fun old hold => ?_
    exact Spares.next (Item.steady_increment i delta).asmInGen fun _ =>
      .pure (Item.off_of_not_isCond hold)
  · refine (Item.spares_load h).asmInGen.bind fun old hold => ?_
    refine Spares.next (Item.steady_stash i _).asmInGen fun _ => ?_
    refine Spares.next (Emit.steady_plain fun _ => (one_opcode _).1).inGen fun _ => ?_
    refine Spares.next (Emit.steady_plain fun _ => hop).inGen fun _ =>
      (steady_narrow _).next fun _ => ?_
    exact Spares.next (Item.steady_store i).asmInGen fun _ => .pure (Item.off_of_not_isCond hold)

end Gen

namespace Context

open Gen

variable {ctx : Context} {i : Item}

/-! ### Members -/

theorem spares_ownMember (member : MemberRef) (flags : Access) :
    Spares z l l (ctx.ownMember member flags) (Item.Off z) :=
  .ite (fun _ => .pure (Item.off_of_not_isCond rfl)) fun _ =>
    Spares.next (Item.spares_load (Item.off_of_not_isCond rfl)).asmInGen fun _ =>
      .pure (Item.off_of_not_isCond rfl)

theorem spares_ident (info : ExprInfo) (sym : Symbol) :
    Spares z l l (ctx.ident info sym) (Item.Off z) := by
  cases sym with
  | var id => exact (steady_registerOf id).next fun _ => .pure (Item.off_of_not_isCond rfl)
  | field f => exact spares_ownMember _ _
  | method m => exact spares_ownMember _ _
  | length | type _ => exact .throw

theorem steady_dropQualifier (h : i.Off z) (viaSuper : Bool) :
    Steady z l (dropQualifier i viaSuper) := by
  refine Spares.ite (fun _ => (Item.steady_discard h).asmInGen) fun _ => ?_
  refine (Item.spares_load h).asmInGen.bind fun base hbase => ?_
  exact (Item.steady_discard (Item.off_of_not_isCond hbase)).asmInGen

theorem spares_selectMember (h : i.Off z) (viaSuper : Bool) (site : Ty) (member : MemberRef)
    (flags : Access) :
    Spares z l l (ctx.selectMember i viaSuper site member flags) (Item.Off z) := by
  refine .ite (fun _ => ?_) fun _ => ?_
  · exact (steady_dropQualifier h viaSuper).next fun _ => .pure (Item.off_of_not_isCond rfl)
  · exact Spares.next (Item.spares_load h).asmInGen fun _ => .pure (Item.off_of_not_isCond rfl)

theorem spares_selected (h : i.Off z) (target : ExprCode) (viaSuper : Bool) (sym : Symbol) :
    Spares z l l (ctx.selected target viaSuper sym i) (Item.Off z) := by
  have hload : Steady z l (liftM i.load : Gen Item) := (Item.steady_load h).asmInGen
  cases sym with
  | length =>
      exact hload.next fun _ => Spares.next (Emit.steady_plain fun _ => by decide).inGen fun _ =>
        .pure off_stack
  | field f =>
      unfold selected
      dsimp only
      cases f.const with
      | some c =>
          refine .ite (fun _ => ?_) fun _ => ?_
          · exact (steady_dropQualifier h viaSuper).next fun _ => .pure (Item.off_of_not_isCond rfl)
          · exact hload.next fun _ => steady_nullCheck.next fun _ =>
              .pure (Item.off_of_not_isCond rfl)
      | none => exact spares_selectMember h _ _ _ _
  | method m => exact spares_selectMember h _ _ _ _
  | var _ | type _ => exact .throw

theorem spares_select {target : ExprCode} (h : target.Sparing z l) (viaSuper : Bool)
    (sym : Symbol) :
    Spares z l l (ctx.select target viaSuper sym) (Item.Off z) := by
  refine .ite (fun _ => spares_selected (Item.off_of_not_isCond rfl) target viaSuper sym) fun _ =>
    ?_
  exact (h.value _).bind fun i hi => spares_selected hi target viaSuper sym

theorem spares_cast (info : ExprInfo) (target : Ty) {arg : ExprCode} (h : arg.Sparing z l) :
    Spares z l l (ctx.cast info target arg) (Item.Off z) := by
  refine (h.push target).bind fun v hv => .ite (fun _ => ?_) fun _ =>
    .pure (Item.off_of_not_isCond hv)
  exact (steady_typeIndex _ _).next fun _ =>
    Spares.next (Emit.steady_short (by decide) _).inGen fun _ =>
    .pure (Item.off_of_not_isCond hv)

/-! ### Operators -/

theorem spares_unary (op : UnaryOp) (operand : Ty) {arg : ExprCode} (h : arg.Sparing z l) :
    Spares z l l (ctx.unary op operand arg) (Item.Off z) := by
  have hselect {v : Item} (hv : v.isCond = false) : ∀ _ : Item,
      Spares z l l (do Emit.plain (← op.select operand); return v : Gen Item) (Item.Off z) :=
        fun _ =>
    .liftExcept_bind fun o ho =>
      Spares.next (Emit.steady_plain fun _ => (UnaryOp.select_fits ho).straight).inGen
      fun _ => .pure (Item.off_of_not_isCond hv)
  cases op with
  | not => exact h.cond.bind fun c hc => .pure (Item.off_cond hc.negate)
  | pos => exact (h.push operand).mono fun _ hi => Item.off_of_not_isCond hi
  | neg => exact (h.push operand).bind fun v hv => hselect hv v
  | compl =>
      refine (h.push operand).bind fun v hv => .ite (fun _ => ?_) fun _ => ?_
      · exact Spares.next (Item.spares_load (Item.off_of_not_isCond rfl)).asmInGen (hselect hv)
      · exact Spares.next (Emit.steady_plain fun _ => by decide).inGen fun _ => hselect hv v
  | preInc | preDec =>
      exact (h.value operand).bind fun i hi => .liftExcept_bind fun o ho =>
        spares_stepFirst (UnaryOp.select_fits ho).straight _ hi
  | postInc | postDec =>
      exact (h.value operand).bind fun i hi => .liftExcept_bind fun o ho =>
        spares_stepLast (UnaryOp.select_fits ho).straight _ hi
  | nullCheck =>
      exact (h.push operand).bind fun v hv =>
        Spares.next (Emit.steady_plain fun _ => by decide).inGen
        fun _ => steady_nullCheck.next fun _ => .pure (Item.off_of_not_isCond hv)

theorem sparing_unaryCode (info : ExprInfo) (op : UnaryOp) (operand : Ty) {arg : ExprCode}
    (h : arg.Sparing z l) : (ctx.unaryCode info op operand arg).Sparing z l := by
  have hunary (op : UnaryOp) : Spares z l l (ctx.unary op operand arg) (Item.Off z) :=
    spares_unary op operand h
  have hcode : (ExprCode.ofItem ctx info fun _ => ctx.unary op operand arg).Sparing z l :=
    ExprCode.sparing_ofItem info fun _ => hunary op
  unfold unaryCode
  split
  · exact ⟨hcode.item, hcode.cond, hcode.bareCond, hcode.append, hunary .preInc⟩
  · exact ⟨hcode.item, hcode.cond, hcode.bareCond, hcode.append, hunary .preDec⟩
  · exact hcode

theorem sparing_binaryCode (info : ExprInfo) (op : BinaryOp) (operand : Ty) {lhs rhs : ExprCode}
    (hl : lhs.Sparing z l) (hr : rhs.Sparing z l) (rhsIsNull : Bool) :
    (ctx.binaryCode info op operand lhs rhs rhsIsNull).Sparing z l := by
  have hcond {x : Gen Cond} (hx : Spares z l l x (Cond.Off z)) :
      (ExprCode.ofItem ctx info fun _ => do return .cond (← x)).Sparing z l :=
    ExprCode.sparing_ofItem info fun _ => hx.bind fun _ hc => .pure (Item.off_cond hc)
  unfold binaryCode
  split
  · exact hcond (spares_both hl hr)
  split
  · exact hcond (spares_either hl hr)
  split
  · have hpieces := hl.append.next fun _ => hr.append
    have hcode : (ExprCode.ofItem ctx info fun _ => do
        ctx.newBuilder info.span
        (do lhs.append; rhs.append : Gen Unit)
        ctx.builderText).Sparing z l :=
      ExprCode.sparing_ofItem info fun _ => (steady_newBuilder info.span).next fun _ =>
        hpieces.next fun _ => spares_builderText
    exact ⟨hcode.item, hcode.cond, hcode.bareCond, .ite hpieces hcode.append, hcode.effect⟩
  · exact ExprCode.sparing_ofItem info fun _ => (hl.push _).next fun _ =>
      spares_finishBinary _ _ hr _ _

theorem spares_concatAssign (info : ExprInfo) {lhs rhs : ExprCode} (hl : lhs.Sparing z l)
    (hr : rhs.Sparing z l) : Spares z l l (ctx.concatAssign info lhs rhs) (Item.Off z) := by
  refine (steady_newBuilder info.span).next fun _ => (hl.value _).bind fun place hplace => ?_
  have hrest : ∀ _ : PUnit, Spares z l l (do
      let _ ← place.load
      ctx.appendPiece lhs.info.ty
      rhs.append
      let _ ← ctx.builderText
      return .assign place : Gen Item) (Item.Off z) := fun _ =>
    Spares.next (Item.spares_load hplace).asmInGen fun _ => (steady_appendPiece _).next fun _ =>
      hr.append.next fun _ => spares_builderText.next fun _ => .pure (Item.off_of_not_isCond rfl)
  refine .ite (fun hwidth => ?_) fun _ => hrest ⟨⟩
  -- A place that keeps more words than an instruction can step over cannot be loaded.
  cases hdoomed : place.isDoomed with
  | true => exact .of_fails (Fails.after fun _ => Fails.bind (Item.fails_load hdoomed).asmInGen)
  | false =>
      exact Spares.next (Emit.steady_plain fun _ =>
        below_opcode hwidth (Item.width_le hdoomed)).inGen hrest

theorem spares_assignOp (info : ExprInfo) (op : BinaryOp) (operand : Ty) {lhs rhs : ExprCode}
    (hl : lhs.Sparing z l) (hr : rhs.Sparing z l) (rhsIsNull : Bool) :
    Spares z l l (ctx.assignOp info op operand lhs rhs rhsIsNull) (Item.Off z) := by
  refine .ite (fun _ => spares_concatAssign info hl hr) fun _ =>
    (hl.value _).bind fun place hplace => ?_
  split
  · exact Spares.next (Item.steady_increment place _).asmInGen fun _ => .pure hplace
  · refine Spares.next (Item.steady_duplicate hplace).asmInGen fun _ => ?_
    refine (Item.spares_coerce hplace _).asmInGen.bind fun v hv => ?_
    refine Spares.next (Item.spares_load hv).asmInGen fun _ => ?_
    refine (spares_finishBinary op operand hr rhsIsNull operand).bind fun r hr => ?_
    exact Spares.next (Item.spares_coerce hr _).asmInGen fun _ => .pure (Item.off_of_not_isCond rfl)

end Context

end StackCode
