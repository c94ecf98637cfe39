import StackCode.Proofs.ConstantLoads

/-!
# Stepping a variable in place

Adding an amount to a variable of an integer kind is one instruction where there is one for it,
and otherwise a load, an addition or a subtraction, a cut back to the kind, and a store. Whichever
it is, the register holds the sum modulo 2^32, cut back to the kind of the variable, and the stack
is as it was. Subtracting the opposite of the amount is right for every amount, also for the one
that is its own opposite.

`Expr.Steps x e f fresh` are the expressions that step the variable `x`.
-/

set_option maxRecDepth 4000

namespace StackCode

/-! ### The instructions -/

theorem Emit.delivers_iinc (reg : UInt16) (delta : Int16) :
    Delivers (iinc reg delta) (iincBytes reg delta) (.pop 0) := by
  have hfin (c : Code) (_ : c.alive = true) (_ : Effect.needs (.pop 0) ≤ c.frame.depth) :
      (pure () : Emit Unit) c = .ok () (c.applyEffect (.pop 0)) := by
    rw [Code.applyEffect_pop_zero]
    rfl
  unfold iinc iincBytes iincWide
  split
  · refine @delivers_wide _ _ _ (pure ()) _ (fun c h => ?_) hfin
    rw [Code.put2_alive h, Code.put2_alive (c := c.written _) h, Code.written_written]
  · refine @delivers_of _ _ _ (pure ()) _ (fun c h => ?_) hfin
    rw [Code.put1_alive h, Code.put1_alive (c := c.written _) h, Code.written_written]

namespace Spells

variable {k : Kind} {d : ℕ}

theorem iinc (reg : UInt16) (delta : Int16) :
    Spells (Asm.onCode (Emit.iinc reg delta)) () d d [.increment reg.toNat delta.toInt32] :=
  of_delivers (Emit.delivers_iinc reg delta) rfl (Nat.zero_le d) rfl fun _ _ => Program.fetch_iinc

theorem loadVar (hk : k.widen = .int) (reg : UInt16) :
    Spells (Item.var k reg).load (.stack k) d (d + 1) [.load reg.toNat] := by
  have hload : Spells (Asm.onCode (Item.onRegister .iload .iload0 k reg)) () d
      (d + 1) [.load reg.toNat] :=
    of_delivers (Emit.delivers_onRegister hk (e := .trade 0 .int) (by decide) (by decide +kernel))
      rfl (Nat.zero_le d)
      rfl fun p q hold => Program.fetch_of_read (Program.read_load hold) rfl
  refine hload.answer ?_
  rw [Item.ofKind, if_neg]
  rintro rfl
  cases hk

theorem storeVar (hk : k.widen = .int) (reg : UInt16) :
    Spells (Item.var k reg).store () (d + 1) d [.store reg.toNat] := by
  have hstore : Spells (Asm.onCode (Item.onRegister .istore .istore0 k reg)) ()
      (d + 1) d [.store reg.toNat] :=
    of_delivers (Emit.delivers_onRegister hk (e := .pop 1) (by decide) (by decide +kernel)) rfl
      (Nat.le_add_left 1 d)
      rfl fun p q hold => Program.fetch_of_read (Program.read_store hold) rfl
  have hdefine : Continues (modify fun s => { s with code := s.code.define reg } : Asm Unit)
      () d d [] := by
    intro s halive hpending hdepth hindexed
    refine ⟨_, rfl, halive, hpending, hdepth, .refl _, hindexed, #[], Array.append_empty.symm, ?_⟩
    exact fun p q _ _ _ => rfl
  exact hstore.bind hdefine

end Spells

theorem Operation.performAll_append (ops ops' : List Operation) (v : Values) :
    performAll (ops ++ ops') v = (performAll ops v).bind (performAll ops') :=
  List.foldlM_append

theorem Operation.performAll_load {stack : List Const} {regs : ℕ → Const} {reg : ℕ} {n : Int32}
    (h : regs reg = .int n) :
    performAll [.load reg] ⟨stack, regs⟩ = some ⟨.int n :: stack, regs⟩ := by
  simp [performAll, perform, h]

/-- The operations leave the stack alone and step the register by `f`. -/
def Operation.Step (ops : List Operation) (reg : ℕ) (f : Int32 → Int32) : Prop :=
  ∀ v n, v.regs reg = .int n →
    performAll ops v = some ⟨v.stack, Function.update v.regs reg (.int (f n))⟩

/-- The way around the stack, by an operation that takes `n` and `c` to `f n`. -/
theorem Spells.aroundStack {k : Kind} {d : ℕ} (hk : k.widen = .int) (reg : UInt16) (c : Int32)
    {op : Opcode} {o : Operation} {f : Int32 → Int32}
    (hop : (op, o) ∈ [(Opcode.iadd, Operation.add), (.isub, .sub)])
    (hf : ∀ n stack regs, o.perform ⟨.int c :: .int n :: stack, regs⟩ =
      some ⟨.int (f n) :: stack, regs⟩) :
    ∃ ops, Spells (do
      let _ ← (Item.var k reg).load
      let _ ← (Item.ofInt c).load
      Emit.plain op
      let _ ← (Item.stack .int).coerce k
      (Item.var k reg).store : Asm Unit) () d d ops ∧ Operation.Step ops reg.toNat fun n =>
        k.narrow (f n) := by
  have hconst : Spells (Item.ofInt c).load (.stack .int) (d + 1) (d + 2) [.push (.int c)] :=
    .load (show Const.Suits (.int c) .int from rfl)
  have hplain : Spells (Asm.onCode (Emit.plain op)) () (d + 2) (d + 1) [o] := by
    simp only [List.mem_cons, Prod.mk.injEq, List.not_mem_nil, or_false] at hop
    rcases hop with ⟨rfl, rfl⟩ | ⟨rfl, rfl⟩ <;> exact .plain (by decide) (Nat.le_add_left 2 d) rfl
  have hwidth : k.width = 1 := by cases k <;> first | rfl | cases hk
  have hcoerce : Continues ((Item.stack .int).coerce k) (.stack k) (d + 1) (d + 1)
      (Operation.conversion .int k) := by
    have h : Continues _ _ (d + Kind.int.width) (d + k.width) _ :=
      Continues.coerce (.inl rfl) (.inl hk)
    rwa [hwidth] at h
  have hrest := hcoerce.bind (f := fun _ => (Item.var k reg).store)
    (Spells.storeVar hk reg).continues
  refine ⟨_, (Spells.loadVar hk reg).bind (hconst.bind (hplain.bind hrest).continues).continues, ?_⟩
  rintro ⟨stack, regs⟩ n hn
  have hconv : Operation.performAll (Operation.conversion .int k) ⟨.int (f n) :: stack, regs⟩ =
      some ⟨.int (k.narrow (f n)) :: stack, regs⟩ := by
    cases k with
    | int | byte | char | short => rfl
    | _ => cases hk
  rw [Operation.performAll_append, Operation.performAll_load hn]
  show (o.perform ⟨.int c :: .int n :: stack, regs⟩).bind _ = _
  rw [hf]
  show Operation.performAll (Operation.conversion .int k ++ [.store reg.toNat])
    ⟨.int (f n) :: stack, regs⟩ = _
  rw [Operation.performAll_append, hconv]
  rfl

/-- An amount is added to a variable in place. -/
theorem Spells.increment {k : Kind} {d : ℕ} (hk : k.widen = .int) (reg : UInt16) (delta : Int32) :
    ∃ ops, Spells ((Item.var k reg).increment delta) () d d ops ∧
      Operation.Step ops reg.toNat fun n => k.narrow (n + delta) := by
  unfold Item.increment
  dsimp only
  split
  · rename_i hshort
    obtain ⟨rfl, hdelta⟩ := hshort
    have hback : delta.toInt16.toInt32 = delta := by
      obtain ⟨hlo, hhi⟩ := Program.between_iff.mp hdelta
      have hlo : -32768 ≤ delta.toInt := hlo
      have hhi : delta.toInt ≤ 32767 := hhi
      apply Int32.toInt_inj.mp
      rw [Int16.toInt_toInt32, Int32.toInt_toInt16]
      exact Int.bmod_eq_of_le (by omega) (by omega)
    refine ⟨_, Spells.iinc reg delta.toInt16, fun v n hn => ?_⟩
    rw [hback]
    simp [Operation.performAll, Operation.perform, hn, Kind.narrow]
  · by_cases hsign : 0 ≤ delta
    · simp only [if_pos hsign]
      exact Spells.aroundStack (o := .add) hk reg delta (by simp) fun n stack regs => rfl
    · simp only [if_neg hsign]
      refine Spells.aroundStack (o := .sub) (f := fun n => n + delta) hk reg (-delta) (by simp)
        fun n stack regs => ?_
      have hsub : n - -delta = n + delta := by
        rw [Int32.sub_eq_add_neg, Int32.neg_neg]
      rw [← hsub]
      rfl

/-! ### The expressions -/

/-- The expression steps the variable `x` by `f`, and has the value of `x` after it if `fresh`, and
before it if not. -/
inductive Expr.Steps (x : Expr) : Expr → (Int32 → Int32) → Bool → Prop
  | plus (i : ExprInfo) {operand : Ty} {r : Expr} {c : Const} (hoperand : operand.isString = false)
      (hr : r.ty.isIntLike = true) (hc : r.const = some c) :
      Steps x (.assignOp i .plus operand x r) (fun n => n + c.toInt32) true
  | minus (i : ExprInfo) {operand : Ty} {r : Expr} {c : Const}
      (hr : r.ty.isIntLike = true) (hc : r.const = some c) :
      Steps x (.assignOp i .minus operand x r) (fun n => n - c.toInt32) true
  | preInc (i : ExprInfo) : Steps x (.unary i .preInc x.ty x) (fun n => n + 1) true
  | preDec (i : ExprInfo) : Steps x (.unary i .preDec x.ty x) (fun n => n - 1) true
  | postInc (i : ExprInfo) : Steps x (.unary i .postInc x.ty x) (fun n => n + 1) false
  | postDec (i : ExprInfo) : Steps x (.unary i .postDec x.ty x) (fun n => n - 1) false

/-- The item of an expression that steps a variable in the register `reg`. -/
def Gen.stepped (k : Kind) (reg : UInt16) (delta : Int32) (fresh : Bool) : Gen Item :=
  if fresh then do
    (Item.var k reg).increment delta
    return .var k reg
  else do
    let old ← (Item.var k reg).load
    (Item.var k reg).increment delta
    return old

section

variable (ctx : Context) (env : Env) {info : ExprInfo} {id : VarId} {reg : UInt16} {s : MethodState}

theorem Ty.widen_of_isIntLike {t : Ty} (h : t.isIntLike = true) : t.kind.widen = .int := by
  cases t <;> first | rfl | cases h

/-- A name stands for its variable and writes nothing. -/
theorem Expr.value_var (hinfo : info.const = none) (hreg : s.locals[id]? = some reg) :
    ((Expr.ident info (.var id)).code ctx env).value info.ty s = .ok (.var info.ty.kind reg) s := by
  have hitem : ((Expr.ident info (.var id)).code ctx env).item info.ty s = .ok
      (.var info.ty.kind reg) s := by
    show ExprCode.itemOf info (fun _ => ctx.ident info (.var id)) info.ty s = _
    rw [ExprCode.itemOf, hinfo]
    refine EStateM.bind_eq_ok.mpr ⟨reg, s, ?_, rfl⟩
    refine EStateM.bind_eq_ok.mpr ⟨s, s, rfl, ?_⟩
    rw [hreg]
    rfl
  refine EStateM.bind_eq_ok.mpr ⟨_, s, hitem, ?_⟩
  rw [ExprCode.coerce_self (show (Item.var info.ty.kind reg).kind = info.ty.kind from rfl)]
  rfl

theorem Expr.info_code (e : Expr) : (e.code ctx env).info = e.info := by
  cases e with
  | unary i op t a => cases op <;> rfl
  | binary i op t l r =>
      show (ctx.binaryCode i op t _ _ _).info = i
      unfold Context.binaryCode
      split
      · rfl
      · split
        · rfl
        · split <;> rfl
  | _ => rfl

/-- Stepping by an operator, which is carried out in the type of the variable. -/
theorem Context.unary_var {t : Ty} {arg : ExprCode} {k : Kind} (ht : t.family? = some .int)
    (hvalue : arg.value t s = .ok (.var k reg) s) :
    ctx.unary .preInc t arg s = Gen.stepped k reg 1 true s ∧
      ctx.unary .preDec t arg s = Gen.stepped k reg (-1) true s ∧
    ctx.unary .postInc t arg s = Gen.stepped k reg 1 false s ∧
    ctx.unary .postDec t arg s = Gen.stepped k reg (-1) false s := by
  have hselect {op : UnaryOp} {o : Opcode} (h : op.selectIn .int = some o) :
      op.select t = .ok o := by
    rw [UnaryOp.select, ht, Option.bind_some, h]
  have hinc : UnaryOp.preInc.select t = .ok .iadd ∧ UnaryOp.postInc.select t = .ok .iadd :=
    ⟨hselect rfl, hselect rfl⟩
  have hdec : UnaryOp.preDec.select t = .ok .isub ∧ UnaryOp.postDec.select t = .ok .isub :=
    ⟨hselect rfl, hselect rfl⟩
  refine ⟨?_, ?_, ?_, ?_⟩
  · refine (EStateM.bind_of_ok hvalue).trans ?_
    rw [hinc.1]
    rfl
  · refine (EStateM.bind_of_ok hvalue).trans ?_
    rw [hdec.1]
    rfl
  · refine (EStateM.bind_of_ok hvalue).trans ?_
    rw [hinc.2]
    rfl
  · refine (EStateM.bind_of_ok hvalue).trans ?_
    rw [hdec.2]
    rfl

/-- Stepping by an amount that is known. -/
theorem Context.assignOp_var {i : ExprInfo} {op : BinaryOp} {operand : Ty} {lhs rhs : ExprCode}
    {isNull : Bool} {k : Kind} {delta : Int32} (hstring : ¬ (op = .plus ∧ operand.isString = true))
    (hvalue : lhs.value lhs.info.ty s = .ok (.var k reg) s)
    (hstep : Context.knownStep? op lhs.info rhs.info = some delta) :
    ctx.assignOp i op operand lhs rhs isNull s = Gen.stepped k reg delta true s := by
  unfold Context.assignOp
  rw [if_neg hstring]
  refine (EStateM.bind_of_ok hvalue).trans ?_
  rw [show (Item.var k reg).isVar = true from rfl, if_pos rfl, hstep]
  rfl

theorem Expr.Steps.item {e : Expr} {f : Int32 → Int32} {fresh : Bool}
    (h : Steps (.ident info (.var id)) e f fresh) (he : e.const = none)
    (hty : info.ty.isIntLike = true) (hinfo : info.const = none) (hreg : s.locals[id]? = some reg)
    (t : Ty) :
    ∃ delta, (∀ n, n + delta = f n) ∧
      (e.code ctx env).item t s = Gen.stepped info.ty.kind reg delta fresh s := by
  have hvalue := Expr.value_var ctx env hinfo hreg
  have hfamily : info.ty.family? = some .int := by
    generalize info.ty = t at hty
    cases t <;> first | rfl | cases hty
  obtain ⟨hpreInc, hpreDec, hpostInc, hpostDec⟩ := Context.unary_var ctx hfamily hvalue
  have hitem (i : ExprInfo) (x : Gen Item) (hi : i.const = none) :
      ExprCode.itemOf i (fun _ => x) t s = x s := by
    rw [ExprCode.itemOf, hi]
  cases h with
  | @plus i operand r c hoperand hr hc =>
      refine ⟨c.toInt32, fun n => rfl, (hitem i _ he).trans ?_⟩
      refine Context.assignOp_var ctx
        (fun h => Bool.false_ne_true (hoperand.symm.trans h.2)) hvalue ?_
      rw [Expr.info_code, Expr.info_code]
      exact (if_pos (Bool.and_eq_true_iff.mpr ⟨hty, hr⟩)).trans (congrArg (Option.map _) hc)
  | @minus i operand r c hr hc =>
      refine ⟨-c.toInt32, fun n => (Int32.sub_eq_add_neg ..).symm, (hitem i _ he).trans ?_⟩
      refine Context.assignOp_var ctx (fun h => by cases h.1) hvalue ?_
      rw [Expr.info_code, Expr.info_code]
      exact (if_pos (Bool.and_eq_true_iff.mpr ⟨hty, hr⟩)).trans (congrArg (Option.map _) hc)
  | preInc i => exact ⟨1, fun n => rfl, (hitem i _ he).trans hpreInc⟩
  | preDec i => exact ⟨-1, fun n => (Int32.sub_eq_add_neg ..).symm, (hitem i _ he).trans hpreDec⟩
  | postInc i => exact ⟨1, fun n => rfl, (hitem i _ he).trans hpostInc⟩
  | postDec i => exact ⟨-1, fun n => (Int32.sub_eq_add_neg ..).symm, (hitem i _ he).trans hpostDec⟩

end

/-! ### What the machine does -/

theorem Spells.succeeds {α : Type} {x : Asm α} {a : α} {d d' : ℕ} {ops : List Operation}
    {s : MethodState} {c : Code} (h : Spells x a d d' ops) (hopens : s.asm.code.Opens c)
    (hdepth : c.frame.depth = d) (hpool : s.asm.pool.Indexed) :
    SucceedsWith (liftM x : Gen α) s fun b s' => b = a ∧ s.asm.Gains c ops d' s'.asm := by
  obtain ⟨p, hx, hgains⟩ := h s.asm c hopens hdepth hpool
  exact .asm ⟨a, p, hx, rfl, hgains⟩

/-- The item is loaded behind the step, or has been loaded before it. -/
theorem Gen.stepped_load {s : MethodState} {c : Code} {k : Kind} (hopens : s.asm.code.Opens c)
    (hpool : s.asm.pool.Indexed) (hk : k.widen = .int) (reg : UInt16) (delta : Int32)
    (fresh : Bool) :
    SucceedsWith (do (← Gen.stepped k reg delta fresh).load : Gen Item) s fun _ s' => ∃ ops,
      s.asm.Gains c ops (c.frame.depth + 1) s'.asm ∧ ∀ v n, v.regs reg.toNat = .int n →
        Operation.performAll ops v =
          some ⟨.int (if fresh then k.narrow (n + delta) else n) :: v.stack,
          Function.update v.regs reg.toNat (.int (k.narrow (n + delta)))⟩ := by
  unfold Gen.stepped
  cases fresh with
  | true =>
      obtain ⟨ops, hstep, hops⟩ := Spells.increment (d := c.frame.depth) hk reg delta
      refine (((hstep.succeeds hopens rfl hpool).bind fun _ s₁ h₁ => .pure ⟨rfl, h₁.2⟩ :
        SucceedsWith _ s fun i s₁ => i = .var k reg ∧ s.asm.Gains c ops c.frame.depth s₁.asm)).bind
          ?_
      rintro _ s₁ ⟨rfl, h₁⟩
      refine ((Spells.loadVar hk reg).succeeds (Code.opens_self h₁.alive h₁.pending) h₁.depth
        h₁.indexed).mono ?_
      rintro _ s₂ ⟨-, h₂⟩
      refine ⟨_, h₁.append h₂, fun v n hn => ?_⟩
      rw [Operation.performAll_append, hops v n hn]
      exact Operation.performAll_load (Function.update_self ..)
  | false =>
      obtain ⟨ops, hstep, hops⟩ := Spells.increment (d := c.frame.depth + 1) hk reg delta
      refine SucceedsWith.bind (P := fun i s₂ => i = .stack k ∧
        s.asm.Gains c ([.load reg.toNat] ++ ops) (c.frame.depth + 1) s₂.asm) ?_ ?_
      · refine ((Spells.loadVar hk reg).succeeds hopens rfl hpool).bind ?_
        rintro _ s₁ ⟨rfl, h₁⟩
        refine (hstep.succeeds (Code.opens_self h₁.alive h₁.pending) h₁.depth h₁.indexed).bind
          fun _ s₂ h₂ => ?_
        exact .pure ⟨rfl, h₁.append h₂.2⟩
      · rintro _ s₂ ⟨rfl, h₂⟩
        refine .asm (.pure ⟨_, h₂, fun v n hn => ?_⟩)
        rw [Operation.performAll_append, Operation.performAll_load hn]
        exact hops ⟨.int n :: v.stack, v.regs⟩ n hn

/-- Adding an amount to a variable of an integer kind leaves the stack alone and the sum, cut back
to the kind, in the register; and an expression that steps such a variable loads as its new value,
or as the old one if it is a postfix form. -/
theorem Expr.steps_exact (s : MethodState) (c : Code) (hopens : s.asm.code.Opens c)
    (hpool : s.asm.pool.Indexed) (info : ExprInfo) (id : VarId) (reg : UInt16)
    (hty : info.ty.isIntLike = true) (hinfo : info.const = none) (hreg : s.locals[id]? = some reg) :
    (∀ delta, ∃ s', (Item.var info.ty.kind reg).increment delta s.asm = .ok () s' ∧
      (s'.pool.size ≤ 0xFFFF → ∀ v n, v.regs reg.toNat = .int n →
        s'.program.Executes (c.pc, v) (s'.code.pc, ⟨v.stack,
          Function.update v.regs reg.toNat (.int (info.ty.kind.narrow (n + delta)))⟩))) ∧
    ∀ ctx env t e f fresh, Steps (.ident info (.var id)) e f fresh → e.const = none →
      SucceedsWith (do (← (e.code ctx env).item t).load : Gen Item) s fun _ s' =>
        s'.asm.pool.size ≤ 0xFFFF → ∀ v n, v.regs reg.toNat = .int n →
          s'.asm.program.Executes (c.pc, v) (s'.asm.code.pc,
            ⟨.int (if fresh then info.ty.kind.narrow (f n) else n) :: v.stack,
              Function.update v.regs reg.toNat (.int (info.ty.kind.narrow (f n)))⟩) := by
  have hk := Ty.widen_of_isIntLike hty
  refine ⟨fun delta => ?_, fun ctx env t e f fresh hsteps he => ?_⟩
  · obtain ⟨ops, hstep, hops⟩ := Spells.increment hk reg delta
    obtain ⟨s', hrun, hgains⟩ := hstep s.asm c hopens rfl hpool
    exact ⟨s', hrun, fun hsize v n hn => (hgains.fetches hsize).executes (hops v n hn)⟩
  · obtain ⟨delta, hdelta, hitem⟩ := hsteps.item ctx env he hty hinfo hreg t
    obtain ⟨i, s', hrun, ops, hgains, hops⟩ := Gen.stepped_load hopens hpool hk reg delta fresh
    refine ⟨i, s', ?_, fun hsize v n hn => ?_⟩
    · obtain ⟨j, s₁, hj, hload⟩ := EStateM.bind_eq_ok.mp hrun
      exact EStateM.bind_eq_ok.mpr ⟨j, s₁, hitem.trans hj, hload⟩
    · rw [← hdelta n]
      exact (hgains.fetches hsize).executes (hops v n hn)

/-- A variable of kind `char` in a register past the first 256, from which the least `int` is
taken. -/
theorem Expr.steps_exact_char :
    ∃ s : MethodState, s.locals[(7 : VarId)]? = some 300 ∧ ∀ ctx env t,
      SucceedsWith
        (do (← ((Expr.assignOp ⟨default, .char, none⟩ .minus .int
          (.ident ⟨default, .char, none⟩ (.var 7))
        (.literal ⟨default, .int, some (.int (-0x80000000))⟩)).code ctx env).item t).load :
          Gen Item) s fun _ s' =>
          s'.asm.pool.size ≤ 0xFFFF → ∀ v n, v.regs 300 = .int n →
            s'.asm.program.Executes (0, v) (s'.asm.code.pc,
              ⟨.int (Kind.char.narrow (n - -0x80000000)) :: v.stack,
                Function.update v.regs 300 (.int (Kind.char.narrow (n - -0x80000000)))⟩) := by
  have hreg : ((∅ : Std.TreeMap VarId UInt16).insert 7 300)[(7 : VarId)]? = some 300 :=
    Std.TreeMap.getElem?_insert_self
  refine ⟨{ locals := (∅ : Std.TreeMap VarId UInt16).insert 7 300 }, hreg, fun ctx env t => ?_⟩
  have hsteps := @Expr.Steps.minus (.ident ⟨default, .char, none⟩ (.var 7))
    ⟨default, .char, none⟩ .int
    (.literal ⟨default, .int, some (.int (-0x80000000))⟩) (.int (-0x80000000)) rfl rfl
  exact (Expr.steps_exact _ {} (Code.opens_self rfl rfl) Pool.indexed_empty
    ⟨default, .char, none⟩ 7 300 rfl rfl hreg).2
    ctx env t _ _ true hsteps rfl

end StackCode
