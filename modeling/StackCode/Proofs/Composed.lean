import StackCode.Proofs.Built
import StackCode.Proofs.Lineless

/-!
# Steps and what they look at

`Composed asks scopes x` says of a step `x` on any part of the state that it is put together
from elementary steps, of which it also says what they look at. An operation on the code does
not look at the line table, and neither the line table nor the reports nor the append methods
found so far decide how a step goes on. Only resolvers with `asks` are asked for methods, and
their failures may be of any kind; without `scopes`, nothing is done to the scopes and no row
is entered into the exception table.

This module shows that writing instructions and using items is composed this way. Where the
resolvers asked have no failures but their own, what is composed is built (`Composed.built`).
-/

namespace StackCode

/-- The state with another line table and other records of the class. -/
def MethodState.beside (s : MethodState) (keep : Bool) (lines : Array LineRow) (reports : Reports)
    (appends : List (Ty × MethodSymbol)) : MethodState :=
  { s with asm := ⟨s.asm.code.withLines keep lines, s.asm.pool⟩, reports, appends }

/-- The step is put together from elementary ones that look at nothing they should not. -/
inductive Composed (asks : Resolver → Prop) (scopes : Bool) :
    {σ : Type} → [Part σ] → {α : Type} → EStateM Error σ α → Prop
  | pure {σ α : Type} [Part σ] {a : α} : Composed asks scopes (Pure.pure a : EStateM Error σ α)
  | throw {σ α : Type} [Part σ] {e : Error} (plain : e.isPlain = true) :
      Composed asks scopes (MonadExcept.throw e : EStateM Error σ α)
  | bind {σ α β : Type} [Part σ] {x : EStateM Error σ α} {f : α → EStateM Error σ β}
      (first : Composed asks scopes x) (rest : ∀ a, Composed asks scopes (f a)) :
      Composed asks scopes (x >>= f)
  /-- a look at the code, the line table apart -/
  | inspect {α : Type} {f : Code → Emit α}
      (blind : ∀ c keep lines, f (c.withLines keep lines) = f c)
      (rest : ∀ c, Composed asks scopes (f c)) : Composed asks scopes (get >>= f)
  | update {α : Type} {g : Code → α × Code} (h : Code.Operates g) :
      Composed asks scopes (modifyGet g : Emit α)
  /-- a branch gets its target, and something is done to the code after that -/
  | settle {α : Type} {g : Code → α × Code} (pc target : Nat) (h : Code.Operates g) :
      Composed asks scopes (modifyGet fun c => g (c.patch pc target) : Emit α)
  | onCode {α : Type} {x : Emit α} (h : Composed asks scopes x) :
      Composed asks scopes (Asm.onCode x)
  | pooled (put : Pool → UInt16 × Pool) : Composed asks scopes (Asm.pooled put)
  | onAsm {α : Type} {x : Asm α} (h : Composed asks scopes x) : Composed asks scopes (Gen.onAsm x)
  /-- a look at anything but the line table, the reports and the append methods found so far -/
  | look {α : Type} {f : MethodState → Gen α}
      (ignores : ∀ s keep lines reports appends, f (s.beside keep lines reports appends) = f s)
      (rest : ∀ s, Composed asks scopes (f s)) : Composed asks scopes (get >>= f)
  /-- a change of what the generator knows of variables and of its own mode -/
  | note (g : MethodState → Std.TreeMap VarId UInt16 × Bool × Nat)
      (ignores : ∀ s keep lines reports appends, g (s.beside keep lines reports appends) = g s) :
      Composed asks scopes (modify fun s : MethodState =>
        { s with locals := (g s).1, subroutines := (g s).2.1, letDepth := (g s).2.2 } : Gen Unit)
  | report (span : Span) (limit : Limit) : Composed asks scopes (Gen.report span limit)
  | checkDimensions (span : Span) (t : Ty) : Composed asks scopes (Gen.checkDimensions span t)
  | checkString (span : Span) (c : Option Const) : Composed asks scopes (Gen.checkString span c)
  /-- a question to a resolver -/
  | ask {r : Resolver} (h : asks r) (site : Ty) (name : String) (args : List Ty) :
      Composed asks scopes (liftM (r.method site name args) : Gen MethodSymbol)
  | appendMethod {ctx : Context} (h : asks ctx.resolver) (t : Ty) :
      Composed asks scopes (ctx.appendMethod t)
  | onScopes {α : Type} {x : Scoping α} (h : scopes = true) (sized : NoOverflow x) :
      Composed asks scopes (Gen.onScopes x)
  | addCatch (h : scopes = true) (span : Span) (row : CatchRow) :
      Composed asks scopes (Gen.addCatch span row)

theorem Built.liftExcept {r : Option Resolver} {scopes : Bool} {α : Type} {x : Except Error α}
    (h : ∀ e, x = .error e → e.isPlain = true) : Built r scopes (liftM x : Gen α) := by
  cases x with
  | ok a => exact .pure
  | error e => exact .throw (h e rfl)

/-- What is composed with questions to one resolver that has no failures but its own is built. -/
theorem Composed.built {asks : Resolver → Prop} {scopes : Bool} {σ α : Type} [Part σ]
    {x : EStateM Error σ α} (h : Composed asks scopes x) {r : Option Resolver}
    (hasks : ∀ r', asks r' → r'.IsPlain ∧ r = some r') : Built r scopes x := by
  induction h with
  | pure => exact .pure
  | throw plain => exact .throw plain
  | bind _ _ ihx ihf => exact ihx.bind ihf
  | inspect _ _ ih => exact Built.code.bind ih
  | update h => exact .update h.keeps
  | settle pc target h => exact .settle pc target h.keeps
  | onCode _ ih => exact ih.onCode
  | pooled put => exact .pooled put
  | onAsm _ ih => exact ih.onAsm
  | look ignores _ ih =>
      exact .look (fun s => ignores s s.asm.code.keepLines s.asm.code.lines) ih
  | note g ignores =>
      exact .note g fun s => ignores s s.asm.code.keepLines s.asm.code.lines
  | report span limit => exact .report span limit
  | checkDimensions span t => exact .checkDimensions span t
  | checkString span c => exact .checkString span c
  | ask h site name args => exact .liftExcept ((hasks _ h).1 site name args)
  | appendMethod h t => exact .appendMethod ⟨(hasks _ h).1, (hasks _ h).2⟩ t
  | onScopes h sized => exact .onScopes h sized
  | addCatch h span row => exact .addCatch h span row

namespace Composed

variable {asks : Resolver → Prop} {scopes : Bool} {σ α β : Type} [Part σ] {x y : EStateM Error σ α}

theorem ite {c : Prop} [Decidable c] (hx : Composed asks scopes x) (hy : Composed asks scopes y) :
    Composed asks scopes (if c then x else y) := by
  split
  · exact hx
  · exact hy

/-- A step that may be left out, and then another one. -/
theorem optional {c : Prop} [Decidable c] {x : EStateM Error σ PUnit}
    {f : PUnit → EStateM Error σ β} (hx : Composed asks scopes x)
    (hf : ∀ u, Composed asks scopes (f u)) : Composed asks scopes (if c then x >>= f else f ⟨⟩) :=
  .ite (hx.bind hf) (hf ⟨⟩)

theorem modifyCode {g : Code → Code} (h : Code.Changes g) :
    Composed asks scopes (modify g : Emit Unit) :=
  .update h.operates

/-- A change that has nothing to do with bytes or lines. -/
theorem set {g : Code → Code} (h : ∀ c keep lines, c.Light (g c) ∧
    g (c.withLines keep lines) = (g c).withLines keep lines) :
    Composed asks scopes (modify g : Emit Unit) :=
  .modifyCode (.light (fun c => (h c false #[]).1) fun c keep lines => (h c keep lines).2)

theorem inGen {x : Emit α} (h : Composed asks scopes x) : Composed asks scopes (liftM x : Gen α) :=
  .onAsm (.onCode h)

theorem liftExcept {x : Except Error α} (h : ∀ e, x = .error e → e.isPlain = true) :
    Composed asks scopes (liftM x : Gen α) := by
  cases x with
  | ok a => exact .pure
  | error e => exact .throw (h e rfl)

/-- Steps for every element of a list. -/
theorem forM {γ : Type} {xs : List γ} {f : γ → EStateM Error σ PUnit}
    (h : ∀ a ∈ xs, Composed asks scopes (f a)) : Composed asks scopes (xs.forM f) := by
  induction xs with
  | nil => exact .pure
  | cons a xs ih =>
      exact .bind (h a (List.mem_cons_self ..)) fun _ => ih fun b hb =>
        h b (List.mem_cons_of_mem a hb)

end Composed

theorem Chain.merge_plain {a b : Chain} {e : Error} (h : a.merge b = .error e) :
    e.isPlain = true := by
  induction a, b using Chain.merge.induct with
  | case1 b => simp at h
  | case2 a _ => simp at h
  | case3 x a y b hcompat hlt ih =>
      rw [Chain.merge, if_pos hcompat, if_pos hlt] at h
      cases hrest : Chain.merge (x :: a) b with
      | ok c => rw [hrest] at h; cases h
      | error e' => rw [hrest] at h; cases h; exact ih hrest
  | case4 x a y b hcompat hlt ih =>
      rw [Chain.merge, if_pos hcompat, if_neg hlt] at h
      cases hrest : Chain.merge a (y :: b) with
      | ok c => rw [hrest] at h; cases h
      | error e' => rw [hrest] at h; cases h; exact ih hrest
  | case5 x a y b hcompat =>
      rw [Chain.merge, if_neg hcompat] at h
      cases h
      rfl

section

variable {asks : Resolver → Prop} {scopes : Bool}

/-! ### Writing instructions -/

namespace Emit

/-- Taking a `goto` back where the state is known is taking it back where there is one. -/
theorem resolveLinks_cons (link : Link) (rest : Chain) (target : Nat) (joined : Option Frame) :
    resolveLinks (link :: rest) target joined = (do
      let c ← get
      let target := min target c.pc
      if c.endsWithGoto link target then
        if rest.isEmpty then
          let _ ← modifyGet fun c => if c.endsWithGoto link target then
            ((), { c.dropTail 3 with alive := true }) else ((), c)
          pure joined
        else
          let joined ← modifyGet fun c => if c.endsWithGoto link target then
            ((c.dropTail 3).land link (target - 3) joined).swap else (joined, c)
          resolveLinks rest (target - 3) joined
      else
        let current := joined.getD c.frame
        if c.alive && !link.frame.compatible current then
          throw (.stateMismatch target (.branch link.pc link.frame.depth link.frame.heldLocks
            current.depth current.heldLocks))
        let joined ← modifyGet fun c => ((c.patch link.pc target).land link target joined).swap
        resolveLinks rest target joined) := by
  funext c
  have hget {α : Type} (f : Code → Emit α) : (get >>= f) c = f c c := rfl
  have hupdate {α β : Type} (f : Code → α × Code) (k : α → Emit β) :
      (modifyGet f >>= k) c = k (f c).1 (f c).2 := rfl
  rw [resolveLinks, hget, hget]
  dsimp only
  split
  · rename_i hends
    split
    · rw [hupdate, if_pos hends]
      rfl
    · rw [hupdate, hupdate, if_pos hends]
  · rfl

theorem composed_resolveLinks (chain : Chain) (target : Nat) (joined : Option Frame) :
    Composed asks scopes (resolveLinks chain target joined) := by
  induction chain generalizing target joined with
  | nil => exact .pure
  | cons link rest ih =>
      rw [resolveLinks_cons]
      refine .inspect (fun _ _ _ => rfl) fun c => .ite (.ite ?_ ?_) ?_
      · have halive : Code.Changes fun c => { c with alive := true } :=
          .light (fun _ => ⟨⟨rfl, rfl, rfl⟩, rfl, rfl⟩) fun _ _ _ => rfl
        exact .bind (.update (Code.operates_retract link _ () halive.operates)) fun _ => .pure
      · exact .bind (.update (Code.operates_retract link _ joined (Code.operates_land ..)))
          fun _ => ih _ _
      · exact .optional (.throw rfl) fun _ =>
          .bind (.settle link.pc _ (Code.operates_land link (min target c.pc) joined))
            fun _ => ih _ _

theorem composed_resolveTo (chain : Chain) (target : Nat) :
    Composed asks scopes (resolveTo chain target) := by
  refine (composed_resolveLinks chain target none).bind fun joined => ?_
  cases joined with
  | none => exact .pure
  | some frame => exact .set fun _ _ _ => ⟨⟨⟨rfl, rfl, rfl⟩, rfl, rfl⟩, rfl⟩

theorem composed_resolvePending : Composed asks scopes resolvePending :=
  .inspect (fun _ _ _ => rfl) fun c => .ite .pure <|
    .bind (.set fun _ _ _ => ⟨⟨⟨rfl, rfl, rfl⟩, rfl, rfl⟩, rfl⟩) fun _ =>
      composed_resolveTo c.pending c.pc

theorem composed_merge (chain pending : Chain) :
    Composed asks scopes (match chain.merge pending with
    | .ok pending => modify fun c => { c with pending }
    | .error e => throw e : Emit Unit) := by
  cases hm : chain.merge pending with
  | ok merged => exact .set fun _ _ _ => ⟨⟨⟨rfl, rfl, rfl⟩, rfl, rfl⟩, rfl⟩
  | error e => exact .throw (Chain.merge_plain hm)

theorem composed_resolve (chain : Chain) : Composed asks scopes (resolve chain) := by
  refine .inspect (fun _ _ _ => rfl) fun c => ?_
  cases chain with
  | nil => exact composed_merge [] c.pending
  | cons link rest => exact .optional (.throw rfl) fun _ => composed_merge (link :: rest) c.pending

theorem composed_opcode (op : Opcode) : Composed asks scopes (opcode op) :=
  composed_resolvePending.bind fun _ => .inspect (fun _ _ _ => rfl) fun _ => .ite
    (.modifyCode (Code.changes_markLine.andThen (Code.changes_put1 op))) .pure

theorem composed_effect (e : Effect) : Composed asks scopes (effect e) :=
  .inspect (fun _ _ _ => rfl) fun _ => .optional (.throw (by cases e <;> rfl)) fun _ =>
    .modifyCode (Code.changes_applyEffect e)

theorem composed_finishOp (op : Opcode) (operands : Operands) :
    Composed asks scopes (finishOp op operands) := by
  refine .inspect (fun _ _ _ => rfl) fun _ => .ite ?_ .pure
  split
  · exact .ite (composed_effect _) (.throw rfl)
  · exact .throw rfl

theorem composed_plain (op : Opcode) : Composed asks scopes (plain op) :=
  (composed_opcode op).bind fun _ => composed_finishOp op .plain

theorem composed_byte (op : Opcode) (b : UInt8) : Composed asks scopes (byte op b) :=
  (composed_opcode op).bind fun _ => .bind (.modifyCode (Code.changes_put1 b)) fun _ =>
    composed_finishOp op .byte

theorem composed_register (op : Opcode) (reg : UInt16) : Composed asks scopes (register op reg) :=
  .ite
    ((composed_opcode .wide).bind fun _ => (composed_opcode op).bind fun _ =>
      .bind (.modifyCode (Code.changes_put2 reg)) fun _ => composed_finishOp op .register)
    ((composed_opcode op).bind fun _ => .bind (.modifyCode (Code.changes_put1 _)) fun _ =>
      composed_finishOp op .register)

theorem composed_short (op : Opcode) (w : UInt16) : Composed asks scopes (short op w) :=
  (composed_opcode op).bind fun _ => .bind (.modifyCode (Code.changes_put2 w)) fun _ =>
    composed_finishOp op .short

theorem composed_int (op : Opcode) (n : Int32) : Composed asks scopes (int op n) :=
  (composed_opcode op).bind fun _ => .bind (.modifyCode (Code.changes_put4 n)) fun _ =>
    composed_finishOp op .int

theorem composed_iinc (reg : UInt16) (delta : Int16) : Composed asks scopes (iinc reg delta) :=
  .ite
    ((composed_opcode .wide).bind fun _ => (composed_opcode .iinc).bind fun _ =>
      .modifyCode ((Code.changes_put2 reg).andThen (Code.changes_put2 _)))
    ((composed_opcode .iinc).bind fun _ =>
      .modifyCode ((Code.changes_put1 _).andThen (Code.changes_put1 _)))

/-- The effect of an instruction, if it was written. -/
theorem composed_live {x : Emit Unit} (h : Composed asks scopes x) :
    Composed asks scopes (do if (← get).alive then x : Emit Unit) :=
  .inspect (fun _ _ _ => rfl) fun _ => .ite h .pure

theorem composed_ldc (index : UInt16) (k : Kind) : Composed asks scopes (ldc index k) := by
  have hrest : ∀ _ : PUnit, Composed asks scopes
      (do if (← get).alive then effect (.trade 0 k) : Emit Unit) :=
    fun _ => composed_live (composed_effect _)
  refine .ite ?_ (.ite ?_ ?_)
  · exact (composed_opcode _).bind fun _ => .bind (.modifyCode (Code.changes_put2 index)) hrest
  · exact (composed_opcode _).bind fun _ => .bind (.modifyCode (Code.changes_put1 _)) hrest
  · exact (composed_opcode _).bind fun _ => .bind (.modifyCode (Code.changes_put2 index)) hrest

theorem composed_field (op : Opcode) (index : UInt16) (k : Kind) :
    Composed asks scopes (field op index k) := by
  refine (composed_opcode op).bind fun _ => .bind (.modifyCode (Code.changes_put2 index)) fun _ =>
    composed_live ?_
  split
  · exact composed_effect _
  · exact .throw rfl

theorem composed_invoke (op : Opcode) (index : UInt16) (words : Nat) (k : Kind) :
    Composed asks scopes (invoke op index words k) :=
  (composed_opcode op).bind fun _ => .bind (.modifyCode (Code.changes_put2 index)) fun _ =>
    .optional (.modifyCode ((Code.changes_put1 _).andThen (Code.changes_put1 _))) fun _ =>
      composed_live (composed_effect _)

theorem composed_multiarray (dims : UInt8) (index : UInt16) :
    Composed asks scopes (multiarray dims index) :=
  (composed_opcode _).bind fun _ =>
    .bind (.modifyCode ((Code.changes_put2 index).andThen (Code.changes_put1 dims))) fun _ =>
      composed_live (composed_effect _)

theorem composed_pad (n : Nat) : Composed asks scopes (pad n) := by
  induction n with
  | zero => exact .pure
  | succ n ih => exact (composed_plain .nop).bind fun _ => ih

theorem composed_align (unit : Nat) : Composed asks scopes (align unit) :=
  .inspect (fun _ _ _ => rfl) fun _ => .inspect (fun _ _ _ => rfl) fun _ => .ite
    ((composed_plain .nop).bind fun _ => .inspect (fun _ _ _ => rfl) fun _ => composed_pad _) .pure

theorem composed_jump (op : Opcode) : Composed asks scopes (jump op) := by
  have hpc (k : Nat) : ∀ _ : PUnit, Composed asks scopes (do return (← get).pc - k : Emit Nat) :=
    fun _ => .inspect (fun _ _ _ => rfl) fun _ => .pure
  refine .inspect (fun _ _ _ => rfl) fun _ => .ite (.ite ?_ (.ite ?_ ?_)) ?_
  · exact (composed_int .gotoW 0).bind (hpc 5)
  · exact (composed_int .jsrW 0).bind (hpc 5)
  · exact (composed_short op.negate 8).bind fun _ => (composed_int .gotoW 0).bind fun _ =>
      .bind (.set fun _ _ _ => ⟨⟨⟨rfl, rfl, rfl⟩, rfl, rfl⟩, rfl⟩) (hpc 5)
  · exact (composed_short op 0).bind (hpc 3)

theorem composed_branch (op : Opcode) : Composed asks scopes (branch op) :=
  .inspect (fun _ _ _ => rfl) fun _ =>
    .optional (.set fun _ _ _ => ⟨⟨⟨rfl, rfl, rfl⟩, rfl, rfl⟩, rfl⟩) fun _ =>
    .inspect (fun _ _ _ => rfl) fun _ => .ite .pure <| (composed_jump op).bind fun _ =>
      .inspect (fun _ _ _ => rfl) fun _ => .bind (.modifyCode (.beside (fun _ => ⟨rfl, rfl, rfl⟩)
        (fun _ hwide _ => ⟨hwide, Nat.le_refl _⟩) fun _ _ _ => rfl)) fun _ => .pure

theorem composed_curPc : Composed asks scopes curPc :=
  have hfixed : Code.Changes fun c => { c with fixed := true } :=
    .beside (fun _ => ⟨rfl, rfl, rfl⟩) (fun _ _ _ => ⟨rfl, Nat.le_refl _⟩) fun _ _ _ => rfl
  composed_resolvePending.bind fun _ =>
    .bind (.modifyCode (Code.changes_markLine.andThen hfixed)) fun _ => .inspect (fun _ _ _ => rfl)
      fun _ => .pure

theorem composed_entry : Composed asks scopes entry :=
  composed_curPc.bind fun _ => .bind (.set fun _ _ _ => ⟨⟨⟨rfl, rfl, rfl⟩, rfl, rfl⟩, rfl⟩)
    fun _ => .pure

theorem composed_entryWith (frame : Frame) : Composed asks scopes (entryWith frame) :=
  composed_curPc.bind fun _ => .bind (.set fun _ _ _ => ⟨⟨⟨rfl, rfl, rfl⟩, rfl, rfl⟩, rfl⟩)
    fun _ => .pure

theorem composed_entryPushed (frame : Frame) (k : Kind) :
    Composed asks scopes (entryPushed frame k) :=
  (composed_entryWith frame).bind fun _ =>
    .bind (.set fun _ _ _ => ⟨⟨⟨rfl, rfl, rfl⟩, rfl, rfl⟩, rfl⟩) fun _ => .pure

theorem composed_newReg (k : Kind) : Composed asks scopes (newReg k) :=
  .update (Code.operates_newReg k)

theorem composed_newVar (name : String) (ty : Ty) : Composed asks scopes (newVar name ty) :=
  .update (Code.operates_newVar name ty)

theorem composed_endVar (reg : Nat) : Composed asks scopes (endVar reg) := by
  refine .bind (.update (Code.operates_takeSlot reg)) fun slot => ?_
  split
  · exact composed_curPc.bind fun _ =>
      .ite (.set fun _ _ _ => ⟨⟨⟨rfl, rfl, rfl⟩, rfl, rfl⟩, rfl⟩) .pure
  · exact .pure

theorem composed_endVars (reg n : Nat) : Composed asks scopes (endVars reg n) := by
  induction n generalizing reg with
  | zero => exact .pure
  | succ n ih => exact (composed_endVar reg).bind fun _ => ih (reg + 1)

theorem composed_endScopes (first : Nat) : Composed asks scopes (endScopes first) :=
  .inspect (fun _ _ _ => rfl) fun _ => .bind (.set fun _ _ _ => ⟨⟨⟨rfl, rfl, rfl⟩, rfl, rfl⟩, rfl⟩)
    fun _ => composed_endVars _ _

end Emit

namespace Cond

theorem composed_join (a b : Chain) : Composed asks scopes (join a b) := by
  unfold join
  split
  · exact .pure
  · exact .throw (Chain.merge_plain ‹_›)

theorem composed_jumpTrue (c : Cond) : Composed asks scopes c.jumpTrue :=
  (Emit.composed_branch _).bind fun _ => composed_join _ _

theorem composed_jumpFalse (c : Cond) : Composed asks scopes c.jumpFalse :=
  (Emit.composed_branch _).bind fun _ => composed_join _ _

theorem composed_load (c : Cond) : Composed asks scopes c.load := by
  have hend (exit falseChain : Chain) : Composed asks scopes (do
      unless falseChain.isEmpty do
        Emit.resolve falseChain
        Emit.plain .iconst0
      Emit.resolve exit : Emit Unit) :=
    .ite (Emit.composed_resolve exit) ((Emit.composed_resolve falseChain).bind fun _ =>
      (Emit.composed_plain _).bind fun _ => Emit.composed_resolve exit)
  refine c.composed_jumpFalse.bind fun falseChain => .ite ?_ ?_
  · exact Composed.pure.bind fun exit => hend exit falseChain
  · exact (Emit.composed_resolve _).bind fun _ => (Emit.composed_plain _).bind fun _ =>
      (Emit.composed_branch _).bind fun exit => hend exit falseChain

end Cond

/-! ### Using items -/

namespace Item

theorem composed_illegal {α : Type} (i : Item) (use : String) :
    Composed asks scopes (i.illegal use : Asm α) :=
  .throw rfl

theorem composed_loadInt (v : Int32) : Composed asks scopes (loadInt v) :=
  .ite (Emit.composed_plain _).onCode <| .ite (Emit.composed_byte _ _).onCode <|
    .ite (Emit.composed_short _ _).onCode <| (Composed.pooled _).bind fun _ =>
      (Emit.composed_ldc _ _).onCode

theorem composed_loadLong (v : Int64) : Composed asks scopes (loadLong v) :=
  .ite (Emit.composed_plain _).onCode <| .ite (Emit.composed_plain _).onCode <|
    (Composed.pooled _).bind fun _ => (Emit.composed_ldc _ _).onCode

theorem composed_loadFloat (bits : UInt32) : Composed asks scopes (loadFloat bits) :=
  .ite (Emit.composed_plain _).onCode <| .ite (Emit.composed_plain _).onCode <|
    .ite (Emit.composed_plain _).onCode <| (Composed.pooled _).bind fun _ =>
      (Emit.composed_ldc _ _).onCode

theorem composed_loadDouble (bits : UInt64) : Composed asks scopes (loadDouble bits) :=
  .ite (Emit.composed_plain _).onCode <| .ite (Emit.composed_plain _).onCode <|
    (Composed.pooled _).bind fun _ => (Emit.composed_ldc _ _).onCode

theorem composed_loadConst (k : Kind) (c : Const) : Composed asks scopes (loadConst k c) := by
  cases k with
  | int | byte | short | char => exact composed_loadInt _
  | long => exact composed_loadLong _
  | float => exact composed_loadFloat _
  | double => exact composed_loadDouble _
  | object | void => exact (Composed.pooled _).bind fun _ => (Emit.composed_ldc _ _).onCode

theorem composed_onRegister (family short : Opcode) (k : Kind) (reg : UInt16) :
    Composed asks scopes (onRegister family short k reg) :=
  .ite (Emit.composed_plain _) (Emit.composed_register _ _)

theorem composed_memberIndex (m : MemberRef) : Composed asks scopes (Asm.memberIndex m) := .pooled _

theorem composed_field (op : Opcode) (m : MemberRef) :
    Composed asks scopes (do Emit.field op (← Asm.memberIndex m) m.kind : Asm Unit) :=
  (composed_memberIndex m).bind fun _ => (Emit.composed_field _ _ _).onCode

theorem composed_define (reg : UInt16) : Composed asks scopes
    (modify fun s : Assembly => { s with code := s.code.define reg } : Asm Unit) := by
  have h : Composed asks scopes (Asm.onCode (modify (·.define reg))) :=
    .onCode (.set fun _ _ _ => ⟨⟨⟨rfl, rfl, rfl⟩, rfl, rfl⟩, rfl⟩)
  exact h

theorem composed_store (i : Item) : Composed asks scopes i.store := by
  cases i with
  | var k reg => exact (composed_onRegister _ _ k reg).onCode.bind fun _ => composed_define reg
  | static m => exact composed_field _ m
  | member m nonvirtual => exact composed_field _ m
  | indexed k => exact (Emit.composed_plain _).onCode
  | _ => exact composed_illegal _ _

theorem composed_dupKind (k : Kind) : Composed asks scopes (dupKind k) := by
  unfold dupKind
  split
  · exact .pure
  · exact Emit.composed_plain _
  · exact Emit.composed_plain _

theorem composed_stash (i : Item) (k : Kind) : Composed asks scopes (i.stash k) := by
  cases i with
  | stack _ | member _ _ | indexed _ => exact (Emit.composed_plain _).onCode
  | assign _ | cond _ => exact composed_illegal _ _
  | _ => exact (composed_dupKind k).onCode

theorem composed_load (i : Item) : Composed asks scopes i.load := by
  cases i with
  | stack k => exact .pure
  | self isSuper => exact (Emit.composed_plain _).onCode.bind fun _ => .pure
  | var k reg => exact (composed_onRegister _ _ k reg).onCode.bind fun _ => .pure
  | static m =>
      exact (composed_memberIndex m).bind fun _ => (Emit.composed_field _ _ _).onCode.bind
        fun _ => .pure
  | member m nonvirtual =>
      exact (composed_memberIndex m).bind fun _ => (Emit.composed_field _ _ _).onCode.bind
        fun _ => .pure
  | indexed k => exact (Emit.composed_plain _).onCode.bind fun _ => .pure
  | const k c => exact (composed_loadConst k c).bind fun _ => .pure
  | assign lhs =>
      exact (lhs.composed_stash _).bind fun _ => lhs.composed_store.bind fun _ => .pure
  | cond c => exact c.composed_load.onCode.bind fun _ => .pure
  | void => exact composed_illegal _ _

theorem composed_invoke (i : Item) : Composed asks scopes i.invoke := by
  cases i with
  | static m =>
      exact (composed_memberIndex m).bind fun _ => (Emit.composed_invoke _ _ _ _).onCode.bind
        fun _ => .pure
  | member m nonvirtual =>
      exact (composed_memberIndex m).bind fun _ => (Emit.composed_invoke _ _ _ _).onCode.bind
        fun _ => .pure
  | _ => exact composed_illegal _ _

theorem composed_duplicate (i : Item) : Composed asks scopes i.duplicate := by
  cases i with
  | stack _ | member _ _ | indexed _ => exact (Emit.composed_plain _).onCode
  | assign lhs => exact (composed_load (.assign lhs)).bind fun _ => (composed_dupKind _).onCode
  | cond c => exact (composed_load (.cond c)).bind fun _ => (composed_dupKind _).onCode
  | _ => exact .pure

theorem composed_discard (i : Item) : Composed asks scopes i.discard := by
  cases i with
  | stack _ | member _ _ | indexed _ => exact (Emit.composed_plain _).onCode
  | assign lhs => exact lhs.composed_store
  | cond c => exact c.composed_load.onCode.bind fun _ => (Emit.composed_plain _).onCode
  | _ => exact .pure

theorem composed_convert (source target : Kind) : Composed asks scopes (convert source target) := by
  have hnarrow : ∀ _ : PUnit, Composed asks scopes (do
      if target ≠ target.widen then Emit.plain (.i2b + (target.code - Kind.byte.code)) :
        Emit Unit) :=
    fun _ => .ite (Emit.composed_plain _) .pure
  exact .ite (.optional (.throw rfl) fun _ => (Emit.composed_plain _).bind hnarrow) (hnarrow ⟨⟩)

theorem composed_coerce (i : Item) (target : Kind) : Composed asks scopes (i.coerce target) := by
  have hconvert : Composed asks scopes (do
      let _ ← i.load
      convert i.kind target
      return ofKind target : Asm Item) :=
    i.composed_load.bind fun _ => (composed_convert _ _).onCode.bind fun _ => .pure
  refine .ite .pure ?_
  dsimp only
  split
  · exact .pure
  · exact hconvert

theorem composed_toCond (i : Item) : Composed asks scopes i.toCond := by
  cases i with
  | cond c => exact .pure
  | const k c => exact .pure
  | _ => exact (composed_load _).bind fun _ => .pure

theorem composed_increment (i : Item) (delta : Int32) :
    Composed asks scopes (i.increment delta) := by
  cases i with
  | var k reg =>
      have hend : ∀ _ : PUnit, Composed asks scopes (do
          let _ ← (Item.stack .int).coerce k
          (Item.var k reg).store : Asm Unit) :=
        fun _ => (composed_coerce _ _).bind fun _ => composed_store _
      refine .ite (Emit.composed_iinc _ _).onCode ((composed_load _).bind fun _ => .ite ?_ ?_)
      · exact (composed_load _).bind fun _ => (Emit.composed_plain _).onCode.bind hend
      · exact (composed_load _).bind fun _ => (Emit.composed_plain _).onCode.bind hend
  | _ => exact composed_illegal _ _

end Item

end

end StackCode
