import StackCode.Generate.Tree
import StackCode.Proofs.Composed

/-!
# What expressions are composed of

Every construct of an expression is composed of elementary steps if its parts are, and
without scopes: only the statements of a `letIn` need them.
-/

namespace StackCode

theorem BinaryOp.select_plain {op : BinaryOp} {t : Ty} {e : Error}
    (h : op.select t = .error e) : e.isPlain = true := by
  unfold select at h
  split at h
  · cases h
  · cases h
    rfl

theorem UnaryOp.select_plain {op : UnaryOp} {t : Ty} {e : Error}
    (h : op.select t = .error e) : e.isPlain = true := by
  unfold select at h
  split at h
  · cases h
  · cases h
    rfl

section

variable {asks : Resolver → Prop} {scopes : Bool}

/-! ### Shared steps -/

namespace Gen

/-- A look at the code, the line table apart. -/
theorem composed_peek {α β : Type} {f : Code → α} {g : α → Gen β}
    (blind : ∀ c keep lines, f (c.withLines keep lines) = f c)
    (rest : ∀ a, Composed asks scopes (g a)) : Composed asks scopes (peek f >>= g) :=
  .look (f := fun s => g (f s.asm.code)) (fun _ _ _ _ _ => congrArg g (blind ..))
    fun s => rest (f s.asm.code)

theorem composed_peekScope {α : Type} (id : ScopeId) (f : Scope → α) :
    Composed asks scopes (peekScope id f) :=
  .look (f := fun s => pure (f (s.scopes.get id))) (fun _ _ _ _ _ => rfl) fun _ => .pure

theorem composed_touch {f : Code → Code} (h : Code.Changes f) : Composed asks scopes (touch f) :=
  (Composed.modifyCode h).inGen

/-- A change that has nothing to do with lines. -/
theorem composed_set {f : Code → Code} (h : ∀ c keep lines, c.Light (f c) ∧
    f (c.withLines keep lines) = (f c).withLines keep lines) : Composed asks scopes (touch f) :=
  (Composed.set h).inGen

theorem composed_typeIndex (span : Span) (t : Ty) : Composed asks scopes (typeIndex span t) :=
  (Composed.checkDimensions _ _).bind fun _ => (Composed.pooled _).onAsm

theorem composed_registerOf (id : VarId) : Composed asks scopes (registerOf id) := by
  refine .look (fun _ _ _ _ _ => rfl) fun s => ?_
  split
  · exact .pure
  · exact .throw rfl

theorem composed_declare (v : LocalVar) : Composed asks scopes (declare v) :=
  (Emit.composed_newVar _ _).inGen.bind fun reg =>
    .bind (.note (fun s => (s.locals.insert v.id reg, s.subroutines, s.letDepth))
      fun _ _ _ _ _ => rfl)
      fun _ => .pure

theorem composed_freeing {α : Type} {x : Gen α} (h : Composed asks scopes x) :
    Composed asks scopes (freeing x) :=
  composed_peek (fun _ _ _ => rfl) fun _ => h.bind fun _ => (Emit.composed_endScopes _).inGen.bind
    fun _ => .pure

theorem composed_ranged {α : Type} {x : Gen α} (span : Span) (flags : UInt16)
    (h : Composed asks scopes x) :
    Composed asks scopes (ranged span flags x) :=
  composed_peek (fun _ _ _ => rfl) fun _ => .ite h <|
    Emit.composed_curPc.inGen.bind fun _ => h.bind fun _ => Emit.composed_curPc.inGen.bind fun _ =>
      (composed_touch (Code.changes_addRange _)).bind fun _ => .pure

end Gen

namespace Context

variable {ctx : Context}

theorem composed_callLibrary (hr : asks ctx.resolver) (site : Ty) (name : String) (args : List Ty) :
    Composed asks scopes (ctx.callLibrary site name args) :=
  (Composed.ask hr site name args).bind fun _ => (Item.composed_invoke _).onAsm

theorem composed_newBuilder (hr : asks ctx.resolver) (span : Span) :
    Composed asks scopes (ctx.newBuilder span) :=
  (Gen.composed_typeIndex _ _).bind fun _ => (Emit.composed_short _ _).inGen.bind fun _ =>
    (Emit.composed_plain _).inGen.bind fun _ => (composed_callLibrary hr _ _ _).bind fun _ => .pure

theorem composed_appendPiece (hr : asks ctx.resolver) (t : Ty) :
    Composed asks scopes (ctx.appendPiece t) :=
  (Composed.appendMethod hr _).bind fun _ => (Item.composed_invoke _).onAsm.bind fun _ => .pure

theorem composed_builderText (hr : asks ctx.resolver) : Composed asks scopes ctx.builderText :=
  (composed_callLibrary hr _ _ _).bind fun _ => .pure

end Context

/-! ### The code of an expression -/

/-- The code of an expression is composed of elementary steps whatever is wanted of it. -/
structure ExprCode.IsComposed (asks : Resolver → Prop) (scopes : Bool) (e : ExprCode) : Prop where
  item : ∀ t, Composed asks scopes (e.item t)
  cond : Composed asks scopes e.cond
  bareCond : Composed asks scopes e.bareCond
  append : Composed asks scopes e.append
  effect : Composed asks scopes e.effect

namespace ExprCode

variable {ctx : Context} {e : ExprCode}

namespace IsComposed

theorem value (h : e.IsComposed asks scopes) (t : Ty) : Composed asks scopes (e.value t) :=
  (h.item t).bind fun _ => (Item.composed_coerce _ _).onAsm

theorem push (h : e.IsComposed asks scopes) (t : Ty) : Composed asks scopes (e.push t) :=
  (h.value t).bind fun _ => (Item.composed_load _).onAsm

theorem test (h : e.IsComposed asks scopes) (flags : UInt16) :
    Composed asks scopes (e.test flags) :=
  Gen.composed_ranged _ _ h.cond

theorem bareTest (h : e.IsComposed asks scopes) (flags : UInt16) :
    Composed asks scopes (e.bareTest flags) :=
  Gen.composed_ranged _ _ h.bareCond

end IsComposed

theorem composed_itemOf (info : ExprInfo) {visit : Ty → Gen Item}
    (h : ∀ t, Composed asks scopes (visit t)) (t : Ty) :
    Composed asks scopes (itemOf info visit t) := by
  unfold itemOf
  split
  · exact (Composed.checkString _ _).bind fun _ => .pure
  · exact h t

theorem isComposed_ofItem (hr : asks ctx.resolver) (info : ExprInfo) {visit : Ty → Gen Item}
    (h : ∀ t, Composed asks scopes (visit t)) : (ofItem ctx info visit).IsComposed asks scopes := by
  have hvalue (t : Ty) : Composed asks scopes
      (do (← itemOf info visit t).coerce t.kind : Gen Item) :=
    (composed_itemOf info h t).bind fun _ => (Item.composed_coerce _ _).onAsm
  have hcond := (hvalue .boolean).bind fun i => (Item.composed_toCond i).onAsm
  exact ⟨composed_itemOf info h, hcond, hcond,
    (hvalue info.ty).bind fun i => (Item.composed_load i).onAsm.bind fun _ =>
      Context.composed_appendPiece hr _,
    hvalue info.ty⟩

theorem isComposed_parens (hr : asks ctx.resolver) (info : ExprInfo) (bareIsCond : Bool)
    (h : e.IsComposed asks scopes) : (parens ctx info bareIsCond e).IsComposed asks scopes := by
  have hplain := isComposed_ofItem hr info fun _ => h.value e.info.ty
  exact ⟨hplain.item, .ite h.cond hplain.cond, h.bareCond, h.append, hplain.effect⟩

end ExprCode

/-! ### Constructs -/

namespace Gen

theorem composed_literal (info : ExprInfo) (t : Ty) : Composed asks scopes (literal info t) := by
  unfold literal
  refine .optional (.throw rfl) fun _ => (Emit.composed_plain _).inGen.bind fun _ => .ite ?_ .pure
  exact (composed_typeIndex _ _).bind fun _ => (Emit.composed_short _ _).inGen.bind fun _ => .pure

theorem composed_selfRef (isSuper : Bool) (ctor : Option MethodSymbol) :
    Composed asks scopes (selfRef isSuper ctor) := by
  cases ctor with
  | none => exact .pure
  | some m => exact (Item.composed_load _).onAsm.bind fun _ => .pure

theorem composed_classLit (info : ExprInfo) (t : Ty) : Composed asks scopes (classLit info t) :=
  (composed_typeIndex _ _).bind fun _ => (Emit.composed_ldc _ _).inGen.bind fun _ => .pure

theorem composed_pushArgs {args : List ExprCode} (h : ∀ e ∈ args, e.IsComposed asks scopes)
    (params : List Ty) : Composed asks scopes (pushArgs args params) :=
  .optional (.throw rfl) fun _ => .forM fun (e, t) ht =>
    ((h e (List.of_mem_zip ht).1).push t).bind fun _ => .pure

theorem composed_apply {callee : ExprCode} {args : List ExprCode}
    (hc : callee.IsComposed asks scopes) (ha : ∀ e ∈ args, e.IsComposed asks scopes)
    (m : Option MethodSymbol) :
    Composed asks scopes (apply callee m args) := by
  refine (hc.item _).bind fun item => ?_
  cases m with
  | none => exact .throw rfl
  | some m => exact (composed_pushArgs ha _).bind fun _ => (Item.composed_invoke _).onAsm

theorem composed_newClass (info : ExprInfo) (ctor : MethodSymbol) {args : List ExprCode}
    (h : ∀ e ∈ args, e.IsComposed asks scopes) : Composed asks scopes (newClass info ctor args) :=
  (composed_typeIndex _ _).bind fun _ => (Emit.composed_short _ _).inGen.bind fun _ =>
    (Emit.composed_plain _).inGen.bind fun _ => (composed_pushArgs h _).bind fun _ =>
      (Item.composed_invoke _).onAsm.bind fun _ => .pure

theorem composed_allocate (span : Span) (t : Ty) (dims : Nat) :
    Composed asks scopes (allocate span t dims) := by
  unfold allocate
  split
  · exact .throw rfl
  · refine (Composed.checkDimensions _ _).bind fun _ => .ite ?_ (.ite ?_ ?_)
    · exact (composed_typeIndex _ _).bind fun _ => (Emit.composed_short _ _).inGen.bind
        fun _ => .pure
    · exact (composed_typeIndex _ _).bind fun _ => (Emit.composed_multiarray _ _).inGen.bind
        fun _ => .pure
    · exact (Emit.composed_byte _ _).inGen.bind fun _ => .pure

theorem composed_newArray (info : ExprInfo) {dims : List ExprCode}
    (h : ∀ e ∈ dims, e.IsComposed asks scopes) : Composed asks scopes (newArray info dims) :=
  .bind (.forM fun d hd => ((h d hd).push .int).bind fun _ => .pure) fun _ =>
    composed_allocate _ _ _

theorem composed_storeElems (array : Item) (t : Ty) {elems : List ExprCode}
    (h : ∀ e ∈ elems, e.IsComposed asks scopes) (i : Nat) :
    Composed asks scopes (storeElems array t elems i) := by
  induction elems generalizing i with
  | nil => exact .pure
  | cons e es ih =>
      exact (Item.composed_duplicate _).onAsm.bind fun _ =>
        (Item.composed_load _).onAsm.bind fun _ =>
        ((h e (List.mem_cons_self ..)).push t).bind fun _ =>
          (Item.composed_store _).onAsm.bind fun _ =>
          ih (fun e' he' => h e' (List.mem_cons_of_mem e he')) (i + 1)

theorem composed_arrayInit (info : ExprInfo) {elems : List ExprCode}
    (h : ∀ e ∈ elems, e.IsComposed asks scopes) : Composed asks scopes (arrayInit info elems) := by
  unfold arrayInit
  split
  · exact .throw rfl
  · exact (Item.composed_load _).onAsm.bind fun _ => (composed_allocate _ _ _).bind fun _ =>
      (composed_storeElems _ _ h 0).bind fun _ => .pure

theorem composed_assign {lhs rhs : ExprCode} (hl : lhs.IsComposed asks scopes)
    (hr : rhs.IsComposed asks scopes) :
    Composed asks scopes (assign lhs rhs) :=
  (hl.value _).bind fun _ => (hr.push _).bind fun _ => .pure

theorem composed_index (info : ExprInfo) {array idx : ExprCode} (ha : array.IsComposed asks scopes)
    (hi : idx.IsComposed asks scopes) : Composed asks scopes (index info array idx) :=
  (ha.push _).bind fun _ => (hi.push _).bind fun _ => .pure

theorem composed_typeTest (info : ExprInfo) {arg : ExprCode} (h : arg.IsComposed asks scopes)
    (target : Ty) :
    Composed asks scopes (typeTest info arg target) :=
  (h.push _).bind fun _ => (composed_typeIndex _ _).bind fun _ =>
    (Emit.composed_short _ _).inGen.bind fun _ => .pure

theorem composed_arm {e : ExprCode} (h : e.IsComposed asks scopes) (t : Ty) (k : Kind) :
    Composed asks scopes (arm e t k) :=
  composed_ranged _ _ <| (h.push t).bind fun _ => composed_set fun _ _ _ =>
    ⟨⟨⟨rfl, rfl, rfl⟩, rfl, rfl⟩, rfl⟩

theorem composed_condValue (info : ExprInfo) {test onTrue onFalse : ExprCode}
    (ht : test.IsComposed asks scopes) (hT : onTrue.IsComposed asks scopes)
    (hF : onFalse.IsComposed asks scopes) (t : Ty) :
    Composed asks scopes (condValue info test onTrue onFalse t) := by
  have hend (falseChain exit : Chain) : Composed asks scopes (do
      unless falseChain.isEmpty do
        Emit.resolve falseChain
        arm onFalse t info.ty.kind
      Emit.resolve exit
      return .ofTy t : Gen Item) :=
    have hexit : ∀ _ : PUnit, Composed asks scopes (do
        Emit.resolve exit
        return .ofTy t : Gen Item) :=
      fun _ => (Emit.composed_resolve exit).inGen.bind fun _ => .pure
    .ite (hexit ⟨⟩) ((Emit.composed_resolve falseChain).inGen.bind fun _ =>
      (composed_arm hF _ _).bind hexit)
  refine (ht.test _).bind fun c => c.composed_jumpFalse.inGen.bind fun falseChain => .ite ?_ ?_
  · exact Composed.pure.bind fun exit => hend falseChain exit
  · exact (Emit.composed_resolve _).inGen.bind fun _ => (composed_arm hT _ _).bind fun _ =>
      (Emit.composed_branch _).inGen.bind fun exit => hend falseChain exit

theorem composed_letIn {stats : Gen Unit} {value : ExprCode} (hs : Composed asks scopes stats)
    (hv : value.IsComposed asks scopes) : Composed asks scopes (letIn stats value) :=
  composed_freeing <|
    .bind (.note (fun s => (s.locals, s.subroutines, s.letDepth + 1)) fun _ _ _ _ _ => rfl) fun _ =>
      hs.bind fun _ => (hv.push _).bind fun _ =>
        .bind (.note (fun s => (s.locals, s.subroutines, s.letDepth - 1)) fun _ _ _ _ _ =>
          rfl) fun _ =>
          .pure

theorem composed_condCond {test onTrue onFalse : ExprCode} (ht : test.IsComposed asks scopes)
    (hT : onTrue.IsComposed asks scopes) (hF : onFalse.IsComposed asks scopes) :
    Composed asks scopes (condCond test onTrue onFalse) := by
  refine (ht.test _).bind fun c => .ite ?_ (.ite ?_ ?_)
  · exact (Emit.composed_resolve _).inGen.bind fun _ => hT.test _
  · exact (Emit.composed_resolve _).inGen.bind fun _ => hF.test _
  · exact c.composed_jumpFalse.inGen.bind fun second =>
      (Emit.composed_resolve _).inGen.bind fun _ =>
      (hT.test _).bind fun t => t.composed_jumpFalse.inGen.bind fun _ =>
      (Emit.composed_resolve _).inGen.bind fun _ => (Emit.composed_branch _).inGen.bind fun _ =>
      (Emit.composed_resolve _).inGen.bind fun _ => (hF.test _).bind fun f =>
      (Cond.composed_join _ _).inGen.bind fun _ => (Cond.composed_join _ _).inGen.bind
        fun _ => .pure

theorem composed_both {lhs rhs : ExprCode} (hl : lhs.IsComposed asks scopes)
    (hr : rhs.IsComposed asks scopes) :
    Composed asks scopes (both lhs rhs) :=
  (hl.test _).bind fun l => .ite .pure <| l.composed_jumpFalse.inGen.bind fun _ =>
    (Emit.composed_resolve _).inGen.bind fun _ => (hr.test _).bind fun _ =>
      (Cond.composed_join _ _).inGen.bind fun _ => .pure

theorem composed_either {lhs rhs : ExprCode} (hl : lhs.IsComposed asks scopes)
    (hr : rhs.IsComposed asks scopes) :
    Composed asks scopes (either lhs rhs) :=
  (hl.test _).bind fun l => .ite .pure <| l.composed_jumpTrue.inGen.bind fun _ =>
    (Emit.composed_resolve _).inGen.bind fun _ => (hr.test _).bind fun _ =>
      (Cond.composed_join _ _).inGen.bind fun _ => .pure

theorem composed_finishBinary (op : BinaryOp) (operand : Ty) {rhs : ExprCode}
    (h : rhs.IsComposed asks scopes) (rhsIsNull : Bool) (result : Ty) :
    Composed asks scopes (finishBinary op operand rhs rhsIsNull result) := by
  have hend (op : Opcode) : Composed asks scopes (do
      if op.isConditional then return .cond { op }
      Emit.plain op
      return .ofTy result : Gen Item) :=
    .ite .pure ((Emit.composed_plain op).inGen.bind fun _ => .pure)
  refine (Composed.liftExcept fun _ => BinaryOp.select_plain).bind fun s =>
    .ite (Composed.pure.bind hend) (.ite (Composed.pure.bind hend) ((h.push _).bind fun _ => ?_))
  split
  · exact (Emit.composed_plain _).inGen.bind fun _ => Composed.pure.bind hend
  · exact Composed.pure.bind hend

theorem composed_narrow (k : Kind) : Composed asks scopes (narrow k) :=
  .ite (Emit.composed_plain _).inGen .pure

theorem composed_stepFirst (op : Opcode) (delta : Int32) (place : Item) :
    Composed asks scopes (stepFirst op delta place) :=
  (Item.composed_duplicate _).onAsm.bind fun _ => .ite
    ((Item.composed_increment _ _).onAsm.bind fun _ => .pure)
    ((Item.composed_load _).onAsm.bind fun _ => (Emit.composed_plain _).inGen.bind fun _ =>
      (Emit.composed_plain _).inGen.bind fun _ => (composed_narrow _).bind fun _ => .pure)

theorem composed_stepLast (op : Opcode) (delta : Int32) (place : Item) :
    Composed asks scopes (stepLast op delta place) :=
  (Item.composed_duplicate _).onAsm.bind fun _ => .ite
    ((Item.composed_load _).onAsm.bind fun _ => (Item.composed_increment _ _).onAsm.bind
      fun _ => .pure)
    ((Item.composed_load _).onAsm.bind fun _ => (Item.composed_stash _ _).onAsm.bind fun _ =>
      (Emit.composed_plain _).inGen.bind fun _ => (Emit.composed_plain _).inGen.bind fun _ =>
      (composed_narrow _).bind fun _ => (Item.composed_store _).onAsm.bind fun _ => .pure)

end Gen

namespace Context

open Gen

variable {ctx : Context}

theorem composed_ownMember (m : MemberRef) (flags : Access) :
    Composed asks scopes (ctx.ownMember m flags) :=
  .ite .pure ((Item.composed_load _).onAsm.bind fun _ => .pure)

theorem composed_ident (info : ExprInfo) (sym : Symbol) :
    Composed asks scopes (ctx.ident info sym) := by
  cases sym with
  | var id => exact (composed_registerOf id).bind fun _ => .pure
  | field f => exact composed_ownMember _ _
  | method m => exact composed_ownMember _ _
  | length | type _ => exact .throw rfl

theorem composed_nullCheck (hr : asks ctx.resolver) : Composed asks scopes ctx.nullCheck :=
  (composed_callLibrary hr _ _ _).bind fun _ => (Emit.composed_plain _).inGen

theorem composed_dropQualifier (base : Item) (viaSuper : Bool) :
    Composed asks scopes (dropQualifier base viaSuper) :=
  .ite (Composed.pure.bind fun i => (Item.composed_discard i).onAsm)
    ((Item.composed_load _).onAsm.bind fun i => (Item.composed_discard i).onAsm)

theorem composed_selectMember (base : Item) (viaSuper : Bool) (site : Ty) (m : MemberRef)
    (flags : Access) : Composed asks scopes (ctx.selectMember base viaSuper site m flags) :=
  .ite ((composed_dropQualifier _ _).bind fun _ => .pure)
    ((Item.composed_load _).onAsm.bind fun _ => .pure)

/-- What is selected from a qualifier that is there. -/
theorem composed_selected (hr : asks ctx.resolver) (target : ExprCode) (viaSuper : Bool)
    (sym : Symbol) (base : Item) : Composed asks scopes (do
      match sym with
      | .length =>
        let _ ← base.load
        Emit.plain .arraylength
        return .stack .int
      | .field f =>
        match f.const with
        | some c =>
          if f.flags.has Access.staticBit then dropQualifier base viaSuper
          else
            let _ ← base.load
            ctx.nullCheck
          return .const f.ty.kind c
        | none => ctx.selectMember base viaSuper target.info.ty (.ofField f) f.flags
      | .method m => ctx.selectMember base viaSuper target.info.ty (.ofMethod m) m.flags
      | .var _ | .type _ => throw (.internal (.notAMember target.info.span.firstLine)) :
        Gen Item) := by
  cases sym with
  | length =>
      exact (Item.composed_load _).onAsm.bind fun _ => (Emit.composed_plain _).inGen.bind
        fun _ => .pure
  | field f =>
      dsimp only
      cases f.const with
      | some c =>
          exact .ite ((composed_dropQualifier _ _).bind fun _ => .pure)
            ((Item.composed_load _).onAsm.bind fun _ => (composed_nullCheck hr).bind fun _ => .pure)
      | none => exact composed_selectMember _ _ _ _ _
  | method m => exact composed_selectMember _ _ _ _ _
  | var _ | type _ => exact .throw rfl

theorem composed_select (hr : asks ctx.resolver) {target : ExprCode}
    (h : target.IsComposed asks scopes) (viaSuper : Bool) (sym : Symbol) :
    Composed asks scopes (ctx.select target viaSuper sym) :=
  have hsym := composed_selected hr target viaSuper sym
  .ite (Composed.pure.bind hsym) ((h.value _).bind hsym)

theorem composed_cast (info : ExprInfo) (target : Ty) {arg : ExprCode}
    (h : arg.IsComposed asks scopes) :
    Composed asks scopes (ctx.cast info target arg) :=
  (h.push target).bind fun _ => .ite
    ((composed_typeIndex _ _).bind fun _ => (Emit.composed_short _ _).inGen.bind fun _ =>
      .pure) .pure

theorem composed_unary (hr : asks ctx.resolver) (op : UnaryOp) (operand : Ty) {arg : ExprCode}
    (h : arg.IsComposed asks scopes) : Composed asks scopes (ctx.unary op operand arg) := by
  have hselect (op : UnaryOp) : Composed asks scopes (liftM (op.select operand) : Gen Opcode) :=
    .liftExcept fun _ => UnaryOp.select_plain
  cases op with
  | not => exact h.cond.bind fun _ => .pure
  | pos => exact (h.value _).bind fun _ => (Item.composed_load _).onAsm
  | neg =>
      exact (h.push _).bind fun _ => (hselect _).bind fun _ =>
        (Emit.composed_plain _).inGen.bind fun _ =>
        .pure
  | compl =>
      refine (h.push _).bind fun _ => .ite ?_ ?_
      · exact (Item.composed_load _).onAsm.bind fun _ => (hselect _).bind fun _ =>
          (Emit.composed_plain _).inGen.bind fun _ => .pure
      · exact (Emit.composed_plain _).inGen.bind fun _ => (hselect _).bind fun _ =>
          (Emit.composed_plain _).inGen.bind fun _ => .pure
  | preInc | preDec =>
      exact (h.value _).bind fun _ => (hselect _).bind fun _ => composed_stepFirst _ _ _
  | postInc | postDec =>
      exact (h.value _).bind fun _ => (hselect _).bind fun _ => composed_stepLast _ _ _
  | nullCheck =>
      exact (h.push _).bind fun _ => (Emit.composed_plain _).inGen.bind fun _ =>
        (composed_nullCheck hr).bind fun _ => .pure

theorem isComposed_unaryCode (hr : asks ctx.resolver) (info : ExprInfo) (op : UnaryOp)
    (operand : Ty) {arg : ExprCode} (h : arg.IsComposed asks scopes) :
    (ctx.unaryCode info op operand arg).IsComposed asks scopes := by
  have hcode := ExprCode.isComposed_ofItem hr info fun _ => composed_unary hr op operand h
  unfold unaryCode
  split
  · exact ⟨hcode.item, hcode.cond, hcode.bareCond, hcode.append,
      composed_unary hr .preInc operand h⟩
  · exact ⟨hcode.item, hcode.cond, hcode.bareCond, hcode.append,
      composed_unary hr .preDec operand h⟩
  · exact hcode

theorem isComposed_binaryCode (hr : asks ctx.resolver) (info : ExprInfo) (op : BinaryOp)
    (operand : Ty) {lhs rhs : ExprCode} (hlhs : lhs.IsComposed asks scopes)
    (hrhs : rhs.IsComposed asks scopes) (rhsIsNull : Bool) :
    (ctx.binaryCode info op operand lhs rhs rhsIsNull).IsComposed asks scopes := by
  unfold binaryCode
  split
  · exact ExprCode.isComposed_ofItem hr info fun _ => (composed_both hlhs hrhs).bind fun _ => .pure
  split
  · exact ExprCode.isComposed_ofItem hr info fun _ => (composed_either hlhs hrhs).bind
      fun _ => .pure
  split
  · have hpieces := hlhs.append.bind fun _ => hrhs.append
    have hcode := ExprCode.isComposed_ofItem hr info fun _ =>
      (composed_newBuilder hr info.span).bind fun _ => hpieces.bind fun _ => composed_builderText hr
    exact ⟨hcode.item, hcode.cond, hcode.bareCond, .ite hpieces hcode.append, hcode.effect⟩
  · exact ExprCode.isComposed_ofItem hr info fun _ => (hlhs.push _).bind fun _ =>
      composed_finishBinary _ _ hrhs _ _

theorem composed_concatAssign (hr : asks ctx.resolver) (info : ExprInfo) {lhs rhs : ExprCode}
    (hlhs : lhs.IsComposed asks scopes) (hrhs : rhs.IsComposed asks scopes) :
    Composed asks scopes (ctx.concatAssign info lhs rhs) :=
  (composed_newBuilder hr _).bind fun _ => (hlhs.value _).bind fun _ =>
    .optional (Emit.composed_plain _).inGen fun _ => (Item.composed_load _).onAsm.bind fun _ =>
      (composed_appendPiece hr _).bind fun _ => hrhs.append.bind fun _ =>
        (composed_builderText hr).bind fun _ => .pure

theorem composed_assignOp (hr : asks ctx.resolver) (info : ExprInfo) (op : BinaryOp) (operand : Ty)
    {lhs rhs : ExprCode} (hlhs : lhs.IsComposed asks scopes) (hrhs : rhs.IsComposed asks scopes)
    (rhsIsNull : Bool) : Composed asks scopes (ctx.assignOp info op operand lhs rhs rhsIsNull) := by
  refine .ite (composed_concatAssign hr info hlhs hrhs) ((hlhs.value _).bind fun place => ?_)
  split
  · exact (Item.composed_increment _ _).onAsm.bind fun _ => .pure
  · exact (Item.composed_duplicate _).onAsm.bind fun _ =>
      (Item.composed_coerce _ _).onAsm.bind fun _ =>
      (Item.composed_load _).onAsm.bind fun _ => (composed_finishBinary _ _ hrhs _ _).bind fun _ =>
        (Item.composed_coerce _ _).onAsm.bind fun _ => .pure

end Context

end

end StackCode
