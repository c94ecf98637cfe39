import StackCode.Proofs.Increments
import StackCode.Proofs.Reuse

/-!
# Strings are built piece by piece

A tree of concatenations is one row of pieces: whichever way the operators nest and however they are
parenthesized, the code makes one builder, appends to it the pieces from left to right, each by the
method for its type, and asks it for its text. `Expr.Pieces locals e ps` reads the row `ps` off the
tree, each piece with its type and the instructions that load it.

Code is described as a list of `Phrase`s, which are instructions together with the constants that
they refer to. `Phrased` and `PhrasedNext` are to phrases what `Spells` and `Continues` are to
operations, for steps that may also look up a variable or a method.
-/

set_option maxRecDepth 4000

namespace StackCode

open Instruction

/-! ### Phrases -/

/-- An instruction, with the constant that it refers to. -/
inductive Phrase where
  /-- an operation on values -/
  | act (o : Operation)
  /-- an instruction whose operand is at most a register -/
  | form (f : Form)
  /-- an instruction on a constant of the pool -/
  | refer (op : Opcode) (c : Pool.Constant)

namespace Phrase

def load (k : Kind) (reg : UInt16) : Phrase := .form (.onLocal .iload .iload0 k reg)

def store (k : Kind) (reg : UInt16) : Phrase := .form (.onLocal .istore .istore0 k reg)

def dup : Phrase := .form { op := .dup, length := 1 }

/-- A new object, which no constructor has run on. -/
def create (cls : String) : Phrase := .refer .newObject (.cls cls)

/-- A call of a method of the builder. -/
def call (op : Opcode) (name : String) (t : MethodTy) : Phrase :=
  .refer op (.member .method Ty.builderName name t.descriptor)

/-- The instruction stands at `pc`, and the one behind it at `next`. -/
def At (p : Program) (pc next : ℕ) : Phrase → Prop
  | .act o => p.fetch pc = some (o, next)
  | .form f => f.Reads p.bytes pc ∧ next = pc + f.length
  | .refer op c => Form.Reads p.bytes pc { op, length := 3 } ∧ next = pc + 3 ∧
      ∃ i, Holds p.bytes (pc + 1) (wordBytes i) ∧ p.pool.Reads i c

end Phrase

namespace Program

/-- The instructions stand one behind the other, from `pc` up to `stop`. -/
def ListsPhrases (p : Program) : ℕ → List Phrase → ℕ → Prop
  | pc, [], stop => pc = stop
  | pc, w :: ws, stop => ∃ next, w.At p pc next ∧ p.ListsPhrases next ws stop

variable {p : Program} {lo mid hi : ℕ} {ws ws' : List Phrase}

theorem ListsPhrases.append (h : p.ListsPhrases lo ws mid) (h' : p.ListsPhrases mid ws' hi) :
    p.ListsPhrases lo (ws ++ ws') hi := by
  induction ws generalizing lo with
  | nil => exact h ▸ h'
  | cons w ws ih =>
      obtain ⟨next, hat, hrest⟩ := h
      exact ⟨next, hat, ih hrest⟩

theorem Fetches.lists {ops : List Operation} (h : p.Fetches lo ops hi) :
    p.ListsPhrases lo (ops.map .act) hi := by
  induction ops generalizing lo with
  | nil => exact h
  | cons o ops ih =>
      obtain ⟨next, hfetch, hrest⟩ := h
      exact ⟨next, hfetch, ih hrest⟩

end Program

/-! ### Steps that write phrases -/

/-- The pool can be searched, the variables are in the registers `locals`, and the append methods on
record are those that the resolver finds. -/
structure MethodState.Coherent (s : MethodState) (r : Resolver)
    (locals : Std.TreeMap VarId UInt16) : Prop where
  indexed : s.asm.pool.Indexed
  locals : s.locals = locals
  recalls : r.Recalls s.appends

section

variable (r : Resolver) (locals : Std.TreeMap VarId UInt16)

/-- The step answers with `a` and writes the phrases `ws`, which take the depth of the stack from
`d` to `d'`. -/
def Phrased {σ α : Type} [Part σ] (x : EStateM Error σ α) (a : α) (d d' : ℕ)
    (ws : List Phrase) : Prop :=
  ∀ s c, s.Coherent r locals → s.asm.code.Opens c → c.frame.depth = d → SucceedsWith x s fun b s' =>
    b = a ∧ s'.Coherent r locals ∧
      s.asm.Grows c (fun p q stop => p.ListsPhrases q ws stop) d' s'.asm

/-- The same behind an instruction, so that nothing may be written as well. -/
def PhrasedNext {σ α : Type} [Part σ] (x : EStateM Error σ α) (a : α) (d d' : ℕ)
    (ws : List Phrase) : Prop :=
  ∀ s, s.Coherent r locals → s.asm.code.alive = true → s.asm.code.pending = [] →
    s.asm.code.frame.depth = d →
    SucceedsWith x s fun b s' =>
      b = a ∧ s'.Coherent r locals ∧
        s.asm.Grows s.asm.code (fun p q stop => p.ListsPhrases q ws stop) d' s'.asm

end

section

variable {r : Resolver} {locals : Std.TreeMap VarId UInt16} {σ α β : Type} [Part σ]
  {x : EStateM Error σ α}
  {f : α → EStateM Error σ β} {a : α} {b : β} {d d' d'' : ℕ} {ws ws' : List Phrase}

theorem Phrased.next (h : Phrased r locals x a d d' ws) : PhrasedNext r locals x a d d' ws :=
  fun s hs halive hpending => h s s.asm.code hs (Code.opens_self halive hpending)

theorem PhrasedNext.pure (a : α) (d : ℕ) :
    PhrasedNext r locals (pure a : EStateM Error σ α) a d d [] := by
  rintro s hs halive hpending rfl
  exact .pure ⟨rfl, hs, .refl halive hpending hs.indexed fun p q => rfl⟩

theorem PhrasedNext.bind (h : PhrasedNext r locals x a d d' ws)
    (h' : PhrasedNext r locals (f a) b d' d'' ws') :
    PhrasedNext r locals (x >>= f) b d d'' (ws ++ ws') := by
  intro s hs halive hpending hdepth
  refine (h s hs halive hpending hdepth).bind ?_
  rintro _ s₁ ⟨rfl, hs₁, h₁⟩
  refine (h' s₁ hs₁ h₁.alive h₁.pending h₁.depth).mono ?_
  exact fun _ s₂ ⟨hb, hs₂, h₂⟩ => ⟨hb, hs₂, h₁.append h₂ fun _ _ _ _ => Program.ListsPhrases.append⟩

theorem Phrased.bind (h : Phrased r locals x a d d' ws)
    (h' : PhrasedNext r locals (f a) b d' d'' ws') :
    Phrased r locals (x >>= f) b d d'' (ws ++ ws') := by
  intro s c hs hopens hdepth
  refine (h s c hs hopens hdepth).bind ?_
  rintro _ s₁ ⟨rfl, hs₁, h₁⟩
  refine (h' s₁ hs₁ h₁.alive h₁.pending h₁.depth).mono ?_
  exact fun _ s₂ ⟨hb, hs₂, h₂⟩ => ⟨hb, hs₂, h₁.append h₂ fun _ _ _ _ => Program.ListsPhrases.append⟩

/-- A step that answers and changes nothing may stand in front. -/
theorem PhrasedNext.answer (h : PhrasedNext r locals x a d d' [])
    (h' : PhrasedNext r locals (f a) b d' d'' ws) :
    PhrasedNext r locals (x >>= f) b d d'' ws := h.bind h'

theorem Phrased.then_pure (h : Phrased r locals x a d d' ws) (hf : f a = Pure.pure b) :
    Phrased r locals (x >>= f) b d d' ws :=
  List.append_nil ws ▸ h.bind (hf ▸ PhrasedNext.pure b d')

theorem PhrasedNext.then_pure (h : PhrasedNext r locals x a d d' ws) (hf : f a = Pure.pure b) :
    PhrasedNext r locals (x >>= f) b d d' ws :=
  List.append_nil ws ▸ h.bind (hf ▸ PhrasedNext.pure b d')

theorem Phrased.asm {x : Asm α} (h : Phrased r locals x a d d' ws) :
    Phrased r locals (liftM x : Gen α) a d d' ws :=
  fun s c hs hopens hdepth => .asm (h s c hs hopens hdepth)

theorem PhrasedNext.asm {x : Asm α} (h : PhrasedNext r locals x a d d' ws) :
    PhrasedNext r locals (liftM x : Gen α) a d d' ws :=
  fun s hs halive hpending hdepth => .asm (h s hs halive hpending hdepth)

/-- What is reported makes no difference to the code. -/
theorem Gen.succeeds_reporting {s : MethodState} (g : Reports → Reports) (hs : s.Coherent r locals)
    {Q : Unit → MethodState → Prop}
    (hQ : ∀ s' : MethodState, s'.Coherent r locals → s'.asm = s.asm → Q () s') :
    SucceedsWith (Gen.reporting g) s Q :=
  ⟨(), _, rfl, hQ _ ⟨hs.indexed, hs.locals, hs.recalls⟩ rfl⟩

theorem Phrased.reporting {x : Gen α} (h : Phrased r locals x a d d' ws) (g : Reports → Reports) :
    Phrased r locals (do Gen.reporting g; x) a d d' ws := by
  intro s c hs hopens hdepth
  refine SucceedsWith.bind (P := fun _ s₁ => s₁.Coherent r locals ∧ s₁.asm = s.asm)
    (Gen.succeeds_reporting g hs fun _ hs₁ h₁ => ⟨hs₁, h₁⟩) ?_
  rintro _ s₁ ⟨hs₁, h₁⟩
  rw [← h₁] at hopens ⊢
  exact h s₁ c hs₁ hopens hdepth

theorem PhrasedNext.reporting (g : Reports → Reports) :
    PhrasedNext r locals (Gen.reporting g) () d d [] := by
  rintro s hs halive hpending rfl
  refine Gen.succeeds_reporting g hs fun s₁ hs₁ h₁ => ⟨rfl, hs₁, ?_⟩
  rw [h₁]
  exact .refl halive hpending hs.indexed fun p q => rfl

/-- Operations are phrases. -/
theorem Spells.phrased {x : Asm α} {ops : List Operation} (h : Spells x a d d' ops) :
    Phrased r locals x a d d' (ops.map .act) := by
  intro s c hs hopens hdepth
  obtain ⟨p, hx, hgains⟩ := h s.asm c hopens hdepth hs.indexed
  refine ⟨a, p, hx, rfl, ⟨hgains.indexed, hs.locals, hs.recalls⟩, ?_⟩
  exact ⟨hgains.alive, hgains.pending, hgains.depth, hgains.pool, hgains.indexed,
    hgains.bytes.imp fun enc h =>
      ⟨h.1, fun p q hpool hsize hold => (h.2 p q hpool hsize hold).lists⟩⟩

/-- One instruction behind a step over the pool. -/
theorem Phrased.of_puts {g : Pool → UInt16 × Pool} {Q : UInt16 → Pool → Prop}
    {y : UInt16 → Emit Unit} {enc : UInt16 → Array UInt8} {e : Effect} {w : Phrase}
    (hg : Pool.Puts g Q) (hQ : ∀ i p q, Q i p → p.Extends q → Q i q)
    (hy : ∀ i, Emit.Delivers (y i) (enc i) e) (hflow : e.goesOn = true) (hneeds : e.needs ≤ d)
    (hd : d - e.needs + e.puts = d')
    (hat : ∀ (i : UInt16) (p : Program) (q : ℕ), Q i p.pool → Holds p.bytes q (enc i) →
      w.At p q (q + (enc i).size)) :
    Phrased r locals (do Asm.onCode (y (← Asm.pooled g)) : Asm Unit) () d d' [w] := by
  rintro s c hs hopens rfl
  obtain ⟨p, hrun, hgrows⟩ :=
    Assembly.Grows.of_puts (R := fun p q stop => p.ListsPhrases q [w] stop) hg hQ hy hflow hneeds
    (fun i p q hi hold => ⟨_, hat i p q hi hold, rfl⟩) hopens hs.indexed
  exact ⟨(), p, hrun, rfl, ⟨hgrows.indexed, hs.locals, hs.recalls⟩, hd ▸ hgrows⟩

end

/-! ### The instructions -/

section

variable {r : Resolver} {locals : Std.TreeMap VarId UInt16} {d d' : ℕ}

/-- An instruction whose form is read back. -/
theorem Phrased.form {y : Emit Unit} {enc : Array UInt8} {e : Effect} {f : Form}
    (hy : Emit.Delivers y enc e) (hflow : e.goesOn = true) (hneeds : e.needs ≤ d)
    (hd : d - e.needs + e.puts = d') (hencodes : Encodes enc [f]) :
    Phrased r locals (Asm.onCode y) () d d' [.form f] :=
  @Phrased.of_puts r locals d d' (fun p => (0, p)) (fun _ _ => True) (fun _ => y)
    (fun _ => enc) e (.form f)
    (fun p => ⟨.refl p, fun h => ⟨h, fun _ => trivial⟩⟩) (fun _ _ _ _ _ => trivial)
    (fun _ => hy) hflow hneeds hd
    fun _ p q _ hold => ⟨(hencodes p.bytes q hold).1, (hencodes p.bytes q hold).2.symm⟩

/-- An instruction on a constant, whose index is in the two bytes behind the opcode. -/
theorem Phrased.refer {g : Pool → UInt16 × Pool} {c : Pool.Constant} {y : UInt16 → Emit Unit}
    {op : Opcode} {e : Effect} (hg : Pool.Puts g fun i p => p.Reads i c)
    (hy : ∀ i, Emit.Delivers (y i) (#[op] ++ wordBytes i) e) (hlen : op.length? = some 3)
    (hflow : e.goesOn = true) (hneeds : e.needs ≤ d) (hd : d - e.needs + e.puts = d') :
    Phrased r locals (do Asm.onCode (y (← Asm.pooled g)) : Asm Unit) () d d' [.refer op c] := by
  refine of_puts hg (fun _ _ _ h hext => hext.reads h) hy hflow hneeds hd fun i p q hpool hold => ?_
  have hencodes : Encodes (#[op] ++ wordBytes i) [{ op, length := 3 }] := .fixed rfl hlen
  have hreads := hencodes p.bytes q hold
  exact ⟨hreads.1, hreads.2.symm, i, (holds_append_iff.mp hold).2, hpool⟩

/-- The opcodes of a variable that holds a value. -/
theorem Opcode.load_rows {k : Kind} (hk : k ≠ .void) :
    ((Opcode.iload + k.widen.code).Takes .register ∧ (Opcode.iload + k.widen.code).effect =
      .trade 0 k.widen) ∧
    ∀ r < 4, (Opcode.iload0 + k.widen.code * 4 + UInt8.ofNat r).Takes .plain ∧
      (Opcode.iload0 + k.widen.code * 4 + UInt8.ofNat r).effect = .trade 0 k.widen := by
  cases k <;> first | decide +kernel | exact absurd rfl hk

theorem Opcode.store_rows {k : Kind} (hk : k ≠ .void) :
    ((Opcode.istore + k.widen.code).Takes .register ∧ (Opcode.istore + k.widen.code).effect =
      .pop k.width) ∧
    ∀ r < 4, (Opcode.istore0 + k.widen.code * 4 + UInt8.ofNat r).Takes .plain ∧
      (Opcode.istore0 + k.widen.code * 4 + UInt8.ofNat r).effect = .pop k.width := by
  cases k <;> first | decide +kernel | exact absurd rfl hk

theorem Emit.delivers_local {family short : Opcode} {k : Kind} {e : Effect}
    (hrows : ((family + k.widen.code).Takes .register ∧ (family + k.widen.code).effect = e) ∧
      ∀ r < 4, (short + k.widen.code * 4 + UInt8.ofNat r).Takes .plain ∧
        (short + k.widen.code * 4 + UInt8.ofNat r).effect = e)
    (hnames : ∀ r < 4, (short + k.widen.code * 4 + UInt8.ofNat r).Names r) (reg : UInt16) :
    ∃ enc, Delivers (Item.onRegister family short k reg) enc e ∧ Encodes enc
      [.onLocal family short k reg] := by
  obtain ⟨⟨htakes, he⟩, hshort⟩ := hrows
  unfold Item.onRegister Form.onLocal
  dsimp only
  split
  · rename_i hreg
    have hlt : reg.toNat < 4 := Nat.lt_succ_of_le (UInt16.le_iff_toNat_le.mp hreg)
    obtain ⟨htakes', he'⟩ := hshort _ hlt
    exact ⟨_, he' ▸ delivers_plain htakes', .single (hnames _ hlt)⟩
  · exact ⟨_, he ▸ delivers_register htakes reg, encodes_registerBytes htakes reg⟩

theorem Phrased.loadVar {k : Kind} (hk : k ≠ .void) (reg : UInt16) :
    Phrased r locals (Item.var k reg).load (.stack k) d (d + k.width) [.load k reg] := by
  obtain ⟨enc, hdelivers, hencodes⟩ :=
    Emit.delivers_local (Opcode.load_rows hk) (fun _ hr => Opcode.names_load hk hr) reg
  have hwidth : k.widen.width = k.width := by cases k <;> rfl
  have hload : Phrased r locals (Asm.onCode (Item.onRegister .iload .iload0 k reg)) () d
      (d + k.width) [.load k reg] :=
    .form hdelivers rfl (Nat.zero_le d) (congrArg (d + ·) hwidth) hencodes
  exact hload.then_pure (congrArg Pure.pure (if_neg hk))

theorem Phrased.storeVar {k : Kind} (hk : k ≠ .void) (reg : UInt16) :
    Phrased r locals (Item.var k reg).store () (d + k.width) d [.store k reg] := by
  obtain ⟨enc, hdelivers, hencodes⟩ :=
    Emit.delivers_local (Opcode.store_rows hk) (fun _ hr => Opcode.names_store hk hr) reg
  have hstore : Phrased r locals (Asm.onCode (Item.onRegister .istore .istore0 k reg)) ()
      (d + k.width) d
      [.store k reg] :=
    .form hdelivers rfl (Nat.le_add_left k.width d) (Nat.add_sub_cancel d k.width) hencodes
  have hdefine : PhrasedNext r locals
      (modify fun s => { s with code := s.code.define reg } : Asm Unit) () d d [] := by
    rintro s hs halive hpending rfl
    refine ⟨(), _, rfl, rfl, ⟨hs.indexed, hs.locals, hs.recalls⟩, ?_⟩
    exact ⟨halive, hpending, rfl, .refl _, hs.indexed, #[], Array.append_empty.symm,
      fun p q _ _ _ => rfl⟩
  exact hstore.bind hdefine

theorem Phrased.dup (d : ℕ) :
    Phrased r locals (Asm.onCode (Emit.plain .dup)) () (d + 1) (d + 2) [.dup] := by
  have hencodes : Encodes (#[Opcode.dup] ++ #[]) [{ op := .dup, length := 1 }] :=
    .fixed rfl (by decide +kernel)
  exact .form (Emit.delivers_plain (by decide)) rfl (Nat.le_add_left 1 d) rfl hencodes

theorem Emit.delivers_invoke {op : Opcode} (hop : op = .invokespecial ∨ op = .invokevirtual)
    (index : UInt16) (words : ℕ) (k : Kind) :
    Delivers (invoke op index words k) (#[op] ++ wordBytes index) (.trade (words + 1) k) := by
  have hother : op ≠ .invokeinterface ∧ op ≠ .invokestatic := by
    rcases hop with rfl | rfl <;> decide
  refine delivers_of (fun _ h => Code.put2_alive h index) fun c halive hneeds => ?_
  rw [if_neg hother.1, if_neg hother.2]
  exact effect_alive_eq c halive hneeds

/-- A call of a method of a class. -/
theorem Phrased.invoke {m : MethodSymbol} (hm : m.ownerIsInterface = false) (nonvirtual : Bool)
    (hneeds : m.ty.paramWords + 1 ≤ d) (hd : d - (m.ty.paramWords + 1) + m.ty.ret.kind.width = d') :
    Phrased r locals (Item.member (.ofMethod m) nonvirtual).invoke (.ofKind m.ty.ret.kind) d d'
      [.refer (if nonvirtual then .invokespecial else .invokevirtual)
        (.member .method m.owner m.name m.ty.descriptor)] := by
  have hop : (if nonvirtual then Opcode.invokespecial else .invokevirtual) = .invokespecial ∨
      (if nonvirtual then Opcode.invokespecial else .invokevirtual) = .invokevirtual := by
    cases nonvirtual
    · exact .inr rfl
    · exact .inl rfl
  have hputs := Pool.puts_method m.owner m.name m.ty.descriptor m.ownerIsInterface
  rw [hm] at hputs
  have hcall : Phrased r locals _ () d d' _ := .refer hputs
    (fun i => Emit.delivers_invoke hop i m.ty.paramWords m.ty.ret.kind)
    (by cases nonvirtual <;> decide +kernel) rfl hneeds hd
  have hsame : (Item.member (.ofMethod m) nonvirtual).invoke =
      ((do Asm.onCode (Emit.invoke (if nonvirtual then .invokespecial else .invokevirtual)
          (← Asm.pooled (·.putMethod m.owner m.name m.ty.descriptor false)) m.ty.paramWords
          m.ty.ret.kind) :
        Asm Unit) >>= fun _ => Pure.pure (.ofKind m.ty.ret.kind)) := by
    show (do Asm.onCode (Emit.invoke _ (← Asm.memberIndex (.ofMethod m)) _ _)
             return .ofKind _ : Asm Item) = _
    simp only [Asm.memberIndex, MemberRef.ofMethod, hm, bind_assoc, if_true,
      Bool.false_eq_true, if_false]
  rw [hsame]
  exact hcall.then_pure rfl

end

/-! ### The builder -/

/-- The parameter of the append method for a piece of type `t`. -/
def Ty.appended : Ty → Ty
  | .byte | .short | .int => .int
  | .cls name => if name = Ty.stringName then .string else .object
  | .null | .array _ => .object
  | t => t

namespace Phrase

/-- A new builder, which its constructor has run on. -/
def builder : List Phrase :=
  [.create Ty.builderName, .dup, .call .invokespecial constructorName ⟨[], .void⟩]

/-- The value on the stack, of type `t`, is appended to the builder below it. -/
def append (t : Ty) : Phrase := .call .invokevirtual "append" ⟨[t.appended], .builder⟩

/-- The builder on the stack gives way to its text. -/
def text : Phrase := .call .invokevirtual "toString" ⟨[], .string⟩

/-- Each piece is loaded and appended, the first one first. -/
def appends (ps : List (Ty × List Phrase)) : List Phrase := ps.flatMap fun p => p.2 ++ [.append p.1]

theorem appends_append (ps qs : List (Ty × List Phrase)) :
    appends (ps ++ qs) = appends ps ++ appends qs :=
  List.flatMap_append

/-- The pieces are made into one text. -/
def concat (ps : List (Ty × List Phrase)) : List Phrase := builder ++ (appends ps ++ [text])

end Phrase

/-- The resolver finds the methods of the builder that the library has. -/
def Resolver.Builds (r : Resolver) : Prop :=
  ∀ name args m, Hierarchy.libraryMethod .builder name args = some m →
    r.method .builder name args = .ok m

/-- So does every hierarchy that declares no methods of the builder by itself. -/
theorem Hierarchy.builds (h : Hierarchy) (hnone : ∀ m ∈ h.methods, m.owner ≠ Ty.builderName) :
    h.resolver.Builds := by
  intro name args m hm
  have hdeclared : h.methods.find?
      (fun m => m.owner == Ty.builderName && m.name == name && h.accepts m args) = none := by
    rw [List.find?_eq_none]
    intro m hmem hfound
    simp only [Bool.and_eq_true, beq_iff_eq] at hfound
    exact hnone m hmem hfound.1.1
  show h.resolve .builder name args = .ok m
  unfold resolve
  dsimp only
  rw [show Ty.builder.constantName = Ty.builderName from rfl, hdeclared, hm]
  rfl

theorem Hierarchy.appendParam_asPiece {t : Ty} (ht : t ≠ .void) :
    appendParam t.asPiece = some t.appended := by
  cases t with
  | void => exact absurd rfl ht
  | cls name =>
      by_cases hname : name = Ty.stringName
      · subst hname
        rfl
      · have hpiece : (Ty.cls name).asPiece = .object := by
          simp [Ty.asPiece, Ty.isReference, Ty.isString, hname]
        rw [hpiece, Ty.appended, if_neg hname]
        rfl
  | _ => rfl

theorem Ty.width_appended (t : Ty) : t.appended.width = t.kind.width := by
  cases t with
  | cls name =>
      show (if name = stringName then string else object).width = 1
      split <;> rfl
  | _ => rfl

namespace Context

variable {ctx : Context} {locals : Std.TreeMap VarId UInt16} {d d' : ℕ}

theorem phrased_callLibrary (hr : ctx.resolver.Builds) (name : String) (args : List Ty)
    {t : MethodTy} (ht : Hierarchy.librarySignature Ty.builderName name args = some t)
    (hneeds : t.paramWords + 1 ≤ d) (hd : d - (t.paramWords + 1) + t.ret.kind.width = d') :
    Phrased ctx.resolver locals (ctx.callLibrary .builder name args) (.ofKind t.ret.kind) d d'
      [.call (if name = constructorName then .invokespecial else .invokevirtual) name t] := by
  have hm := hr name args ⟨Ty.builderName, name, t, Access.publicBit, false⟩
    (congrArg (Option.map _) ht)
  unfold callLibrary
  rw [hm]
  have hcall : Phrased ctx.resolver locals _ _ d d' _ := Phrased.invoke
    (m := ⟨Ty.builderName, name, t, Access.publicBit, false⟩) rfl
    (name == constructorName) hneeds hd
  simp only [beq_iff_eq] at hcall
  exact hcall.asm

/-- A new builder on the stack. -/
theorem phrased_newBuilder (hr : ctx.resolver.Builds) (span : Span) :
    Phrased ctx.resolver locals (ctx.newBuilder span) () d (d + 1) Phrase.builder := by
  have hcreate : Phrased ctx.resolver locals
      (do Asm.onCode (Emit.short .newObject (← Asm.pooled (·.putType .builder))) :
      Asm Unit) () d (d + 1) [.create Ty.builderName] :=
    .refer (Pool.puts_class Ty.builderName) (fun i => Emit.delivers_short (by decide) i)
      (by decide +kernel) rfl
      (Nat.zero_le d) rfl
  have hinit : Phrased ctx.resolver locals _ _ (d + 2) (d + 1) _ :=
    phrased_callLibrary hr constructorName [] (t := ⟨[], .void⟩) rfl (Nat.le_add_left 1 (d + 1)) rfl
  have hrest : PhrasedNext ctx.resolver locals (do
      Emit.plain .dup
      let _ ← ctx.callLibrary .builder constructorName [] : Gen Unit) () (d + 1) (d + 1)
      [.dup, .call .invokespecial constructorName ⟨[], .void⟩] :=
    (Phrased.dup d).asm.next.bind (hinit.next.then_pure rfl)
  exact (hcreate.asm.bind (f := fun _ => _) hrest).reporting (·.checkDimensions span .builder)

theorem phrased_builderText (hr : ctx.resolver.Builds) :
    Phrased ctx.resolver locals ctx.builderText (.stack .object) (d + 1) (d + 1) [.text] :=
  (phrased_callLibrary hr "toString" [] (t := ⟨[], .string⟩) rfl
    (Nat.le_add_left 1 d) rfl).then_pure rfl

/-- The method for the type of the piece is called, whichever types came before. -/
theorem phrasedNext_appendPiece (hr : ctx.resolver.Builds) {t : Ty} (ht : t ≠ .void) :
    PhrasedNext ctx.resolver locals (ctx.appendPiece t) () (d + 1 + t.kind.width) (d + 1)
      [.append t] := by
  have hparam := Hierarchy.appendParam_asPiece ht
  have hwords : MethodTy.paramWords ⟨[t.appended], .builder⟩ = t.kind.width := t.width_appended
  have hfound := hr "append" [t.asPiece] ⟨Ty.builderName, "append", ⟨[t.appended], .builder⟩,
    Access.publicBit, false⟩
    (by
      show Option.map _ (Option.map _ (Hierarchy.appendParam t.asPiece)) = _
      rw [hparam]
      rfl)
  have hmethod : PhrasedNext ctx.resolver locals (ctx.appendMethod t.asPiece)
      ⟨Ty.builderName, "append", ⟨[t.appended], .builder⟩, Access.publicBit, false⟩
      (d + 1 + t.kind.width)
      (d + 1 + t.kind.width) [] := by
    intro s hs halive hpending hdepth
    obtain ⟨found, hrecalls, hrun⟩ := ctx.appendMethod_of_ok hfound hs.recalls
    refine ⟨_, _, hrun, rfl, ⟨hs.indexed, hs.locals, hrecalls⟩, ?_⟩
    rw [← hdepth]
    exact .refl halive hpending hs.indexed fun p q => rfl
  refine hmethod.answer ?_
  have hcall : Phrased ctx.resolver locals _ _ (d + 1 + t.kind.width) (d + 1) _ := Phrased.invoke
    (m := ⟨Ty.builderName, "append", ⟨[t.appended], .builder⟩, Access.publicBit, false⟩) rfl false
    (by rw [hwords]; omega) (by rw [hwords]; show d + 1 + _ - _ + 1 = _; omega)
  exact hcall.asm.next.then_pure rfl

end Context

/-! ### Pieces -/

/-- The instructions that load a piece: a variable, a constant, or a sum of integers. -/
inductive Expr.Loads (locals : Std.TreeMap VarId UInt16) : Expr → List Phrase → Prop
  | var {i : ExprInfo} {id : VarId} {reg : UInt16} (hi : i.const = none) (hty : i.ty ≠ .void)
      (hreg : locals[id]? = some reg) : Loads locals (.ident i (.var id)) [.load i.ty.kind reg]
  | const {e : Expr} {c : Const} (hc : e.const = some c) (hsuits : c.Suits e.ty.kind) :
      Loads locals e [.act (.push c)]
  | sum {i : ExprInfo} {l r : Expr} {ws ws' : List Phrase} (hi : i.const = none) (hty : i.ty = .int)
      (hlty : l.ty.kind.widen = .int) (hrty : r.ty.kind.widen = .int) (hl : Loads locals l ws)
      (hr : Loads locals r ws') : Loads locals (.binary i .plus .int l r)
        (ws ++ (ws' ++ [.act .add]))
  | parens {i : ExprInfo} {e : Expr} {ws : List Phrase} (hi : i.const = none) (hty : i.ty = e.ty)
      (h : Loads locals e ws) : Loads locals (.parens i e) ws

/-- The pieces of a tree of concatenations from left to right. A concatenation with a known value
is a piece itself, and so is a sum that is not one of strings. -/
inductive Expr.Pieces (locals : Std.TreeMap VarId UInt16) : Expr → List (Ty × List Phrase) → Prop
  | leaf {e : Expr} {ws : List Phrase} (h : Loads locals e ws) (hbare : ∀ i a, e ≠ .parens i a) :
      Pieces locals e [(e.ty, ws)]
  | parens (i : ExprInfo) {e : Expr} {ps : List (Ty × List Phrase)} (h : Pieces locals e ps) :
      Pieces locals (.parens i e) ps
  | plus {i : ExprInfo} {t : Ty} {l r : Expr} {ps qs : List (Ty × List Phrase)}
      (hi : i.const = none)
      (ht : t.isString = true) (hl : Pieces locals l ps) (hr : Pieces locals r qs) :
      Pieces locals (.binary i .plus t l r) (ps ++ qs)

/-- The expression is such a tree, and not only a piece of one. -/
inductive Expr.Concat (locals : Std.TreeMap VarId UInt16) : Expr → List (Ty × List Phrase) → Prop
  | plus {i : ExprInfo} {t : Ty} {l r : Expr} {ps qs : List (Ty × List Phrase)}
      (hi : i.const = none)
      (ht : t.isString = true) (hl : Pieces locals l ps) (hr : Pieces locals r qs) :
      Concat locals (.binary i .plus t l r) (ps ++ qs)
  | parens {i : ExprInfo} {e : Expr} {ps : List (Ty × List Phrase)} (hi : i.const = none)
      (hty : e.ty.kind = .object) (h : Concat locals e ps) : Concat locals (.parens i e) ps

/-- The step answers with an item that takes the instructions `ws` to be on the stack as a value
of kind `k`, some of them written already. -/
inductive Gen.Readies (r : Resolver) (locals : Std.TreeMap VarId UInt16) (x : Gen Item) (k : Kind) :
    List Phrase → Prop
  | var {reg : UInt16} (hk : k ≠ .void) (h : ∀ d, PhrasedNext r locals x (.var k reg) d d []) :
      Readies r locals x k [.load k reg]
  | const {c : Const} (hc : c.Suits k) (h : ∀ d, PhrasedNext r locals x (.const k c) d d []) :
      Readies r locals x k [.act (.push c)]
  | stack {ws : List Phrase} (h : ∀ d, PhrasedNext r locals x (.stack k) d (d + k.width) ws) :
      Readies r locals x k ws

namespace Gen.Readies

variable {r : Resolver} {locals : Std.TreeMap VarId UInt16} {x : Gen Item} {k : Kind}
  {ws : List Phrase}

theorem load (h : Readies r locals x k ws) (d : ℕ) :
    PhrasedNext r locals (do (← x).load : Gen Item) (.stack k) d (d + k.width) ws := by
  cases h with
  | var hk h => exact (h d).answer (Phrased.loadVar hk _).asm.next
  | const hc h => exact (h d).answer (Spells.load hc).phrased.asm.next
  | stack h => exact (h d).then_pure rfl

/-- A conversion to the kind that the item has already. -/
theorem coerce_self (h : Readies r locals x k ws) :
    Readies r locals (do (← x).coerce k : Gen Item) k ws := by
  have hpure {i : Item} (hi : i.kind = k) : (liftM (i.coerce k) : Gen Item) = pure i := by
    rw [ExprCode.coerce_self hi]
    rfl
  cases h with
  | var hk h => exact .var hk fun d => (h d).then_pure (hpure rfl)
  | const hc h => exact .const hc fun d => (h d).then_pure (hpure rfl)
  | stack h => exact .stack fun d => (h d).then_pure (hpure rfl)

/-- Narrow integers count as integers without further instructions. -/
theorem coerce_int (h : Readies r locals x k ws) (hk : k.widen = .int) :
    ∃ k', k'.width = 1 ∧ Readies r locals (do (← x).coerce .int : Gen Item) k' ws := by
  by_cases hint : k = .int
  · subst hint
    exact ⟨.int, rfl, h.coerce_self⟩
  have hwidth : k.width = 1 := by cases k <;> first | rfl | cases hk
  have hconvert : Item.convert k .int = pure () := by cases k <;> first | rfl | cases hk
  have hcoerce {i : Item} (hi : i.kind = k) (hconst : ∀ k' c, i ≠ .const k' c) :
      i.coerce .int = (do let _ ← i.load; return .stack .int : Asm Item) := by
    unfold Item.coerce
    rw [hi, if_neg hint, hconvert]
    cases i with
    | const k' c => exact absurd rfl (hconst k' c)
    | _ => rfl
  cases h with
  | @var reg hvoid h =>
      refine ⟨.int, rfl, .stack fun d => (h d).answer ?_⟩
      rw [hcoerce rfl fun _ _ h => by cases h]
      have hload : Phrased r locals _ _ d _ _ := .loadVar hvoid reg
      rw [hwidth] at hload
      exact (hload.then_pure (f := fun _ => pure (Item.stack .int)) rfl).asm.next
  | @const c hc h =>
      refine ⟨k, hwidth, .const hc fun d => (h d).then_pure ?_⟩
      have hsame : (Item.const k c).coerce .int = pure (.const k c) := by
        unfold Item.coerce
        rw [if_neg (show (Item.const k c).kind ≠ .int from hint)]
        dsimp only
        rw [if_pos ⟨rfl, hk⟩]
      rw [hsame]
      rfl
  | stack h =>
      refine ⟨.int, rfl, .stack fun d => ?_⟩
      have h' := h d
      rw [hwidth] at h'
      refine h'.then_pure ?_
      rw [hcoerce rfl fun _ _ h => by cases h]
      rfl

end Gen.Readies

section

variable (ctx : Context) (env : Env) {locals : Std.TreeMap VarId UInt16} {e : Expr}

theorem Expr.item_code (e : Expr) :
    ∃ visit, (e.code ctx env).item = ExprCode.itemOf e.info visit := by
  cases e with
  | unary i op t a => cases op <;> exact ⟨_, rfl⟩
  | binary i op t l r =>
      show ∃ visit, (ctx.binaryCode i op t _ _ _).item = ExprCode.itemOf i visit
      unfold Context.binaryCode
      split
      · exact ⟨_, rfl⟩
      · split
        · exact ⟨_, rfl⟩
        · split <;> exact ⟨_, rfl⟩
  | _ => exact ⟨_, rfl⟩

theorem Expr.item_of_const {c : Const} (h : e.const = some c) (t : Ty) :
    (e.code ctx env).item t = do
      Gen.checkString e.info.span (some c)
      return .const e.ty.kind c := by
  obtain ⟨visit, hvisit⟩ := e.item_code ctx env
  rw [hvisit, ExprCode.itemOf, show e.info.const = some c from h]
  rfl

/-- Anything else than a concatenation is appended as a value. -/
theorem Expr.append_code (hbare : ∀ i a, e ≠ .parens i a)
    (hwhole : ∀ i t l r, e = .binary i .plus t l r → t.isString = true → i.const ≠ none) :
    (e.code ctx env).append = (do let _ ← (e.code ctx env).push e.ty; ctx.appendPiece e.ty) := by
  have hpush (c : ExprCode) (t : Ty) : (do let _ ← c.push t; ctx.appendPiece t : Gen Unit) =
      (do let _ ← (← c.value t).load; ctx.appendPiece t) := by
    rw [ExprCode.push, bind_assoc]
  rw [hpush]
  cases e with
  | parens i a => exact absurd rfl (hbare i a)
  | unary i op t a => cases op <;> rfl
  | binary i op t l r =>
      show (ctx.binaryCode i op t _ _ _).append = _
      have hcode : (Expr.binary i op t l r).code ctx env =
        ctx.binaryCode i op t (l.code ctx env) (r.code ctx env) r.isNullLiteral := rfl
      rw [hcode]
      unfold Context.binaryCode
      split
      · rfl
      · split
        · rfl
        · split
          · rename_i hplus
            obtain ⟨rfl, ht⟩ := hplus
            have hconst := hwhole i t l r rfl ht
            dsimp only
            rw [if_neg (by rwa [Option.isNone_iff_eq_none])]
            rfl
          · rfl
  | _ => rfl

theorem Expr.Loads.ty_ne_void {ws : List Phrase} (h : Loads locals e ws) : e.ty ≠ .void := by
  induction h with
  | var hi hty hreg => exact hty
  | @const e c hc hsuits =>
      intro hvoid
      rw [hvoid] at hsuits
      cases c <;> cases hsuits
  | sum hi hty => exact fun hvoid => by cases hty.symm.trans hvoid
  | parens hi hty h ih => exact fun hvoid => ih (hty.symm.trans hvoid)

theorem Expr.Loads.readies {ws : List Phrase} (h : Loads locals e ws) (t : Ty) :
    Gen.Readies ctx.resolver locals ((e.code ctx env).item t) e.ty.kind ws := by
  induction h generalizing t with
  | @var i id reg hi hty hreg =>
      have hkind : i.ty.kind ≠ .void := by
        generalize i.ty = t at hty
        cases t <;> first | exact absurd rfl hty | exact fun h => by cases h
      refine .var hkind fun d => ?_
      show PhrasedNext _ _ (ExprCode.itemOf i (fun _ => ctx.ident i (.var id)) t) _ _ _ _
      rw [ExprCode.itemOf, hi]
      rintro s hs halive hpending rfl
      refine ⟨_, s, ?_, rfl, hs, .refl halive hpending hs.indexed fun p q => rfl⟩
      refine EStateM.bind_eq_ok.mpr ⟨reg, s, ?_, rfl⟩
      refine EStateM.bind_eq_ok.mpr ⟨s, s, rfl, ?_⟩
      rw [hs.locals, hreg]
      rfl
  | @const e c hc hsuits =>
      refine .const hsuits fun d => ?_
      rw [Expr.item_of_const ctx env hc]
      exact (PhrasedNext.reporting _).then_pure rfl
  | @sum i l r ws ws' hi hty hlty hrty hl hr ihl ihr =>
      obtain ⟨k, hk, hleft⟩ := (ihl .int).coerce_int hlty
      obtain ⟨k', hk', hright⟩ := (ihr .int).coerce_int hrty
      rw [show (Expr.binary i .plus .int l r).ty = .int from hty]
      refine .stack fun d => ?_
      show PhrasedNext _ _ (ExprCode.itemOf i (fun _ => do
        let _ ← (l.code ctx env).push .int
        Gen.finishBinary .plus .int (r.code ctx env) r.isNullLiteral i.ty) t) _ _ _ _
      rw [ExprCode.itemOf, hi, hty]
      have hadd : Spells (Asm.onCode (Emit.plain .iadd)) () (d + 2) (d + 1) [.add] :=
        .plain (by decide) (Nat.le_add_left 2 d) rfl
      have hl := hleft.load d
      have hr := hright.load (d + 1)
      rw [hk] at hl
      rw [hk'] at hr
      exact hl.bind (hr.bind (hadd.phrased.asm.next.then_pure rfl))
  | @parens i e ws hi hty h ih =>
      rw [show (Expr.parens i e).ty = e.ty from hty]
      show Gen.Readies _ _ (ExprCode.itemOf i
        (fun _ => (e.code ctx env).value (e.code ctx env).info.ty) t) _ _
      rw [ExprCode.itemOf, hi, Expr.info_code]
      exact (ih e.ty).coerce_self

/-- The pieces of a tree are appended to the builder that is there. -/
theorem Expr.Pieces.append {ps : List (Ty × List Phrase)} (h : Pieces locals e ps)
    (hr : ctx.resolver.Builds) (d : ℕ) :
    PhrasedNext ctx.resolver locals (e.code ctx env).append () (d + 1) (d + 1)
      (Phrase.appends ps) := by
  induction h with
  | @leaf e ws h hbare =>
      have happend : (e.code ctx env).append =
          (do let _ ← (e.code ctx env).push e.ty; ctx.appendPiece e.ty) := by
        refine Expr.append_code ctx env hbare ?_
        rintro i t l r rfl ht
        cases h with
        | const hc => exact fun hnone => by cases hnone.symm.trans hc
        | sum => cases ht
      rw [happend]
      have hpush := (h.readies ctx env e.ty).coerce_self.load (d + 1)
      have hpiece := hpush.bind (f := fun _ => ctx.appendPiece e.ty)
        (Context.phrasedNext_appendPiece hr h.ty_ne_void)
      rwa [Phrase.appends, List.flatMap_cons, List.flatMap_nil, List.append_nil]
  | parens i h ih => exact ih
  | @plus i t l r ps qs hi ht hl hr ihl ihr =>
      rw [Phrase.appends_append]
      show PhrasedNext _ _ (ctx.binaryCode i .plus t _ _ _).append _ _ _ _
      unfold Context.binaryCode
      rw [if_neg (by decide), if_neg (by decide), if_pos ⟨rfl, ht⟩]
      dsimp only
      rw [if_pos (by rw [hi]; rfl)]
      exact ihl.bind ihr

/-- A tree is one text. -/
theorem Expr.Concat.item {ps : List (Ty × List Phrase)} (h : Concat locals e ps)
    (hr : ctx.resolver.Builds) (t : Ty) (d : ℕ) :
    Phrased ctx.resolver locals ((e.code ctx env).item t) (.stack .object) d (d + 1)
      (Phrase.concat ps) := by
  induction h generalizing t with
  | @plus i u l r ps qs hi hu hl hr' =>
      show Phrased _ _ ((ctx.binaryCode i .plus u _ _ _).item t) _ _ _ _
      unfold Context.binaryCode
      rw [if_neg (by decide), if_neg (by decide), if_pos ⟨rfl, hu⟩]
      dsimp only [ExprCode.ofItem]
      rw [ExprCode.itemOf, hi]
      have hpieces := (hl.append ctx env hr d).bind (f := fun _ => (r.code ctx env).append)
        (hr'.append ctx env hr d)
      rw [← Phrase.appends_append] at hpieces
      exact (Context.phrased_newBuilder hr i.span).bind (f := fun _ => _)
        (hpieces.bind (f := fun _ => _) (Context.phrased_builderText hr).next)
  | @parens i e ps hi hty h ih =>
      show Phrased _ _ (ExprCode.itemOf i
        (fun _ => (e.code ctx env).value (e.code ctx env).info.ty) t) _ _ _ _
      rw [ExprCode.itemOf, hi, Expr.info_code]
      refine (ih e.ty).then_pure ?_
      rw [ExprCode.coerce_self (show (Item.stack .object).kind = e.info.ty.kind from hty.symm)]
      rfl

/-- Appending to a variable is the text of the variable and the pieces, waiting to be stored. -/
theorem Expr.Pieces.assign {ps : List (Ty × List Phrase)} (h : Pieces locals e ps)
    (hr : ctx.resolver.Builds) {i x : ExprInfo} {u : Ty} {id : VarId} {reg : UInt16}
    (hi : i.const = none) (hu : u.isString = true) (hx : x.const = none) (hty : x.ty = .string)
    (hreg : locals[id]? = some reg) (t : Ty) (d : ℕ) :
    Phrased ctx.resolver locals
      (((Expr.assignOp i .plus u (.ident x (.var id)) e).code ctx env).item t)
      (.assign (.var .object reg)) d (d + 1)
        (Phrase.concat ((.string, [.load .object reg]) :: ps)) := by
  show Phrased _ _ (ExprCode.itemOf i (fun _ => ctx.assignOp i .plus u _ _ _) t) _ _ _ _
  rw [ExprCode.itemOf, hi]
  show Phrased _ _ (ctx.assignOp i .plus u _ _ _) _ _ _ _
  unfold Context.assignOp
  rw [if_pos ⟨rfl, hu⟩]
  have hvar : PhrasedNext ctx.resolver locals (((Expr.ident x (.var id)).code ctx env).value x.ty)
      (.var .object reg)
      (d + 1) (d + 1) [] := by
    rintro s hs halive hpending hdepth
    rw [← hdepth]
    have hvalue := Expr.value_var ctx env hx (s := s) (by rw [hs.locals, hreg])
    rw [hty] at hvalue ⊢
    exact ⟨_, s, hvalue, rfl, hs, .refl halive hpending hs.indexed fun p q => rfl⟩
  have hload : PhrasedNext ctx.resolver locals (liftM (Item.var .object reg).load : Gen Item)
      (.stack .object) (d + 1)
      (d + 2) [.load .object reg] := (Phrased.loadVar (by decide) reg).asm.next
  have hfirst : PhrasedNext ctx.resolver locals (ctx.appendPiece x.ty) () (d + 2)
      (d + 1) [.append .string] := by
    rw [hty]
    exact Context.phrasedNext_appendPiece hr (by decide)
  have htext := (h.append ctx env hr d).bind
    (f := fun _ => (do let _ ← ctx.builderText; return Item.assign (.var .object reg)))
    ((Context.phrased_builderText hr).next.then_pure rfl)
  exact (Context.phrased_newBuilder hr i.span).bind (hvar.answer (hload.bind (hfirst.bind htext)))

end

/-! ### Concatenation and assignment -/

/-- A tree of concatenations, however it nests, makes one builder, appends its pieces to it from
left to right, each by the method for its type, and leaves the text of the builder on the stack.
Appending to a variable does the same with the variable in front, and stores the text in it; if
the value of the assignment is asked for, a copy stays on the stack. -/
theorem Expr.concat_in_order (ctx : Context) (env : Env) (hbuilds : ctx.resolver.Builds)
    (s : MethodState) (c : Code) (hopens : s.asm.code.Opens c) (hpool : s.asm.pool.Indexed)
    (hrecalls : ctx.resolver.Recalls s.appends) :
    (∀ e ps t, Concat s.locals e ps → SucceedsWith ((e.code ctx env).item t) s fun i s' =>
      i = .stack .object ∧ s'.Coherent ctx.resolver s.locals ∧ (s'.asm.pool.size ≤ 0xFFFF →
        s'.asm.program.ListsPhrases c.pc (Phrase.concat ps) s'.asm.code.pc)) ∧
    ∀ i x u id reg e ps, i.const = none → i.ty = .string → u.isString = true → x.const = none →
      x.ty = .string →
      s.locals[id]? = some reg → Pieces s.locals e ps →
      (SucceedsWith (Gen.exec ((Expr.assignOp i .plus u (.ident x (.var id)) e).code ctx env))
        s fun _ s' =>
        s'.Coherent ctx.resolver s.locals ∧
          (s'.asm.pool.size ≤ 0xFFFF → s'.asm.program.ListsPhrases c.pc
          (Phrase.concat ((.string, [.load .object reg]) :: ps) ++ [.store .object reg])
            s'.asm.code.pc)) ∧
      ∀ t, SucceedsWith
        (do (← ((Expr.assignOp i .plus u (.ident x (.var id)) e).code ctx env).item t).load :
          Gen Item) s
        fun j s' => j = .stack .object ∧ s'.Coherent ctx.resolver s.locals ∧
          (s'.asm.pool.size ≤ 0xFFFF →
          s'.asm.program.ListsPhrases c.pc
            (Phrase.concat ((.string, [.load .object reg]) :: ps) ++ [.dup, .store .object reg])
              s'.asm.code.pc) := by
  have hcoherent : s.Coherent ctx.resolver s.locals := ⟨hpool, rfl, hrecalls⟩
  have hsucceeds {α : Type} {x : Gen α} {a : α} {d' : ℕ} {ws : List Phrase}
      (h : Phrased ctx.resolver s.locals x a c.frame.depth d' ws) : SucceedsWith x s fun b s' =>
        b = a ∧ s'.Coherent ctx.resolver s.locals ∧ (s'.asm.pool.size ≤ 0xFFFF →
          s'.asm.program.ListsPhrases c.pc ws s'.asm.code.pc) :=
    (h s c hcoherent hopens rfl).mono fun _ _ ⟨hb, hs', hgrows⟩ => ⟨hb, hs', hgrows.reads⟩
  refine ⟨fun e ps t h => hsucceeds (h.item ctx env hbuilds t _), ?_⟩
  intro i x u id reg e ps hi hity hu hx hxty hreg h
  have hitem (t : Ty) := h.assign ctx env hbuilds hi hu hx hxty hreg t c.frame.depth
  have hstore : PhrasedNext ctx.resolver s.locals (liftM (Item.var .object reg).store : Gen Unit) ()
      (c.frame.depth + 1) c.frame.depth [.store .object reg] :=
        (Phrased.storeVar (by decide) reg).asm.next
  have hself : (liftM ((Item.assign (.var .object reg)).coerce i.ty.kind) : Gen Item) =
      pure (.assign (.var .object reg)) := by
    rw [hity, ExprCode.coerce_self
      (show (Item.assign (.var .object reg)).kind = Ty.string.kind from rfl)]
    rfl
  constructor
  · have heffect := (hitem i.ty).then_pure (f := fun j => liftM (j.coerce i.ty.kind)) hself
    have hdiscard : PhrasedNext ctx.resolver s.locals (do
        let j ← (liftM ((Item.assign (.var .object reg)).coerce i.ty.kind) : Gen Item)
        j.discard) () (c.frame.depth + 1) c.frame.depth [.store .object reg] := by
      rw [hself, pure_bind]
      exact hstore
    exact (hsucceeds (heffect.bind hdiscard)).mono fun _ _ h => h.2
  · intro t
    have hload : PhrasedNext ctx.resolver s.locals (Item.assign (.var .object reg)).load
        (.stack .object)
        (c.frame.depth + 1) (c.frame.depth + 1) ([.dup] ++ [.store .object reg]) :=
      (Phrased.dup c.frame.depth).next.bind ((Phrased.storeVar (by decide) reg).next.then_pure rfl)
    exact hsucceeds ((hitem t).bind hload.asm)

/-- A tree that nests to the right and in parentheses, with a `char` array in a register past the
first 256, a constant and a sum of a `byte` and a constant as its pieces. -/
theorem Expr.concat_in_order_nested :
    ∃ s : MethodState, s.locals[(1 : VarId)]? = some 300 ∧ s.locals[(2 : VarId)]? = some 2 ∧
      ∀ config cls method env t,
        SucceedsWith (((Expr.binary ⟨default, .string, none⟩ .plus .string
          (.ident ⟨default, .array .char, none⟩ (.var 1))
          (.parens ⟨default, .string, none⟩ (.binary ⟨default, .string, none⟩ .plus .string
            (.literal ⟨default, .string, some (.str ": ")⟩)
            (.parens ⟨default, .int, none⟩ (.binary ⟨default, .int, none⟩ .plus .int
              (.ident ⟨default, .byte, none⟩ (.var 2))
                (.literal ⟨default, .int, some (.int 1)⟩)))))).code
                ⟨config, ({} : Hierarchy).resolver, cls, method⟩ env).item t) s fun i s' =>
          i = .stack .object ∧ s'.Coherent ({} : Hierarchy).resolver s.locals ∧
            (s'.asm.pool.size ≤ 0xFFFF →
            s'.asm.program.ListsPhrases 0 (Phrase.builder ++
              [.load .object 300, .call .invokevirtual "append" ⟨[.object], .builder⟩,
                .act (.push (.str ": ")), .call .invokevirtual "append" ⟨[.string], .builder⟩,
                .load .byte 2, .act (.push (.int 1)), .act .add,
                  .call .invokevirtual "append" ⟨[.int], .builder⟩,
                .text]) s'.asm.code.pc) := by
  let locals : Std.TreeMap VarId UInt16 := ((∅ : Std.TreeMap VarId UInt16).insert 2 2).insert 1 300
  have hfirst : locals[(1 : VarId)]? = some 300 := Std.TreeMap.getElem?_insert_self
  have hsecond : locals[(2 : VarId)]? = some 2 := by decide +kernel
  have htext : Loads locals (.literal ⟨default, .string, some (.str ": ")⟩)
      [.act (.push (.str ": "))] :=
    .const rfl (show Const.Suits (.str ": ") .object from rfl)
  have hone : Loads locals (.literal ⟨default, .int, some (.int 1)⟩) [.act (.push (.int 1))] :=
    .const rfl (show Const.Suits (.int 1) .int from rfl)
  refine ⟨{ locals }, hfirst, hsecond, fun config cls method env t => ?_⟩
  exact (Expr.concat_in_order ⟨config, ({} : Hierarchy).resolver, cls, method⟩ env
    (Hierarchy.builds {} fun m hm => by cases hm) { locals } {}
    (Code.opens_self rfl rfl) Pool.indexed_empty
    (Resolver.recalls_nil _)).1 _ _ t
      (.plus rfl rfl (.leaf (.var rfl (by decide) hfirst) fun _ _ h => by cases h)
      (.parens _ (.plus rfl rfl (.leaf htext fun _ _ h => by cases h)
        (.parens _ (.leaf (.sum rfl rfl rfl rfl (.var rfl (by decide) hsecond) hone)
          fun _ _ h => by cases h)))))

end StackCode
