import StackCode.Proofs.Branches
import StackCode.Proofs.Pool

/-!
# The course of control

What the steps of the generator make the machine do, with the values of the variables in place of
the registers that hold them. A `Spot` is what the machine has at some place: the operand stack and
the values of the variables. From a spot control either comes to the end of the code at another
spot, or the method returns; that is an `Outcome`.

`s.ControlFlow ζ s' O d T` describes a step from `s` to `s'` backwards: whatever comes out of the
code of `s'` comes out of the code of `s` as well, and a machine that comes to the end of the
latter at `a` meets every outcome `o` with `T a o`. `O` are the open branches that are held
meanwhile, `d` is the depth of the stack behind the step, and `ζ` tells which registers the
variables are in.
-/

set_option maxRecDepth 4000

namespace StackCode

/-! ### Steps that succeed -/

/-- The step succeeds from `s` and leaves what `Q` says. -/
def SucceedsWith {σ α : Type} [Part σ] (x : EStateM Error σ α) (s : MethodState)
    (Q : α → MethodState → Prop) : Prop :=
  ∃ a p, x (Part.get s) = .ok a p ∧ Q a (Part.put p s)

namespace SucceedsWith

variable {σ α β : Type} [Part σ] {x : EStateM Error σ α} {f : α → EStateM Error σ β}
  {s : MethodState}
  {P Q : α → MethodState → Prop} {R : β → MethodState → Prop}

theorem mono (h : SucceedsWith x s P) (hPQ : ∀ a s', P a s' → Q a s') : SucceedsWith x s Q := by
  obtain ⟨a, p, hx, hP⟩ := h
  exact ⟨a, p, hx, hPQ a _ hP⟩

theorem pure {a : α} (h : Q a s) : SucceedsWith (pure a : EStateM Error σ α) s Q :=
  ⟨a, Part.get s, rfl, by rwa [Part.put_get]⟩

theorem bind (h : SucceedsWith x s P) (hf : ∀ a s', P a s' → SucceedsWith (f a) s' R) :
    SucceedsWith (x >>= f) s R := by
  obtain ⟨a, p, hx, hP⟩ := h
  obtain ⟨b, q, hfa, hR⟩ := hf a _ hP
  rw [Part.get_put] at hfa
  rw [Part.put_put] at hR
  exact ⟨b, q, EStateM.bind_eq_ok.mpr ⟨a, p, hx, hfa⟩, hR⟩

theorem get_bind {f : σ → EStateM Error σ β} (h : SucceedsWith (f (Part.get s)) s R) :
    SucceedsWith (MonadState.get >>= f) s R :=
  h

theorem onCode {x : Emit α} (h : SucceedsWith x s Q) : SucceedsWith (Asm.onCode x) s Q := by
  obtain ⟨a, c, hx, hQ⟩ := h
  refine ⟨a, ⟨c, s.asm.pool⟩, ?_, hQ⟩
  change Asm.onCode x s.asm = _
  rw [Asm.onCode, show x s.asm.code = .ok a c from hx]

theorem asm {x : Asm α} (h : SucceedsWith x s Q) : SucceedsWith (liftM x : Gen α) s Q := by
  obtain ⟨a, p, hx, hQ⟩ := h
  refine ⟨a, Part.put p s, ?_, hQ⟩
  change Gen.onAsm x s = _
  rw [Gen.onAsm, show x s.asm = .ok a p from hx]
  rfl

theorem emit {x : Emit α} (h : SucceedsWith x s Q) : SucceedsWith (liftM x : Gen α) s Q :=
  asm (onCode h)

theorem peek {g : Code → α} (h : Q (g s.asm.code) s) : SucceedsWith (Gen.peek g) s Q :=
  ⟨_, s, rfl, h⟩

theorem touch {g : Code → Code} {Q : Unit → MethodState → Prop}
    (h : Q () (Part.put (g s.asm.code) s)) :
    SucceedsWith (Gen.touch g) s Q := emit ⟨(), g s.asm.code, rfl, h⟩

end SucceedsWith

/-! ### Code at rest -/

namespace Code

variable {c c' : Code} {O O' : List Link} {d : ℕ} {locks : List UInt16}

/-- The order of the open branches does not matter. -/
theorem Ready.perm (h : c.Ready O d locks) (hperm : O.Perm O') : c.Ready O' d locks where
  apart := ((List.Perm.append_left c.pending hperm).pairwise_iff fun h => h.symm).mp h.apart
  within := fun l hl => h.within l ((List.Perm.append_left c.pending hperm).mem_iff.mpr hl)
  firm := fun halive l hl =>
    h.firm halive l ((List.Perm.append_left c.pending hperm).mem_iff.mpr hl)
  loose := fun l hl => h.loose l ((List.Perm.append_left c.pending hperm).mem_iff.mpr hl)
  level := h.level
  joins := h.joins

/-- The code has changed, but nothing that the machine could see. -/
structure Idles (c c' : Code) (O : List Link) (d : ℕ) (locks : List UInt16) : Prop where
  onward : Onward c c'
  ready : c'.Ready O d locks
  reachable : c'.reachable = c.reachable
  frame : c.frame.Has d locks → c'.frame.Has d locks
  back : ∀ {H : Plan} {p : Program} {g' : ℕ}, H.Over O → c'.Becomes H p g' →
    ∃ g, c.Becomes H p g ∧ ∀ e, c.Arrival g e → c'.Arrival g' e

/-- A change beside the bytes and the branches. -/
theorem Ready.idles (h : c.Ready O d locks) (honward : Onward c c') (hbytes : c'.bytes = c.bytes)
    (hfixed : c'.fixed = c.fixed) (halive : c'.alive = c.alive) (hpending : c'.pending = c.pending)
    (hneeds : c'.needsWide = c.needsWide)
    (hframe : c'.frame.depth = c.frame.depth ∧ c'.frame.locks = c.frame.locks) :
    c.Idles c' O d locks := by
  have hpc : c'.pc = c.pc := congrArg Array.size hbytes
  have hlevel (d : ℕ) (locks : List UInt16) (hf : c.frame.Has d locks) : c'.frame.Has d locks :=
    ⟨hframe.1.trans hf.1, hframe.2.trans hf.2⟩
  have hloose (q : ℕ) : c'.Dangling q ↔ c.Dangling q := by
    have hget : c'.get1 q = c.get1 q := by rw [get1, get1, hbytes]
    constructor
    · exact fun hl => ⟨hl.ends.trans hpc, hget ▸ hl.opcode, hfixed ▸ hl.unseen⟩
    · exact fun hl => ⟨hl.ends.trans hpc.symm, hget.trans hl.opcode, hfixed.trans hl.unseen⟩
  constructor
  case onward => exact honward
  case reachable => rw [reachable, reachable, halive, hpending]
  case frame => exact hlevel d locks
  case ready =>
    constructor
    case apart => rw [hpending, honward.wide]; exact h.apart
    case within => rw [hpending, honward.wide, hpc]; exact h.within
    case firm =>
      rw [hpending, halive]
      exact fun ha l hl hl' => h.firm ha l hl ((hloose _).mp hl')
    case loose =>
      rw [hpending]
      exact fun l hl hl' => hlevel _ _ (h.loose l hl ((hloose _).mp hl'))
    case level => rw [halive]; exact fun ha => hlevel d locks (h.level ha)
    case joins => rw [hpending]; exact h.joins
  case back =>
    rintro H p g - ⟨⟨n, hstays, hfits⟩, hnarrow, hshort⟩
    refine ⟨g, ⟨⟨n, ?_, ?_⟩, hneeds ▸ hnarrow, hshort⟩, fun e he => ?_⟩
    · rw [hpending] at hstays
      refine hstays.imp (fun hn => hn.trans hpc) ?_
      rintro ⟨hl, ho⟩
      exact ⟨(hloose n).mp hl, ho⟩
    · rwa [hpending, honward.wide, hbytes] at hfits
    · unfold Arrival at he ⊢
      rwa [halive, hpending, hpc]

/-- The branches of `chain` have come to wait for the end of the code. -/
structure Awaits (c c' : Code) (chain : Chain) (O : List Link) (d : ℕ)
    (locks : List UInt16) : Prop where
  onward : Onward c c'
  ready : c'.Ready O d locks
  reachable : c'.reachable = (c.reachable || !chain.isEmpty)
  frame : c'.frame = c.frame
  back : ∀ {H : Plan} {p : Program} {g : ℕ}, c'.Becomes H p g → c.Becomes (chain.toward g ∪ H) p g ∧
    (∀ e, c.Arrival g e → c'.Arrival g e) ∧ (chain ≠ [] → c'.Arrival g g)

end Code

namespace Emit

variable {c : Code} {O : List Link} {d : ℕ} {locks : List UInt16}

/-- The position is settled. -/
theorem curPc_idles (h : c.Ready O d locks) :
    ∃ pc c', curPc c = .ok pc c' ∧ c.Idles c' O d locks ∧ c'.alive = c.reachable := by
  obtain ⟨c₁, hflush, hf⟩ := resolvePending_flushed h
  obtain ⟨line, lines, hmark, -⟩ := c₁.markLine_eq
  obtain ⟨c', hc'⟩ : ∃ c' : Code, c' = { c₁.markLine with fixed := true } := ⟨_, rfl⟩
  have hfirm (q : ℕ) : ¬ c'.Dangling q := fun hloose => by
    have hunseen := hloose.unseen
    rw [hc'] at hunseen
    cases hunseen
  have hpending : c'.pending = [] := by rw [hc', hmark]; exact hf.pending
  have halive : c'.alive = c.reachable := by rw [hc', hmark]; exact hf.alive
  have hframe : c'.frame = c₁.frame := by rw [hc', hmark]
  have hbytes : c'.bytes = c₁.bytes := by rw [hc', hmark]
  have hneeds : c'.needsWide = c₁.needsWide := by rw [hc', hmark]
  have honward : c.Onward c' :=
    hf.onward.trans (by rw [hc', hmark]; exact ⟨rfl, rfl, rfl, fun _ => rfl⟩)
  have hpc : c'.pc = c₁.pc := congrArg Array.size hbytes
  refine ⟨c'.pc, c', ?_, ?_, halive⟩
  · rw [curPc]
    refine EStateM.bind_eq_ok.mpr ⟨(), c₁, hflush, ?_⟩
    refine EStateM.bind_eq_ok.mpr ⟨(), c', by rw [hc']; rfl, ?_⟩
    exact EStateM.bind_eq_ok.mpr ⟨c', c', rfl, rfl⟩
  · constructor
    case onward => exact honward
    case reachable => rw [Code.reachable, hpending, halive]; exact Bool.or_false _
    case frame =>
      intro hhas
      cases hreach : c.reachable with
      | true => rw [hframe]; exact hf.level (hf.alive.trans hreach)
      | false => rw [hframe, hf.dead hreach]; exact hhas
    case ready =>
      constructor
      case apart => rw [hpending, honward.wide]; exact h.held
      case within => rw [hpending, honward.wide, hpc]; exact hf.within
      case firm => exact fun _ l _ => hfirm l.pc
      case loose => exact fun l _ hloose => absurd hloose (hfirm l.pc)
      case level => rw [hframe, halive, ← hf.alive]; exact hf.level
      case joins => rw [hpending]; exact fun l hl => by cases hl
    case back =>
      rintro H p g hover ⟨⟨n, hstays, hfits⟩, hnarrow, hshort⟩
      obtain rfl : n = c'.pc := hstays.resolve_right fun hn => hfirm n hn.1
      rw [hpending, Chain.toward_nil, Set.empty_union, honward.wide, hbytes, hpc] at hfits
      refine ⟨c₁.pc, hf.back hover hfits (hneeds ▸ hnarrow) hshort, fun e he => .inl ?_⟩
      rcases he with ⟨hc, rfl⟩ | ⟨hc, rfl⟩
      · exact ⟨by rw [halive, Code.reachable, hc]; rfl, by rw [hpc, hf.stays hc]⟩
      · exact ⟨by rw [halive]; simp [Code.reachable, hc], hpc.symm⟩

/-- Branches are left to wait. -/
theorem resolve_awaits {chain : Chain} (h : c.Ready (chain ++ O) d locks)
    (harrives : chain.Arrives d locks) :
    ∃ c', resolve chain c = .ok () c' ∧ c.Awaits c' chain O d locks := by
  obtain ⟨pending, hmerge⟩ := harrives.merge h.joins
  have hperm := Chain.merge_perm hmerge
  have hall : (pending ++ O).Perm (c.pending ++ (chain ++ O)) := by
    refine (hperm.append_right O).trans ?_
    rw [← List.append_assoc]
    exact List.perm_append_comm.append_right O
  have hempty (hnil : pending = []) : chain = [] ∧ c.pending = [] := by
    rw [hnil] at hperm
    exact List.append_eq_nil_iff.mp hperm.nil_eq.symm
  have hplan (g : ℕ) (H : Plan) :
      pending.toward g ∪ H = c.pending.toward g ∪ (chain.toward g ∪ H) := by
    rw [Chain.toward_of_perm hperm, Set.union_assoc, Set.union_left_comm]
  refine ⟨{ c with pending }, ?_, ?_⟩
  · rw [resolve]
    refine EStateM.bind_eq_ok.mpr ⟨c, c, rfl, ?_⟩
    rw [hmerge]
    cases hhead : chain.head? with
    | none => rfl
    | some link =>
        have hno : (c.alive && !c.frame.compatible link.frame) = false := by
          cases halive : c.alive with
          | false => rfl
          | true => rw [(h.level halive).compatible (harrives link (List.mem_of_head? hhead))]; rfl
        dsimp only
        rw [hno]
        rfl
  · constructor
    case onward => exact ⟨rfl, rfl, rfl, fun _ => rfl⟩
    case frame => rfl
    case reachable =>
      show (c.alive || !pending.isEmpty) = (c.alive || !c.pending.isEmpty || !chain.isEmpty)
      rw [hperm.isEmpty_eq]
      cases chain <;> simp
    case ready =>
      have hloose {q : ℕ} (hl : ({ c with pending } : Code).Dangling q) :
          c.Dangling q := ⟨hl.ends, hl.opcode, hl.unseen⟩
      constructor
      case apart => exact (hall.pairwise_iff fun h => h.symm).mpr h.apart
      case within => exact fun l hl => h.within l (hall.mem_iff.mp hl)
      case firm => exact fun halive l hl hl' => h.firm halive l (hall.mem_iff.mp hl) (hloose hl')
      case loose => exact fun l hl hl' => h.loose l (hall.mem_iff.mp hl) (hloose hl')
      case level => exact h.level
      case joins =>
        intro l hl
        rcases List.mem_append.mp (hperm.mem_iff.mp hl) with hl | hl
        · exact harrives l hl
        · exact h.joins l hl
    case back =>
      rintro H p g ⟨⟨n, hstays, hfits⟩, hnarrow, hshort⟩
      refine ⟨⟨⟨n, ?_, ?_⟩, hnarrow, hshort⟩, ?_, ?_⟩
      · rw [← hplan]
        exact hstays.imp id fun ⟨hloose, ho⟩ => ⟨⟨hloose.ends, hloose.opcode, hloose.unseen⟩, ho⟩
      · rw [← hplan]
        exact hfits
      · exact fun e he => he.imp id fun ⟨hsome, he⟩ => ⟨fun hnil => hsome (hempty hnil).2, he⟩
      · exact fun hsome => .inr ⟨fun hnil => hsome (hempty hnil).1, rfl⟩

end Emit

/-! ### Variables in registers -/

/-- A truth value as a word. -/
def bit (b : Bool) : Int32 := if b then 1 else 0

/-- The values of variables of type `int` and of type `boolean`. -/
structure Valuation where
  ints : VarId → Int32
  bools : VarId → Bool

namespace Valuation

/-- The word that a variable holds. -/
def word (ν : Valuation) (x : LocalVar) : Int32 :=
  if x.ty = .boolean then bit (ν.bools x.id) else ν.ints x.id

/-- A variable of type `int` gets another value. -/
def set (ν : Valuation) (x : LocalVar) (v : Int32) : Valuation :=
  { ν with ints := Function.update ν.ints x.id v }

end Valuation

/-- The registers of variables. Every variable has one, and no two have the same. -/
structure Seating where
  vars : List LocalVar
  locals : Std.TreeMap VarId UInt16
  seated : ∀ x ∈ vars, ∃ reg, locals[x.id]? = some reg
  apart : ∀ x ∈ vars, ∀ y ∈ vars, locals[x.id]? = locals[y.id]? → x = y

/-- The registers hold the values of the variables. -/
def Seating.Seats (ζ : Seating) (ν : Valuation) (R : ℕ → Int32) : Prop :=
  ∀ x ∈ ζ.vars, ∀ reg, ζ.locals[x.id]? = some reg → R reg.toNat = ν.word x

/-- Storing into the register of a variable changes that variable and no other. -/
theorem Seating.Seats.set {ζ : Seating} {ν : Valuation} {R : ℕ → Int32} (h : ζ.Seats ν R)
    {x : LocalVar} (hx : x ∈ ζ.vars) (hty : x.ty = .int) {reg : UInt16}
    (hreg : ζ.locals[x.id]? = some reg) (v : Int32) :
    ζ.Seats (ν.set x v) (Function.update R reg.toNat v) := by
  intro y hy r hr
  by_cases hsame : r = reg
  · subst hsame
    obtain rfl := ζ.apart x hx y hy (hreg.trans hr.symm)
    simp [Valuation.word, Valuation.set, hty]
  · have hid : y.id ≠ x.id := fun hid => hsame (Option.some.inj ((hid ▸ hr).symm.trans hreg))
    rw [Function.update_of_ne (fun heq => hsame (UInt16.toNat_inj.mp heq)), h y hy r hr]
    simp [Valuation.word, Valuation.set, Function.update_of_ne hid]

/-! ### Where control comes to -/

/-- What the machine has at some place. -/
structure Spot where
  stack : List Int32
  vals : Valuation

/-- What becomes of the machine: it comes to the end of the code, or it returns. -/
inductive Outcome where
  | here (a : Spot)
  | answer (v : Int32) (vals : Valuation)

/-- The machine comes from `m` to the place `t`. -/
def Program.Visits (p : Program) (ζ : Seating) (m : Machine) (t : ℕ) (a : Spot) : Prop :=
  ∃ R, ζ.Seats a.vals R ∧ p.Reaches m ⟨t, a.stack, R⟩

/-- The way that a step takes to one spot, which depends on where it begins. -/
def Spot.To (f : Spot → Spot) (a : Spot) (o : Outcome) : Prop := o = .here (f a)

namespace MethodState

/-- Control may come to the end of the code. -/
def Live (s : MethodState) : Prop := s.asm.code.reachable = true

/-- The generator is in order, with `d` words on the stack and the variables in their registers. -/
structure Ready (ζ : Seating) (s : MethodState) (O : List Link) (d : ℕ) : Prop where
  code : s.asm.code.Ready O d []
  pool : s.asm.pool.Indexed
  locals : s.locals = ζ.locals

/-- What a step leaves alone. -/
structure Onward (s s' : MethodState) : Prop where
  code : s.asm.code.Onward s'.asm.code
  locals : s'.locals = s.locals
  scopes : s'.scopes = s.scopes
  letDepth : s'.letDepth = s.letDepth

/-- The program may come out of the code, and its pool out of the pool. -/
structure Future (s : MethodState) (H : Plan) (p : Program) (g : ℕ) : Prop where
  code : s.asm.code.Becomes H p g
  pool : s.asm.pool.Extends p.pool
  small : p.pool.size ≤ 0x10000

/-- What becomes of a machine `m`, with `g` for the place of the next instruction. -/
def Meets (ζ : Seating) (s : MethodState) (p : Program) (g : ℕ) (m : Machine) : Outcome → Prop
  | .here a => ∃ e, s.asm.code.Arrival g e ∧ p.Visits ζ m e a
  | .answer v ν => ∃ R, ζ.Seats ν R ∧ p.Returns m ⟨v, R⟩

/-- Control goes from the end of the code of `s` to where `T` says. -/
structure ControlFlow (ζ : Seating) (s s' : MethodState) (O : List Link) (d : ℕ)
    (T : Spot → Outcome → Prop) : Prop where
  onward : Onward s s'
  ready : s'.Ready ζ O d
  back : ∀ {H : Plan} {p : Program} {g' : ℕ}, H.Over O → s'.Future H p g' →
    ∃ g, s.Future H p g ∧ ∀ m a o, T a o → s.Meets ζ p g m (.here a) → s'.Meets ζ p g' m o

variable {ζ : Seating} {s s' s'' : MethodState} {O O' : List Link} {d d' : ℕ}
  {T T' : Spot → Outcome → Prop}

theorem Onward.refl (s : MethodState) : Onward s s := ⟨.refl _, rfl, rfl, rfl⟩

theorem Onward.trans (h : Onward s s') (h' : Onward s' s'') : Onward s s'' where
  code := h.code.trans h'.code
  locals := h'.locals.trans h.locals
  scopes := h'.scopes.trans h.scopes
  letDepth := h'.letDepth.trans h.letDepth

theorem Onward.put {c : Code} (h : s.asm.code.Onward c) : Onward s (Part.put c s) :=
  ⟨h, rfl, rfl, rfl⟩

theorem Ready.perm (h : s.Ready ζ O d) (hperm : O.Perm O') : s.Ready ζ O' d :=
  ⟨h.code.perm hperm, h.pool, h.locals⟩

theorem Ready.put (h : s.Ready ζ O d) {c : Code} (hc : c.Ready O' d' []) :
    (Part.put c s : MethodState).Ready ζ O' d' :=
  ⟨hc, h.pool, h.locals⟩

/-- Control that falls through or waits comes to the same. -/
theorem Meets.of_arrival {p : Program} {g g' : ℕ} {m : Machine} {a : Spot}
    (harrival : ∀ e, s.asm.code.Arrival g e → s'.asm.code.Arrival g' e)
    (h : s.Meets ζ p g m (.here a)) :
    s'.Meets ζ p g' m (.here a) := by
  obtain ⟨e, he, hvisits⟩ := h
  exact ⟨e, harrival e he, hvisits⟩

theorem Meets.live {p : Program} {g : ℕ} {m : Machine} {a : Spot}
    (h : s.Meets ζ p g m (.here a)) : s.Live := by
  obtain ⟨e, ⟨halive, -⟩ | ⟨hsome, -⟩, -⟩ := h
  · simp [Live, Code.reachable, halive]
  · simp [Live, Code.reachable, hsome]

theorem ControlFlow.mono (h : s.ControlFlow ζ s' O d T) (hT : ∀ a o, T' a o → T a o) :
    s.ControlFlow ζ s' O d T' where
  onward := h.onward
  ready := h.ready
  back := fun hover hF => by
    obtain ⟨g, hg, hback⟩ := h.back hover hF
    exact ⟨g, hg, fun m a o ho => hback m a o (hT a o ho)⟩

/-- One step after the other. -/
theorem ControlFlow.trans (h : s.ControlFlow ζ s' O d T) (h' : s'.ControlFlow ζ s'' O d' T')
    {T'' : Spot → Outcome → Prop} (hT : ∀ a o, T'' a o → ∃ b, T a (.here b) ∧ T' b o) :
    s.ControlFlow ζ s'' O d' T'' where
  onward := h.onward.trans h'.onward
  ready := h'.ready
  back := fun hover hF => by
    obtain ⟨g', hg', hback'⟩ := h'.back hover hF
    obtain ⟨g, hg, hback⟩ := h.back hover hg'
    refine ⟨g, hg, fun m a o ho hm => ?_⟩
    obtain ⟨b, hb, hbo⟩ := hT a o ho
    exact hback' m b o hbo (hback m a _ hb hm)

theorem ControlFlow.after {f : Spot → Spot} (h : s.ControlFlow ζ s' O d (Spot.To f))
    (h' : s'.ControlFlow ζ s'' O d' T) :
    s.ControlFlow ζ s'' O d' fun a => T (f a) :=
  h.trans h' fun a _ ho => ⟨f a, rfl, ho⟩

theorem ControlFlow.refl (h : s.Ready ζ O d) : s.ControlFlow ζ s O d (Spot.To id) where
  onward := .refl s
  ready := h
  back := fun _ hF => ⟨_, hF, by rintro m a _ rfl hm; exact hm⟩

/-- A change that the machine does not see. -/
theorem ControlFlow.of_idles {c : Code} (h : s.Ready ζ O d) (hc : s.asm.code.Idles c O d []) :
    s.ControlFlow ζ (Part.put c s) O d (Spot.To id) where
  onward := .put hc.onward
  ready := h.put hc.ready
  back := fun hover hF => by
    obtain ⟨g, hg, harrival⟩ := hc.back hover hF.code
    refine ⟨g, ⟨hg, hF.pool, hF.small⟩, ?_⟩
    rintro m a _ rfl hm
    exact hm.of_arrival harrival

end MethodState

/-! ### Instructions -/

open MethodState in
/-- An instruction that is not a branch goes on as it is read. -/
theorem Emit.Delivers.controlFlow {x : Emit Unit} {enc : Array UInt8} {e : Effect}
    (hx : Delivers x enc e) (henc : 0 < enc.size) {ζ : Seating} {s : MethodState} {O : List Link}
    {d : ℕ} (h : s.Ready ζ O d) (hlive : s.Live) (hneeds : e.needs ≤ d) {T : Spot → Outcome → Prop}
    (hread : ∀ (p : Program) q a o R, Holds p.bytes q enc → s.asm.pool.Extends p.pool →
      p.pool.size ≤ 0x10000 → T a o → ζ.Seats a.vals R →
      ∃ act, p.read q = some (act, q + enc.size) ∧ match o with
        | .here b => e.goesOn = true ∧ ∃ R', ζ.Seats b.vals R' ∧
          act.perform (q + enc.size) ⟨q, a.stack, R⟩ = some (.inl ⟨q + enc.size, b.stack, R'⟩)
        | .answer v ν => ζ.Seats ν R ∧ act = .answer ∧ ∃ S, a.stack = v :: S) :
    SucceedsWith x s fun _ s' => s.ControlFlow ζ s' O (d - e.needs + e.puts) T ∧
      s'.asm.code.alive = e.goesOn ∧
      s'.asm.code.pending = [] ∧ s'.asm.code.frame.Has (d - e.needs + e.puts) [] := by
  obtain ⟨q, c', hrun, hgains, halive⟩ := hx.gains henc h.code hlive hneeds
  refine ⟨(), c', hrun, ⟨.put hgains.onward, h.put hgains.ready, ?_⟩, halive, hgains.pending,
    hgains.frame⟩
  intro H p g hover hF
  obtain ⟨hbecomes, hold⟩ := hgains.back hover hF.code
  refine ⟨q, ⟨hbecomes, hF.pool, hF.small⟩, fun m a o ho hm => ?_⟩
  obtain ⟨e', harrival, R, hseats, hreach⟩ := hm
  obtain rfl : e' = q := by
    rcases harrival with ⟨hc, rfl⟩ | ⟨-, rfl⟩
    · exact hgains.here hc
    · rfl
  obtain ⟨act, hact, hperform⟩ := hread p e' a o R hold hF.pool hF.small ho hseats
  cases o with
  | here b =>
      obtain ⟨hgo, R', hseats', hperform⟩ := hperform
      exact ⟨_, .inl ⟨halive.trans hgo, hgains.size.symm⟩, R', hseats',
        hreach.trans (Program.reaches_of_read hact hperform)⟩
  | answer v ν =>
      obtain ⟨hseats', rfl, S, hstack⟩ := hperform
      exact ⟨R, hseats', hreach.returns (Program.returns_of_read hact hstack)⟩

/-- Where the generator is in order with `d` words on the stack and control comes, the step
succeeds and takes control to where `T` says, with `d'` words on the stack. -/
def Course {σ α : Type} [Part σ] (ζ : Seating) (x : EStateM Error σ α) (d d' : ℕ)
    (T : Spot → Outcome → Prop) : Prop :=
  ∀ ⦃s : MethodState⦄ ⦃O : List Link⦄, s.Ready ζ O d → s.Live → SucceedsWith x s fun _ s' =>
    s.ControlFlow ζ s' O d' T ∧ s'.Live

namespace Course

variable {σ α β : Type} [Part σ] {ζ : Seating} {x : EStateM Error σ α} {f : α → EStateM Error σ β}
  {d d' d'' : ℕ}
  {T T' T'' : Spot → Outcome → Prop}

theorem bind (h : Course ζ x d d' T) (hf : ∀ a, Course ζ (f a) d' d'' T')
    (hT : ∀ a o, T'' a o → ∃ b, T a (.here b) ∧ T' b o) : Course ζ (x >>= f) d d'' T'' :=
  fun _ _ hs hlive =>
  (h hs hlive).bind fun a _ hx => (hf a hx.1.ready hx.2).mono fun _ _ hy =>
    ⟨hx.1.trans hy.1 hT, hy.2⟩

theorem onCode {x : Emit α} (h : Course ζ x d d' T) : Course ζ (Asm.onCode x) d d' T :=
  fun _ _ hs hlive =>
  .onCode (h hs hlive)

/-- An instruction that is read in one way only. -/
theorem of_delivers {x : Emit Unit} {enc : Array UInt8} {e : Effect} (hx : Emit.Delivers x enc e)
    (henc : 0 < enc.size) (hgo : e.goesOn = true) (hneeds : e.needs ≤ d)
    (hd : d - e.needs + e.puts = d') {act : Act}
    (hread : ∀ (p : Program) q, Holds p.bytes q enc → p.read q = some (act, q + enc.size))
    (hact : ∀ a o R, T a o → ζ.Seats a.vals R → ∃ b R', o = .here b ∧ ζ.Seats b.vals R' ∧
      ∀ q next, act.perform next ⟨q, a.stack, R⟩ = some (.inl ⟨next, b.stack, R'⟩)) :
    Course ζ x d d' T := by
  intro s O h hlive
  subst hd
  refine (hx.controlFlow henc h hlive hneeds ?_).mono fun _ s' hs' => ⟨hs'.1, ?_⟩
  · intro p q a o R hold _ _ ho hseats
    obtain ⟨b, R', rfl, hseats', hperform⟩ := hact a o R ho hseats
    exact ⟨act, hread p q hold, hgo, R', hseats', hperform _ _⟩
  · rw [MethodState.Live, Code.reachable, hs'.2.1, hgo]
    rfl

end Course

/-! ### Loading and storing -/

namespace Spot

def push (v : Int32) (a : Spot) : Spot := ⟨v :: a.stack, a.vals⟩

/-- The value on top is doubled. -/
def Dup (a : Spot) (o : Outcome) : Prop := ∃ v S, a.stack = v :: S ∧ o = .here ⟨v :: v :: S, a.vals⟩

/-- The value on top is stored into `x`. -/
def Store (x : LocalVar) (a : Spot) (o : Outcome) : Prop :=
  ∃ v S, a.stack = v :: S ∧ o = .here ⟨S, a.vals.set x v⟩

/-- The two values on top are combined. -/
def Combine (op : Opcode) (a : Spot) (o : Outcome) : Prop :=
  ∃ v w S, a.stack = w :: v :: S ∧ o = .here ⟨op.combine v w :: S, a.vals⟩

/-- The value on top is returned. -/
def Return (a : Spot) (o : Outcome) : Prop := ∃ v S, a.stack = v :: S ∧ o = .answer v a.vals

end Spot

namespace Course

variable {ζ : Seating} {d : ℕ}

/-- An instruction that pushes a constant. -/
theorem of_push {x : Emit Unit} {enc : Array UInt8} {e : Effect} {v : Int32}
    (hx : Emit.Delivers x enc e) (henc : 0 < enc.size)
    (he : e.goesOn = true ∧ e.needs = 0 ∧ e.puts = 1)
    (hread : ∀ (p : Program) q, Holds p.bytes q enc → p.read q = some (.push v, q + enc.size)) :
    Course ζ x d (d + 1) (Spot.To (Spot.push v)) := by
  obtain ⟨hgo, hneeds, hputs⟩ := he
  refine of_delivers hx henc hgo (by omega) (by omega) hread ?_
  rintro a _ R rfl hseats
  exact ⟨_, R, rfl, hseats, fun _ _ => rfl⟩

theorem iconst {v : Int32} (hv : Int32.between v (-1) 5 = true) :
    Course ζ (Emit.plain (.iconst0 + v.toInt8.toUInt8)) d (d + 1) (Spot.To (Spot.push v)) := by
  obtain ⟨htakes, heffect⟩ := Opcode.iconst_row hv
  exact of_push (Emit.delivers_plain htakes) Nat.one_pos heffect fun p q => Program.read_iconst hv

/-- An integer is put into the pool, where it stays up to the program. -/
theorem putInt (v : Int32) {s : MethodState} {O : List Link} (h : s.Ready ζ O d) (hlive : s.Live) :
    SucceedsWith (Asm.pooled (·.put (.int v))) s fun i s' => s.ControlFlow ζ s' O d
      (Spot.To id) ∧ s'.Live ∧
      ∀ p : Pool, s'.asm.pool.Extends p → p.size ≤ 0x10000 → p.int? i = some v := by
  obtain ⟨hindexed, hentry⟩ := h.pool.put (.int v)
  refine ⟨(s.asm.pool.put (.int v)).1, ⟨s.asm.code, (s.asm.pool.put (.int v)).2⟩, rfl,
    ⟨⟨.refl _, rfl, rfl, rfl⟩, ⟨h.code, hindexed, h.locals⟩, ?_⟩, hlive, ?_⟩
  · intro H p g _ hF
    refine ⟨g, ⟨hF.code, (s.asm.pool.extends_put (.int v)).trans hF.pool, hF.small⟩, ?_⟩
    rintro m a _ rfl hm
    exact hm
  · intro p hp hsmall
    rw [Pool.int?, hp.2 _ _ (hentry (hp.1.trans hsmall))]

/-- An integer is loaded from the pool. -/
theorem ldc {i : UInt16} {v : Int32} {s : MethodState} {O : List Link} (h : s.Ready ζ O d)
    (hlive : s.Live) (hi : ∀ p : Pool, s.asm.pool.Extends p → p.size ≤ 0x10000 →
      p.int? i = some v) :
    SucceedsWith (Emit.ldc i .int) s fun _ s' => s.ControlFlow ζ s' O (d + 1)
      (Spot.To (Spot.push v)) ∧ s'.Live := by
  refine ((Emit.delivers_ldc i .int).controlFlow (size_append_pos _ _) h hlive
    (Nat.zero_le _) ?_).mono fun _ s' hs' => ⟨hs'.1, ?_⟩
  · rintro p q a _ R hold hp hsmall rfl hseats
    refine ⟨.push v, ?_, rfl, R, hseats, rfl⟩
    have hint := hi p.pool hp hsmall
    unfold Emit.ldcOp Emit.ldcBytes at hold ⊢
    simp only [reduceCtorEq, or_self, if_false] at hold ⊢
    split at hold
    · rename_i hshort
      rw [if_pos hshort, if_pos hshort]
      exact Program.read_ldc hshort hint hold
    · rename_i hlong
      rw [if_neg hlong, if_neg hlong]
      exact Program.read_ldcW hint hold
  · rw [MethodState.Live, Code.reachable, hs'.2.1]
    rfl

theorem loadInt (v : Int32) : Course ζ (Item.loadInt v) d (d + 1) (Spot.To (Spot.push v)) := by
  unfold Item.loadInt
  split
  · rename_i hv
    exact .onCode (iconst hv)
  split
  · rename_i hv
    exact .onCode (of_push (Emit.delivers_byte (by decide) _) (by simp) (by decide) fun p q =>
      Program.read_bipush hv)
  split
  · rename_i hv
    exact .onCode (of_push (Emit.delivers_short (by decide) _) (by simp) (by decide) fun p q =>
      Program.read_sipush hv)
  · intro s O h hlive
    refine (putInt v h hlive).bind fun i s₁ ⟨hflow, hlive₁, hi⟩ => ?_
    exact .onCode ((ldc hflow.ready hlive₁ hi).mono fun _ _ hs' => ⟨hflow.after hs'.1, hs'.2⟩)

theorem size_localBytes (family short : Opcode) (reg : UInt16) :
    0 < (Emit.localBytes family short reg).size := by
  unfold Emit.localBytes Emit.registerBytes
  split
  · simp
  · split <;> simp

/-- A variable is loaded. -/
theorem loadVar {x : LocalVar} (hx : x ∈ ζ.vars) {reg : UInt16} (hreg : ζ.locals[x.id]? = some reg)
    {k : Kind} (hk : k.widen = .int) :
    Course ζ (Item.onRegister .iload .iload0 k reg) d (d + 1)
      (Spot.To fun a => a.push (a.vals.word x)) := by
  refine of_delivers (Emit.delivers_onRegister hk (e := .trade 0 .int) (by decide)
    (by decide +kernel))
    (size_localBytes _ _ _) rfl (Nat.zero_le _) rfl (fun p q => Program.read_load) ?_
  rintro a _ R rfl hseats
  refine ⟨_, R, rfl, hseats, fun q next => ?_⟩
  show some (Sum.inl (Machine.mk next (R reg.toNat :: a.stack) R)) = _
  rw [hseats x hx reg hreg]
  rfl

/-- The value on top is stored into a variable. -/
theorem storeVar {x : LocalVar} (hx : x ∈ ζ.vars) (hty : x.ty = .int) {reg : UInt16}
    (hreg : ζ.locals[x.id]? = some reg) :
    Course ζ (Item.store (.var .int reg)) (d + 1) d (Spot.Store x) := by
  have hstore : Course ζ (Item.onRegister .istore .istore0 .int reg) (d + 1) d (Spot.Store x) := by
    refine of_delivers (Emit.delivers_onRegister rfl (e := .pop 1) (by decide) (by decide +kernel))
      (size_localBytes _ _ _) rfl (Nat.le_add_left 1 d) rfl (fun p q => Program.read_store) ?_
    rintro a _ R ⟨v, S, hstack, rfl⟩ hseats
    refine ⟨_, _, rfl, hseats.set hx hty hreg v, fun q next => ?_⟩
    rw [hstack]
    rfl
  have hdefine : Course ζ (modify fun s => { s with code := s.code.define reg } : Asm Unit) d d
      (Spot.To id) := by
    intro s O h hlive
    refine ⟨(), _, rfl, .of_idles h
      (h.code.idles ⟨rfl, rfl, rfl, fun _ => rfl⟩ rfl rfl rfl rfl rfl ⟨rfl, rfl⟩), hlive⟩
  exact .bind (.onCode hstore) (fun _ => hdefine) fun a o ⟨v, S, hstack, ho⟩ =>
    ⟨_, ⟨v, S, hstack, rfl⟩, ho⟩

theorem dup : Course ζ (Emit.plain .dup) (d + 1) (d + 2) Spot.Dup := by
  refine of_delivers (Emit.delivers_plain (by decide)) Nat.one_pos (by decide)
    (Nat.le_add_left 1 d) rfl
    (fun p q => Program.read_plain (by decide) rfl) ?_
  rintro a _ R ⟨v, S, hstack, rfl⟩ hseats
  exact ⟨_, R, rfl, hseats, fun q next => by rw [hstack]; rfl⟩

/-- The bitwise operations. -/
theorem combine {op : Opcode} (hop : op = .iand ∨ op = .ior ∨ op = .ixor) :
    Course ζ (Emit.plain op) (d + 2) (d + 1) (Spot.Combine op) := by
  have hrow : op.Takes .plain ∧ op.effect = .trade 2 .int ∧ op.length? = some 1 := by
    rcases hop with rfl | rfl | rfl <;> decide
  obtain ⟨htakes, heffect, hlen⟩ := hrow
  have hact (p : Program) (q : ℕ) : Instruction.act? ⟨q, op, 1, false⟩ p = some (.combine op) := by
    rcases hop with rfl | rfl | rfl <;> rfl
  have hdelivers : Emit.Delivers (Emit.plain op) #[op] (.trade 2 .int) :=
    heffect ▸ Emit.delivers_plain htakes
  refine of_delivers hdelivers Nat.one_pos rfl (Nat.le_add_left 2 d) rfl
    (fun p q => Program.read_plain hlen (hact p q)) ?_
  rintro a _ R ⟨v, w, S, hstack, rfl⟩ hseats
  exact ⟨_, R, rfl, hseats, fun q next => by rw [hstack]; rfl⟩

end Course

/-- The value on top is returned. -/
theorem Emit.ireturn_controlFlow {ζ : Seating} {s : MethodState} {O : List Link} {d : ℕ}
    (h : s.Ready ζ O (d + 1)) (hlive : s.Live) :
    SucceedsWith (Emit.plain .ireturn) s fun _ s' => s.ControlFlow ζ s' O d Spot.Return ∧
      s'.asm.code.alive = false ∧ s'.asm.code.pending = [] ∧ s'.asm.code.frame.Has d [] := by
  refine (Emit.delivers_plain (show Opcode.ireturn.Takes .plain by decide)).controlFlow Nat.one_pos
    h hlive (Nat.le_add_left 1 d) ?_
  rintro p q a _ R hold _ _ ⟨v, S, hstack, rfl⟩ hseats
  exact ⟨.answer, Program.read_plain (by decide) rfl hold, hseats, rfl, S, hstack⟩

end StackCode
