import StackCode.Proofs.ResolvedChains
import StackCode.Proofs.Sparing

/-!
# Using a buffer

A buffer is used by calls: instructions and branches are written, chains are handed out and
resolved, positions are asked for, lines are begun and entered. `Session.Step` is one such call,
and `Session.Reaches` says what calls on an empty buffer can come to. Every chain is used once,
and no branch is led behind the end of the code.

The branches that have no target yet are open. In every session they lie within the code and share
no bytes (`Code.Tidy`), so that resolving some of them does nothing to the others, and the only
branch that can be taken back is the last one.
-/

namespace StackCode

open Instruction

/-- Where the branches of a chain lead that are in the code, if jumps are narrow. -/
def Code.leads (c : Code) (chain : Chain) : List Int :=
  chain.filterMap fun l => (shortAt c.bytes (l.pc + 1)).toOption.map (l.pc + ·)

/-- Where the branches that wait lead once they are resolved. -/
def Code.landings (c : Code) : List Int :=
  match Emit.resolvePending c with
  | .ok _ c₁ => c₁.leads c.pending
  | .error _ _ => []

/-- A buffer in use, with the chains that it has handed out and that have not been used yet. The
places that have been seen are those that it has given out and those that it has led branches to.
-/
structure Session where
  code : Code
  chains : List Chain := []
  seen : List Int := []

namespace Session

/-- An empty buffer. -/
def fresh (wide : Bool) (config : Config) : Session := { code := .new wide config }

/-- One call on the buffer. `Allowed` says which chains may be resolved to which places. -/
inductive Step (Allowed : Code → Chain → ℕ → Prop) : Session → Session → Prop
  /-- an instruction of any form -/
  | write {s : Session} {x : Emit Unit} {enc : Array UInt8} {e : Effect} {P : Prop} {c : Code}
      (hwrites : Emit.Writes x enc e P) (henc : 0 < enc.size) (hrun : x s.code = .ok () c) :
      Step Allowed s { s with code := c, seen := s.code.landings ++ s.seen }
  /-- A `goto` takes over the branches that wait, and nothing is written for a condition that never
  holds. -/
  | branch {s : Session} {op : Opcode} {chain : Chain} {c : Code}
      (hop : s.code.wide = true → op.isConditional = true ∨ op = .goto ∨ op = .jsr)
      (hrun : Emit.branch op s.code = .ok chain c) :
      Step Allowed s
        { code := c, chains := chain :: s.chains
          seen := (if op = .goto ∨ op = .never then [] else s.code.landings) ++ s.seen }
  | resolve {s : Session} {before after : List Chain} {chain : Chain} {c : Code}
      (htake : s.chains = before ++ chain :: after) (hrun : Emit.resolve chain s.code = .ok () c) :
      Step Allowed s { s with code := c, chains := before ++ after }
  | resolveTo {s : Session} {before after : List Chain} {chain : Chain} {target : ℕ} {c : Code}
      (htake : s.chains = before ++ chain :: after) (hallowed : Allowed s.code chain target)
      (hrun : Emit.resolveTo chain target s.code = .ok () c) :
      Step Allowed s { code := c, chains := before ++ after, seen := c.leads chain ++ s.seen }
  | curPc {s : Session} {pc : ℕ} {c : Code} (hrun : Emit.curPc s.code = .ok pc c) :
      Step Allowed s { s with code := c, seen := (pc : Int) :: (s.code.landings ++ s.seen) }
  | entry {s : Session} {pc : ℕ} {c : Code} (hrun : Emit.entry s.code = .ok pc c) :
      Step Allowed s { s with code := c, seen := (pc : Int) :: (s.code.landings ++ s.seen) }
  | beginLine {s : Session} (line : ℕ) : Step Allowed s { s with code := s.code.beginLine line }
  | setLine {s : Session} (line : Option ℕ) :
      Step Allowed s { s with code := { s.code with pendingLine := line } }
  | markLine {s : Session} : Step Allowed s { s with code := s.code.markLine }
  | kill {s : Session} : Step Allowed s { s with code := s.code.kill }

/-- A chain may be resolved to any place up to the end of the code. -/
def Backward (c : Code) (_ : Chain) (target : ℕ) : Prop := target ≤ c.pc

/-- What comes about by calls on an empty buffer. -/
def Reaches (Allowed : Code → Chain → ℕ → Prop) (wide : Bool) (config : Config) : Session → Prop :=
  Relation.ReflTransGen (Step Allowed) (fresh wide config)

/-- The open branches. -/
def unsettled (s : Session) : List Link := s.code.pending ++ s.chains.flatten

variable {s : Session} {chain : Chain} {before after : List Chain}

/-- A chain is taken out of those that have been handed out. -/
theorem unsettled_perm (htake : s.chains = before ++ chain :: after) :
    s.unsettled.Perm (chain ++ (s.code.pending ++ (before ++ after).flatten)) := by
  rw [unsettled, htake, List.flatten_append, List.flatten_cons, List.flatten_append]
  exact ((List.perm_append_comm_assoc _ _ _).append_left _).trans
    (List.perm_append_comm_assoc _ _ _)

end Session

/-! ### Resolving -/

theorem Code.rejoin_eq (c : Code) (joined : Option Frame) :
    ∃ frame maxStack, c.rejoin joined = { c with frame, maxStack } := by
  cases joined with
  | none => exact ⟨c.frame, c.maxStack, rfl⟩
  | some frame => exact ⟨frame, _, rfl⟩

namespace Emit

variable {c c' : Code} {l : Link} {rest chain : Chain} {target : ℕ}

/-- How a chain is resolved. -/
theorem resolveTo_cases (htarget : target ≤ c.pc) (h : resolveTo (l :: rest) target c = .ok () c') :
    ∃ alive fixed frame maxStack, (target = c.pc → alive = true) ∧
      (c.takesBack (l :: rest) target = false ∧ fixed = true ∧
          c' = { c.patchAll (l :: rest) target with alive, fixed, frame, maxStack } ∨
        c.takesBack (l :: rest) target = true ∧ (rest = [] ∨ fixed = true) ∧
          c' = { (c.dropTail 3).patchAll rest (c.pc - 3) with alive, fixed, frame, maxStack }) := by
  obtain ⟨joined, c₁, hlinks, -⟩ := EStateM.bind_eq_ok.mp h
  rw [resolveTo_eq hlinks] at h
  obtain ⟨-, rfl⟩ := EStateM.Result.ok.inj h
  obtain ⟨frame, maxStack, hrejoin⟩ := c₁.rejoin_eq joined
  rw [hrejoin]
  refine ⟨c₁.alive, c₁.fixed, frame, maxStack, ?_⟩
  cases hback : c.takesBack (l :: rest) target with
  | false =>
      rw [resolveLinks_eq_of_ok htarget hback hlinks]
      refine ⟨?_, .inl ⟨rfl, rfl, rfl⟩⟩
      rintro rfl
      simp [Code.seenAs, Code.arrives]
  | true =>
      have hends : c.endsWithGoto l target = true := hback
      obtain rfl : target = c.pc := by
        simp only [Code.endsWithGoto, Bool.and_eq_true, beq_iff_eq] at hends
        exact hends.1.2
      rw [resolveLinks_dropTail rest hends] at hlinks
      cases rest with
      | nil =>
          obtain ⟨-, rfl⟩ := EStateM.Result.ok.inj hlinks
          exact ⟨fun _ => rfl, .inr ⟨rfl, .inl rfl, rfl⟩⟩
      | cons m rest =>
          have hpc : ((c.dropTail 3).seenAs true).pc = c.pc - 3 := c.size_dropTail 3
          rw [resolveLinks_eq_of_ok (by rw [hpc]) (Code.endsWithGoto_seenAs _ _ _ _) hlinks,
            Code.patchAll_seenAs]
          exact ⟨fun _ => by simp [Code.seenAs, Code.arrives], .inr ⟨rfl, .inr rfl, rfl⟩⟩

theorem pending_resolveTo (h : resolveTo chain target c = .ok () c') : c'.pending = c.pending := by
  obtain ⟨joined, c₁, hlinks, -⟩ := EStateM.bind_eq_ok.mp h
  rw [resolveTo_eq hlinks] at h
  obtain ⟨-, rfl⟩ := EStateM.Result.ok.inj h
  obtain ⟨frame, maxStack, hrejoin⟩ := c₁.rejoin_eq joined
  rw [hrejoin]
  exact (frame_resolveLinks hlinks).2.1

end Emit

namespace Code

/-- The branches `O` are open. In wide code none of them is taken back, since its end is marked as
seen behind every branch. -/
structure Tidy (c : Code) (O : List Link) : Prop where
  within : ∀ l ∈ O, l.pc + branchSize c.wide ≤ c.pc
  apart : O.Pairwise (Link.Apart c.wide)
  shut : c.wide = true → O ≠ [] → c.fixed = true

/-- What resolving a chain does to the code. -/
structure ChainResolved (c : Code) (chain : Chain) (c' : Code) : Prop where
  wide : c'.wide = c.wide
  kept : ∃ kept t, c.Retargeted kept t c' ∧ kept ⊆ chain ∧ t ≤ c'.pc ∧
    (kept = chain ∧ c'.pc = c.pc ∨ ∃ l, chain = l :: kept ∧ c'.pc = l.pc ∧ l.pc + 3 = c.pc ∧
      c.fixed = false ∧ c.wide = false)

variable {c c' : Code} {O O' : List Link} {chain : Chain} {target : ℕ}

theorem Tidy.perm (h : c.Tidy O) (hperm : O.Perm O') : c.Tidy O' where
  within l hl := h.within l (hperm.mem_iff.mpr hl)
  apart := hperm.pairwise h.apart fun hapart => hapart.symm
  shut hwide hne := h.shut hwide fun hnil => hne (hnil ▸ hperm).nil_eq.symm

theorem Tidy.left (h : c.Tidy (chain ++ O)) : c.Tidy chain where
  within l hl := h.within l (List.mem_append_left _ hl)
  apart := (List.pairwise_append.mp h.apart).1
  shut hwide hne := h.shut hwide fun hnil => hne (List.append_eq_nil_iff.mp hnil).1

theorem Tidy.chainResolved (h : c.Tidy chain) (hne : chain ≠ []) (htarget : target ≤ c.pc)
    (hrun : Emit.resolveTo chain target c = .ok () c') : c.ChainResolved chain c' := by
  obtain ⟨l, rest, rfl⟩ := List.exists_cons_of_ne_nil hne
  obtain ⟨alive, fixed, frame, maxStack, -, ⟨-, -, rfl⟩ | ⟨hback, -, rfl⟩⟩ :=
    Emit.resolveTo_cases htarget hrun
  · have hpc := c.pc_patchAll (l :: rest) target
    have hkept := retargeted_patchAll (t := target) h.within h.apart
    obtain ⟨bs, n, hpatch⟩ := c.patchAll_eq (l :: rest) target
    rw [hpatch] at hpc hkept ⊢
    exact ⟨rfl, _, target, hkept.of_eq rfl rfl, List.Subset.refl _, hpc ▸ htarget,
      .inl ⟨rfl, hpc⟩⟩
  · obtain ⟨⟨⟨-, hend⟩, rfl⟩, hfixed⟩ : ((_ ∧ l.pc + 3 = target) ∧ target = c.pc) ∧
        c.fixed = false := by
      simpa only [takesBack, List.head?_cons, Option.any_some, endsWithGoto, Bool.and_eq_true,
        beq_iff_eq, Bool.not_eq_true'] using hback
    have hnarrow : c.wide = false := by
      cases hwide : c.wide with
      | false => rfl
      | true => rw [h.shut hwide hne] at hfixed; cases hfixed
    have hpc := (pc_patchAll _ rest (c.pc - 3)).trans (c.size_dropTail 3)
    have hkept := retargeted_dropTail (t := c.pc - 3) hnarrow hend h.within h.apart
    obtain ⟨vars, slots, htail⟩ := c.dropTail_eq 3
    obtain ⟨bs, n, hpatch⟩ := (c.dropTail 3).patchAll_eq rest (c.pc - 3)
    rw [hpatch, htail] at hpc hkept ⊢
    have hpc' : bs.size = c.pc - 3 := hpc
    refine ⟨rfl, _, _, hkept.of_eq rfl rfl, List.subset_cons_self _ _, hpc.ge,
      .inr ⟨l, rfl, ?_, hend, hfixed, hnarrow⟩⟩
    show bs.size = l.pc
    omega

/-- A branch that is left ends before the one taken back, if there is one. -/
theorem Tidy.before (h : c.Tidy (chain ++ O)) (hresolved : c.ChainResolved chain c') :
    ∀ m ∈ O, m.pc + branchSize c.wide ≤ c'.pc := by
  intro m hm
  have hend := h.within m (List.mem_append_right _ hm)
  obtain ⟨kept, t, -, -, -, ⟨-, hpc⟩ | ⟨l, rfl, hpc, hl, -, hnarrow⟩⟩ := hresolved.kept
  · rwa [hpc]
  · have hapart := (List.pairwise_append.mp h.apart).2.2 l List.mem_cons_self m hm
    rw [hnarrow] at hapart hend ⊢
    unfold Link.Apart branchSize at *
    simp only [Bool.false_eq_true, if_false] at *
    omega

theorem Tidy.settled (h : c.Tidy (chain ++ O)) (hne : chain ≠ []) (htarget : target ≤ c.pc)
    (hrun : Emit.resolveTo chain target c = .ok () c') : c'.Tidy O := by
  have hresolved := h.left.chainResolved hne htarget hrun
  refine ⟨?_, ?_, fun hwide _ => ?_⟩
  · rw [hresolved.wide]
    exact h.before hresolved
  · rw [hresolved.wide]
    exact (List.pairwise_append.mp h.apart).2.1
  · obtain ⟨l, rest, rfl⟩ := List.exists_cons_of_ne_nil hne
    rw [hresolved.wide] at hwide
    have hfixed := h.shut hwide (List.cons_ne_nil _ _)
    obtain ⟨alive, fixed, frame, maxStack, -, ⟨-, rfl, rfl⟩ | ⟨hback, -, -⟩⟩ :=
      Emit.resolveTo_cases htarget hrun
    · rfl
    · simp [takesBack, endsWithGoto, hfixed] at hback

theorem le_pc_of_append {bs : Array UInt8} (hbytes : c'.bytes = c.bytes ++ bs) : c.pc ≤ c'.pc := by
  unfold pc
  rw [hbytes, Array.size_append]
  omega

/-- More code is written. -/
theorem Tidy.written (h : c.Tidy O) {bs : Array UInt8} (hbytes : c'.bytes = c.bytes ++ bs)
    (hwide : c'.wide = c.wide) (hfixed : c.fixed = true → c'.fixed = true) : c'.Tidy O := by
  have hpc := le_pc_of_append hbytes
  refine ⟨fun l hl => ?_, hwide ▸ h.apart, fun hw hne => ?_⟩
  · rw [hwide]
    exact (h.within l hl).trans hpc
  · rw [hwide] at hw
    exact hfixed (h.shut hw hne)

theorem Tidy.of_eq (h : c.Tidy O) (hbytes : c'.bytes = c.bytes) (hwide : c'.wide = c.wide)
    (hfixed : c.fixed = true → c'.fixed = true) : c'.Tidy O :=
  h.written (hbytes.trans (Array.append_empty).symm) hwide hfixed

/-- The branches that wait are resolved, if there are any. -/
theorem Tidy.flushed (h : c.Tidy (c.pending ++ O)) (hrun : Emit.resolvePending c = .ok () c') :
    c'.Tidy O ∧ c'.wide = c.wide ∧ (c.pending = [] ∧ c' = c ∨
      c.pending ≠ [] ∧ Emit.resolveTo c.pending c.pc { c with pending := [] } = .ok () c' ∧
        ChainResolved { c with pending := [] } c.pending c') := by
  cases hpending : c.pending with
  | nil =>
      obtain rfl := Emit.resolvePending_nil hpending hrun
      rw [hpending] at h
      exact ⟨h, rfl, .inl ⟨rfl, rfl⟩⟩
  | cons l rest =>
      obtain ⟨_, _, hget, hrun⟩ := EStateM.bind_eq_ok.mp hrun
      cases hget
      rw [hpending] at h hrun
      obtain ⟨⟨⟩, c₁, hmod, hrun⟩ := EStateM.bind_eq_ok.mp hrun
      cases hmod
      have htidy : Tidy { c with pending := [] } (l :: rest ++ O) := h.of_eq rfl rfl id
      have hne := List.cons_ne_nil l rest
      have hhere := Nat.le_refl (pc { c with pending := [] })
      have hresolved := htidy.left.chainResolved hne hhere hrun
      exact ⟨htidy.settled hne hhere hrun, hresolved.wide, .inr ⟨hne, hrun, hresolved⟩⟩

/-- A branch is written. -/
theorem Tidy.branched (h : c.Tidy O) {l : Link} (hl : c.pc ≤ l.pc)
    (hend : l.pc + branchSize c.wide = c'.pc) (hwide : c'.wide = c.wide)
    (hfixed : c.wide = true → c'.fixed = true) : c'.Tidy (l :: O) := by
  refine ⟨?_, ?_, fun hw _ => hfixed (hwide ▸ hw)⟩
  · rw [hwide, ← hend]
    refine List.forall_mem_cons.mpr ⟨Nat.le_refl _, fun m hm => ?_⟩
    have := h.within m hm
    omega
  · rw [hwide]
    exact List.pairwise_cons.mpr ⟨fun m hm => .inr ((h.within m hm).trans hl), h.apart⟩

end Code

/-! ### What a call comes to -/

/-- What a call does to the code, to the branches that are open and to the places that have been
seen. -/
inductive Turn (Allowed : Code → Chain → ℕ → Prop) (c : Code) (O : List Link) (Q : List Int) :
    Code → List Link → List Int → Prop
  /-- nothing happens to the bytes -/
  | rest {O' : List Link} (pending : Chain) (line : Option ℕ) (alive : Bool) (hopen : O.Perm O') :
      Turn Allowed c O Q { c with pending, pendingLine := line, alive } O' Q
  | mark : Turn Allowed c O Q c.markLine O Q
  | settle {chain : Chain} {target : ℕ} {c' : Code} {O' : List Link} (hopen : O.Perm (chain ++ O'))
      (hne : chain ≠ []) (hallowed : Allowed c chain target)
      (hrun : Emit.resolveTo chain target c = .ok () c') :
      Turn Allowed c O Q c' O' (c'.leads chain ++ Q)
  /-- the branches that wait are resolved, and an instruction is written -/
  | write {c₁ : Code} {H : List Link} (bs : Array UInt8) (alive : Bool) (frame : Frame)
      (maxStack : ℕ)
      (hopen : O = c.pending ++ H) (hflush : Emit.resolvePending c = .ok () c₁)
        (hbs : 0 < bs.size) :
      Turn Allowed c O Q { c₁.markLine with bytes := c₁.bytes ++ bs, alive, frame, maxStack } H
        (c₁.leads c.pending ++ Q)
  /-- they are resolved, and the position is given out -/
  | ask {c₁ : Code} {H : List Link} (alive : Bool) (hopen : O = c.pending ++ H)
      (hflush : Emit.resolvePending c = .ok () c₁) :
      Turn Allowed c O Q { c₁.markLine with fixed := true, alive } H
        ((c₁.pc : Int) :: (c₁.leads c.pending ++ Q))
  /-- they are resolved, unless they are taken over, and a branch is written -/
  | branch {c₀ c₁ : Code} {H : List Link} {l : Link} (bs : Array UInt8) (alive : Bool)
      (frame : Frame) (maxStack : ℕ)
      (hstart : c₀ = c ∨ c₀ = { c with pending := [] }) (hopen : O = c₀.pending ++ H)
      (hflush : Emit.resolvePending c₀ = .ok () c₁) (hlink : c₁.pc ≤ l.pc)
      (hend : l.pc + branchSize c.wide = c₁.pc + bs.size)
      (hbs : c.wide = false → ∃ op, bs = #[op] ++ wordBytes 0) :
      Turn Allowed c O Q
        { c₁.markLine with
          bytes := c₁.bytes ++ bs, fixed := c₁.markLine.wide, alive, frame, maxStack }
        (l :: H) (c₁.leads c₀.pending ++ Q)

theorem Code.bytes_markLine (c : Code) : c.markLine.bytes = c.bytes := by
  obtain ⟨line, lines, hmark, -⟩ := c.markLine_eq
  rw [hmark]

theorem Code.pc_markLine (c : Code) : c.markLine.pc = c.pc := congrArg Array.size c.bytes_markLine

theorem Code.wide_markLine (c : Code) : c.markLine.wide = c.wide := by
  obtain ⟨line, lines, hmark, -⟩ := c.markLine_eq
  rw [hmark]

theorem Code.fixed_markLine (c : Code) : c.markLine.fixed = c.fixed := by
  obtain ⟨line, lines, hmark, -⟩ := c.markLine_eq
  rw [hmark]

/-- An instruction that is written. -/
theorem Code.applyEffect_marked (c : Code) (bs : Array UInt8) (e : Effect) :
    ∃ alive frame maxStack, (c.markLine.written bs).applyEffect e =
      { c.markLine with bytes := c.bytes ++ bs, alive, frame, maxStack } := by
  rw [← c.bytes_markLine]
  cases e <;> exact ⟨_, _, _, rfl⟩

theorem Code.landings_eq {c c₁ : Code} (h : Emit.resolvePending c = .ok () c₁) :
    c.landings = c₁.leads c.pending := by
  rw [landings, h]

theorem Code.landings_of_nil {c : Code} (h : c.pending = []) : c.landings = [] := by
  unfold landings
  rw [h]
  split <;> rfl

namespace Emit

/-- A branch at the end of what is written is behind all code before. -/
theorem link_written {c₁ c' : Code} {bs : Array UInt8} {e : Effect} {p n : ℕ}
    (hc' : c' = (c₁.markLine.written bs).applyEffect e) (hp : p = c'.pc - n) (hn : n ≤ bs.size) :
    ∃ alive frame maxStack,
      c' = { c₁.markLine with bytes := c₁.bytes ++ bs, alive, frame, maxStack } ∧
      c₁.pc ≤ p ∧ p + n = c₁.pc + bs.size := by
  obtain ⟨alive, frame, maxStack, heq⟩ := c₁.applyEffect_marked bs e
  have hpc : c'.pc = c₁.pc + bs.size := by
    rw [hc', heq]
    exact Array.size_append
  exact ⟨alive, frame, maxStack, hc'.trans heq, by omega, by omega⟩

/-- Writing a branch, in code that can be reached. -/
theorem jump_writes {op : Opcode} {c c' : Code} {p : ℕ}
    (hop : c.wide = true → op.isConditional = true ∨ op = .goto ∨ op = .jsr)
    (hreach : c.reachable = true) (h : jump op c = .ok p c') :
    ∃ c₁ bs alive frame maxStack, resolvePending c = .ok () c₁ ∧
      c' = { c₁.markLine with bytes := c₁.bytes ++ bs, alive, frame, maxStack } ∧ c₁.pc ≤ p ∧
      p + branchSize c.wide = c₁.pc + bs.size ∧
        (c.wide = false → ∃ op, bs = #[op] ++ wordBytes 0) := by
  cases hwide : c.wide with
  | false =>
      obtain ⟨_, _, hget, h⟩ := EStateM.bind_eq_ok.mp h
      cases hget
      rw [hwide, if_neg Bool.false_ne_true] at h
      obtain ⟨c₁, hflush, hwritten⟩ := (writes_short op 0).extends.back h
      obtain ⟨hc', hp⟩ := hwritten (alive_resolvePending hreach hflush)
      obtain ⟨alive, frame, maxStack, heq, hle, hend⟩ := link_written hc' hp (Nat.le_refl 3)
      exact ⟨c₁, _, alive, frame, maxStack, hflush, heq, hle, hend, fun _ => ⟨op, rfl⟩⟩
  | true =>
      have hsize : 5 ≤ (jumpBytes true op).size := by
        unfold jumpBytes
        rw [if_pos rfl]
        split
        · exact (show 5 ≤ 8 by decide)
        · exact Nat.le_refl 5
      obtain ⟨c₁, hflush, hwritten⟩ := jump_ok (hop hwide) h
      obtain ⟨hc', hp⟩ := hwritten (alive_resolvePending hreach hflush)
      rw [hwide] at hc' hp
      obtain ⟨alive, frame, maxStack, heq, hle, hend⟩ := link_written hc' hp hsize
      exact ⟨c₁, _, alive, frame, maxStack, hflush, heq, hle, hend, nofun⟩

end Emit

namespace Session

variable {Allowed : Code → Chain → ℕ → Prop} {s s' : Session} {c : Code} {chain : Chain}
  {before after : List Chain} {op : Opcode} {pc target : ℕ}

theorem turn_write {x : Emit Unit} {enc : Array UInt8} {e : Effect} {P : Prop}
    (hwrites : Emit.Writes x enc e P) (henc : 0 < enc.size) (hrun : x s.code = .ok () c) :
    Turn Allowed s.code s.unsettled s.seen c (c.pending ++ s.chains.flatten)
      (s.code.landings ++ s.seen) := by
  obtain ⟨c₁, hflush, hcase⟩ := hwrites _ _ hrun
  rcases hcase with ⟨hdead, hc⟩ | ⟨-, -, -, hc⟩
  · -- no branch waits where control does not come
    have hnil : s.code.pending = [] := by
      by_contra hne
      rw [Emit.alive_resolvePending (by simp [Code.reachable, hne]) hflush] at hdead
      cases hdead
    obtain rfl := hc.trans (Emit.resolvePending_nil hnil hflush)
    rw [Code.landings_of_nil hnil]
    exact .rest _ _ _ (.refl _)
  · obtain ⟨alive, frame, maxStack, heq⟩ := c₁.applyEffect_marked enc e
    have hpending : c.pending = [] := by
      rw [hc, heq]
      exact c₁.pending_markLine.trans (Emit.pending_resolvePending hflush).1
    rw [Code.landings_eq hflush, hpending, List.nil_append, hc, heq]
    exact .write _ _ _ _ rfl hflush henc

theorem turn_curPc (alive : Bool) (hrun : Emit.curPc s.code = .ok pc c) :
    Turn Allowed s.code s.unsettled s.seen { c with alive } (c.pending ++ s.chains.flatten)
      ((pc : Int) :: (s.code.landings ++ s.seen)) := by
  obtain ⟨c₁, hflush, hc, rfl⟩ := Emit.curPc_ok hrun
  have hpc : c.pc = c₁.pc := by
    rw [hc]
    exact c₁.pc_markLine
  have hpending : c.pending = [] := by
    rw [hc]
    exact c₁.pending_markLine.trans (Emit.pending_resolvePending hflush).1
  have hopen : c.pending ++ s.chains.flatten = s.chains.flatten := by rw [hpending, List.nil_append]
  rw [Code.landings_eq hflush, hopen, hpc]
  subst hc
  exact .ask alive rfl hflush

theorem turn_branch (hop : s.code.wide = true → op.isConditional = true ∨ op = .goto ∨ op = .jsr)
    (hrun : Emit.branch op s.code = .ok chain c) :
    Turn Allowed s.code s.unsettled s.seen c (c.pending ++ (chain ++ s.chains.flatten))
      ((if op = .goto ∨ op = .never then [] else s.code.landings) ++ s.seen) := by
  obtain ⟨c₀, hc₀⟩ : ∃ c₀, c₀ = if op = .goto then { s.code with pending := [] }
      else s.code := ⟨_, rfl⟩
  obtain ⟨rest, hrest⟩ : ∃ rest, rest = if op = .goto then s.code.pending else [] := ⟨_, rfl⟩
  have hopen : s.unsettled = c₀.pending ++ (rest ++ s.chains.flatten) := by
    rw [hc₀, hrest]
    split <;> rfl
  rcases Emit.branch_ok hc₀ hrest hrun with ⟨hskip, rfl, rfl⟩ | ⟨hnever, hreach, p, c₁,
    hjump, rfl, rfl⟩
  · have hnone : (if op = .goto ∨ op = .never then [] else s.code.landings) = [] := by
      split
      · rfl
      · rename_i hop
        have hdead := hskip.resolve_left fun hnever => hop (.inr hnever)
        rw [hc₀, if_neg fun hgoto => hop (.inl hgoto)] at hdead
        exact Code.landings_of_nil
          (by simpa [Code.reachable] using (Bool.or_eq_false_iff.mp hdead).2)
    rw [hnone, ← hopen, hc₀]
    split
    · exact .rest _ _ _ (.refl _)
    · exact .rest _ _ _ (.refl _)
  · have hstart : c₀ = s.code ∨ c₀ = { s.code with pending := [] } := by
      rw [hc₀]
      split
      · exact .inr rfl
      · exact .inl rfl
    have hwide : c₀.wide = s.code.wide := by
      rcases hstart with h | h <;> rw [h]
    obtain ⟨c₂, bs, alive, frame, maxStack, hflush, rfl, hlink, hend, hbs⟩ :=
      Emit.jump_writes (hwide ▸ hop) hreach hjump
    have hseen : (if op = .goto ∨ op = .never then [] else s.code.landings) =
        c₂.leads c₀.pending := by
      by_cases hgoto : op = .goto
      · rw [if_pos (.inl hgoto), hc₀, if_pos hgoto]
        rfl
      · rw [if_neg (not_or.mpr ⟨hgoto, hnever⟩), hc₀, if_neg hgoto]
        rw [hc₀, if_neg hgoto] at hflush
        exact Code.landings_eq hflush
    have hpending : c₂.markLine.pending ++ (⟨p, frame⟩ :: rest ++ s.chains.flatten) =
        ⟨p, frame⟩ :: (rest ++ s.chains.flatten) := by
      rw [c₂.pending_markLine, (Emit.pending_resolvePending hflush).1]
      rfl
    rw [hseen]
    show Turn _ _ _ _ _ (c₂.markLine.pending ++ (⟨p, frame⟩ :: rest ++ s.chains.flatten)) _
    rw [hpending]
    exact .branch _ _ _ _ hstart hopen hflush hlink (hwide ▸ hend) (hwide ▸ hbs)

/-- Every call comes to a turn. -/
theorem Step.turn (h : Step Allowed s s') :
    Turn Allowed s.code s.unsettled s.seen s'.code s'.unsettled s'.seen := by
  cases h with
  | write hwrites henc hrun => exact turn_write hwrites henc hrun
  | branch hop hrun => exact turn_branch hop hrun
  | resolve htake hrun =>
      obtain ⟨pending, hmerge, rfl⟩ := Emit.resolve_ok hrun
      refine .rest _ _ _ ((unsettled_perm htake).trans ?_)
      rw [← List.append_assoc]
      exact (Chain.merge_perm hmerge).symm.append_right _
  | @resolveTo before after chain target c htake hallowed hrun =>
      cases chain with
      | nil =>
          obtain ⟨-, rfl⟩ := EStateM.Result.ok.inj hrun
          exact .rest _ _ _ (unsettled_perm htake)
      | cons l rest =>
          have hperm := unsettled_perm htake
          rw [← Emit.pending_resolveTo hrun] at hperm
          exact .settle hperm (List.cons_ne_nil _ _) hallowed hrun
  | @curPc pc c hrun =>
      exact turn_curPc c.alive hrun
  | entry hrun =>
      obtain ⟨pc', c₁, hcur, hrun⟩ := EStateM.bind_eq_ok.mp hrun
      obtain ⟨rfl, rfl⟩ := EStateM.Result.ok.inj hrun
      exact turn_curPc true hcur
  | beginLine line =>
      unfold Code.beginLine
      split
      · exact .rest _ _ _ (.refl _)
      · exact .rest _ _ _ (.refl _)
  | setLine line => exact .rest _ _ _ (.refl _)
  | markLine =>
      have hopen : unsettled { s with code := s.code.markLine } = s.unsettled :=
        congrArg (· ++ s.chains.flatten) s.code.pending_markLine
      rw [hopen]
      exact .mark
  | kill => exact .rest _ _ _ (.refl _)

end Session

namespace Code

variable {Allowed : Code → Chain → ℕ → Prop} {c c' : Code} {O O' : List Link} {Q Q' : List Int}

theorem Tidy.turn (h : c.Tidy O)
    (hallowed : ∀ c chain target, Allowed c chain target → target ≤ c.pc)
    (hturn : Turn Allowed c O Q c' O' Q') : c'.Tidy O' := by
  cases hturn with
  | rest pending line alive hopen =>
      exact (h.perm hopen).of_eq rfl rfl id
  | mark =>
      exact h.of_eq c.bytes_markLine c.wide_markLine fun hfixed => c.fixed_markLine.trans hfixed
  | settle hopen hne hto hrun => exact (h.perm hopen).settled hne (hallowed _ _ _ hto) hrun
  | @write c₁ _ bs _ _ _ hopen hflush hbs =>
      subst hopen
      exact (h.flushed hflush).1.written rfl c₁.wide_markLine fun hfixed =>
        c₁.fixed_markLine.trans hfixed
  | @ask c₁ _ alive hopen hflush =>
      subst hopen
      exact (h.flushed hflush).1.of_eq c₁.bytes_markLine c₁.wide_markLine fun _ => rfl
  | @branch c₀ c₁ H _ bs _ _ _ hstart hopen hflush hlink hend hbs =>
      subst hopen
      have h₀ : c₀.Tidy (c₀.pending ++ H) ∧ c₀.wide = c.wide := by
        rcases hstart with rfl | rfl
        · exact ⟨h, rfl⟩
        · exact ⟨h.of_eq rfl rfl id, rfl⟩
      obtain ⟨hflushed, hwide, -⟩ := h₀.1.flushed hflush
      refine hflushed.branched hlink ?_ c₁.wide_markLine fun hw => c₁.wide_markLine.trans hw
      rw [hwide, h₀.2, hend]
      exact Array.size_append.symm

end Code

end StackCode
