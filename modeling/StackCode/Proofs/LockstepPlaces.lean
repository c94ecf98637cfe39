import StackCode.Generate.Statement
import StackCode.Proofs.LockstepSteps

/-!
# Positions, registers and lines in lockstep

Besides instructions, the generator asks for positions, takes registers and gives them back,
and keeps tables. Branches that wait for the next instruction wait in both codes. A position
that is asked for differs in the two codes, and so does what is entered into the tables; but
a branch back to it is settled alike, since dead code always has an instruction behind the
last position that was made a target.
-/

namespace StackCode

/-- A segment of the wide code takes bytes. -/
theorem startAt_lt_extent {segs : List Seg} {k : ℕ} (h : k < segs.length) :
    startAt true segs k < extent true segs := by
  have hs := List.getElem?_eq_getElem h
  have hle := end_le_extent true hs
  have hpos := Seg.size_pos true (startAt true segs k) (s := segs[k]) (.inl rfl)
  omega

/-- Two buffers differ at most in the tables and in the line at hand. -/
def Code.Aside (c c' : Code) : Prop := ∃ line lines vars catches rows,
  c' = { c with pendingLine := line, lines, vars, catches, ranges := rows } ∧
    rows.isNone = c.ranges.isNone

namespace Code

theorem Aside.trans {c c' c'' : Code} (h : c.Aside c') (h' : c'.Aside c'') : c.Aside c'' := by
  obtain ⟨_, _, _, _, _, rfl, hrows⟩ := h
  obtain ⟨_, _, _, _, _, rfl, hrows'⟩ := h'
  exact ⟨_, _, _, _, _, rfl, hrows'.trans hrows⟩

theorem aside_beginLine (c : Code) (line : ℕ) : c.Aside (c.beginLine line) := by
  unfold beginLine
  split <;> exact ⟨_, _, _, _, _, rfl, rfl⟩

theorem aside_markLine (c : Code) : c.Aside c.markLine := by
  obtain ⟨line, lines, hmark, -⟩ := c.markLine_eq
  exact ⟨line, lines, _, _, _, hmark, rfl⟩

theorem aside_addRange (c : Code) (row : RangeRow) : c.Aside (c.addRange row) := by
  unfold addRange
  split
  · exact ⟨_, _, _, _, _, rfl, by cases c.ranges <;> rfl⟩
  · exact ⟨_, _, _, _, _, rfl, rfl⟩

end Code

namespace Emit

open Code

variable {g : Ghost} {m O : Multiset ℕ} {limited : Bool} {c d c' d' : Code}

/-! ### Waiting for the next instruction -/

theorem resolve_runs {chain chain' : Chain} (hch : Chains g.segs chain chain' m) :
    Runs limited g m (resolve chain) (resolve chain')
      (Plain fun g' _ _ => g'.live = (g.live || !chain.isEmpty)) := by
  refine .of_code fun O c d waiting h hlive hpend howned _ c' _ d' hc hd => ?_
  obtain ⟨pending, hmerge, rfl⟩ := resolve_ok hc
  obtain ⟨pending', hmerge', rfl⟩ := resolve_ok hd
  have hempty : pending.isEmpty = (chain.isEmpty && c.pending.isEmpty) := by
    rw [(Chain.merge_perm hmerge).isEmpty_eq]
    cases chain <;> rfl
  refine ⟨{ g with live := g.live || !chain.isEmpty }, m + waiting, 0, { h with }, ?_,
    hch.merge hpend hmerge hmerge', howned.cast (by rw [zero_add]; ac_rfl),
    .of_segs rfl (Nat.le_refl _) id, rfl, rfl⟩
  show (c.alive || !pending.isEmpty) = (g.live || !chain.isEmpty)
  rw [hempty, ← hlive, Code.reachable]
  cases c.alive <;> cases chain.isEmpty <;> cases c.pending.isEmpty <;> rfl

/-! ### Positions -/

theorem curPc_ok {p : ℕ} (h : curPc c = .ok p c') : ∃ c₁, resolvePending c = .ok () c₁ ∧
    c' = { c₁.markLine with fixed := true } ∧ p = c'.pc := by
  obtain ⟨⟨⟩, c₁, hpend, h⟩ := EStateM.bind_eq_ok.mp h
  cases h
  exact ⟨c₁, hpend, rfl, rfl⟩

/-- A position is asked for in both codes. -/
theorem curPc_line {p : ℕ} (h : curPc c = .ok p c') : c'.pendingLine = none := by
  obtain ⟨c₁, -, rfl, -⟩ := curPc_ok h
  exact c₁.pendingLine_markLine

theorem curPc_tied {waiting : Multiset ℕ} {p p' : ℕ} (h : c.Tied g d) (hlive : c.reachable = g.live)
    (hch : Chains g.segs c.pending d.pending waiting) (howned : Owned g.segs.length (waiting + O))
    (hc : curPc c = .ok p c') (hd : curPc d = .ok p' d') :
    ∃ segs, Abreast { g with segs, firm := true } c' d' ∧
      Grown O g { g with segs, firm := true } ∧ segs.length = g.segs.length ∧ c'.alive = g.live ∧
      c'.frame.depth ≤ c'.maxStack ∧ (c'.pending = [] ∧ d'.pending = []) ∧ c'.fixed = true ∧
      p = extent false segs ∧ p' = extent true segs := by
  obtain ⟨c₁, hpend, rfl, rfl⟩ := curPc_ok hc
  obtain ⟨d₁, hpend', rfl, rfl⟩ := curPc_ok hd
  obtain ⟨segs, harr⟩ := resolvePending_tied h hlive hch howned hpend hpend'
  have heven := harr.toEven.markLine
  obtain ⟨line, lines, hmark, -⟩ := c₁.markLine_eq
  obtain ⟨line', lines', hmark', -⟩ := d₁.markLine_eq
  rw [hmark, hmark'] at heven ⊢
  refine ⟨segs, ?_, ?_, harr.length, harr.here, harr.depth, ⟨harr.pending, harr.pending'⟩, rfl,
    harr.near.size, harr.far.size⟩
  · exact {
      heven with
      near := harr.near
      far := harr.far
      sound := harr.sound
      narrow := harr.narrow
      wide := harr.wide
      firm := fun _ => rfl
      base := harr.base
      dry := harr.dry }
  · exact harr.grown.trans (.of_segs rfl (Nat.le_refl _) fun _ => rfl)

theorem curPc_runs : Runs limited g 0 curPc curPc (Plain fun g' a b => g'.live = g.live ∧
    g'.firm = true ∧ a = extent false g'.segs ∧ b = extent true g'.segs) := by
  refine .of_code fun O c d waiting h hlive hch howned p c' p' d' hc hd => ?_
  rw [zero_add] at howned
  obtain ⟨segs, habreast, hgrown, hlen, halive, hdepth, ⟨hpend, hpend'⟩, hfixed, hp, hp'⟩ :=
    curPc_tied h hlive hch howned hc hd
  refine ⟨_, 0, 0, { habreast with depth := hdepth, loose := ?_ }, ?_, ?_, ?_, hgrown,
    rfl, rfl, rfl,
    hp, hp'⟩
  · intro hloose
    rw [hfixed] at hloose
    cases hloose
  · simp [Code.reachable, halive, hpend]
  · rw [hpend, hpend']
    exact .nil
  · rw [zero_add, zero_add, hlen]
    exact howned.mono (Multiset.le_add_left _ _) (Nat.le_refl _)

/-- A position becomes a branch target, in states that are level. -/
theorem target_runs {f f' : Code → Code} {x y : Emit ℕ}
    (hx : ∀ c p c', x c = .ok p c' → ∃ c₁, curPc c = .ok p c₁ ∧ c' = f c₁)
    (hy : ∀ d p d', y d = .ok p d' → ∃ d₁, curPc d = .ok p d₁ ∧ d' = f' d₁)
    (hf : ∀ c, f c = { c with alive := true, frame := (f c).frame, maxStack := (f c).maxStack } ∧
      (c.frame.depth ≤ c.maxStack → (f c).frame.depth ≤ (f c).maxStack))
    (hf' : ∀ d, f' d = { d with alive := true, frame := (f' d).frame, maxStack := (f' d).maxStack })
    (heven : ∀ c d : Code, c.Even d → (f c).frame.Level (f' d).frame ∧
      (f c).maxStack = (f' d).maxStack) :
    Runs limited g 0 x y (Plain fun g' a b => g'.Entered a b) := by
  refine .of_code fun O c d waiting h hlive hch howned p c' p' d' hc hd => ?_
  rw [zero_add] at howned
  obtain ⟨c₁, hcur, rfl⟩ := hx c p c' hc
  obtain ⟨d₁, hcur', rfl⟩ := hy d p' d' hd
  obtain ⟨segs, habreast, hgrown, hlen, halive, hdepth, ⟨hpend, hpend'⟩, hfixed, hp, hp'⟩ :=
    curPc_tied h hlive hch howned hcur hcur'
  obtain ⟨hframe, hmax⟩ := heven c₁ d₁ habreast.toEven
  obtain ⟨hfc, hfdepth⟩ := hf c₁
  have hfd := hf' d₁
  have hdepth := hfdepth hdepth
  rw [hfc] at hframe hmax hdepth ⊢
  rw [hfd] at hframe hmax ⊢
  refine ⟨{ g with segs, base := segs.length, live := true, firm := true }, 0, 0, ?_,
    ?_, ?_, ?_, ?_,
    rfl, rfl, rfl, ⟨segs.length, Nat.le_refl _, ?_, ?_⟩, hp, hp'⟩
  · exact {
      habreast with
      alive := rfl
      frame := hframe
      maxStack := hmax
      base := Nat.le_refl _
      dry := fun hdead => by cases hdead
      depth := hdepth
      loose := fun hloose => by
        rw [show c₁.fixed = true from hfixed] at hloose
        cases hloose }
  · simp [Code.reachable]
  · show Chains _ c₁.pending d₁.pending _
    rw [hpend, hpend']
    exact .nil
  · rw [zero_add, zero_add, hlen]
    exact howned.mono (Multiset.le_add_left _ _) (Nat.le_refl _)
  · exact hgrown.trans (.of_segs rfl (hlen ▸ h.base) id)
  · rw [startAt_length]
    exact hp
  · rw [startAt_length]
    exact hp'

theorem entry_runs : Runs limited g 0 entry entry
    (Plain fun g' a b => g'.Entered a b) := by
  have hrun (c : Code) (p : ℕ) (c' : Code) (h : entry c = .ok p c') :
      ∃ c₁, curPc c = .ok p c₁ ∧ c' = { c₁ with alive := true } := by
    obtain ⟨_, c₁, hcur, h⟩ := EStateM.bind_eq_ok.mp h
    cases h
    exact ⟨c₁, hcur, rfl⟩
  exact target_runs hrun hrun (fun _ => ⟨rfl, id⟩) (fun _ => rfl) fun _ _ h => ⟨h.frame, h.maxStack⟩

theorem entryWith_ok {frame : Frame} {p : ℕ} (h : entryWith frame c = .ok p c') :
    ∃ c₁, curPc c = .ok p c₁ ∧ c' = noteDepth { c₁ with alive := true, frame } := by
  obtain ⟨_, c₁, hcur, h⟩ := EStateM.bind_eq_ok.mp h
  cases h
  exact ⟨c₁, hcur, rfl⟩

theorem entryWith_runs {frame frame' : Frame} (hframe : frame.Level frame') :
    Runs limited g 0 (entryWith frame) (entryWith frame')
      (Plain fun g' a b => g'.Entered a b) := by
  refine target_runs (fun _ _ _ => entryWith_ok) (fun _ _ _ => entryWith_ok)
    (fun _ => ⟨rfl, fun _ => Nat.le_max_right _ _⟩) (fun _ => rfl) fun c d h => ⟨hframe, ?_⟩
  show max c.maxStack frame.depth = max d.maxStack frame'.depth
  rw [h.maxStack, hframe.depth]

theorem entryPushed_ok {frame : Frame} {k : Kind} {p : ℕ} (h : entryPushed frame k c = .ok p c') :
    ∃ c₁, curPc c = .ok p c₁ ∧ c' = noteDepth { noteDepth { c₁ with alive := true, frame } with
      frame := frame.push k } := by
  obtain ⟨_, c₁, hentry, h⟩ := EStateM.bind_eq_ok.mp h
  cases h
  obtain ⟨c₂, hcur, rfl⟩ := entryWith_ok hentry
  exact ⟨c₂, hcur, rfl⟩

theorem entryPushed_runs {frame frame' : Frame} (k : Kind) (hframe : frame.Level frame') :
    Runs limited g 0 (entryPushed frame k) (entryPushed frame' k)
      (Plain fun g' a b => g'.Entered a b) := by
  refine target_runs (fun _ _ _ => entryPushed_ok) (fun _ _ _ => entryPushed_ok)
    (fun _ => ⟨rfl, fun _ => Nat.le_max_right _ _⟩) (fun _ => rfl) fun c d h => ⟨hframe.push k, ?_⟩
  show max (max c.maxStack frame.depth) (frame.push k).depth =
    max (max d.maxStack frame'.depth) (frame'.push k).depth
  rw [h.maxStack, hframe.depth, (hframe.push k).depth]

/-- Branches back to a position that was made a target. -/
theorem resolveTo_runs {chain chain' : Chain} {p p' : ℕ} (hch : Chains g.segs chain chain' m)
    (hat : g.At p p') : Runs limited g m (resolveTo chain p) (resolveTo chain' p')
      (Plain fun g' _ _ => g'.live = g.live) := by
  refine .of_code fun O c d waiting h hlive hpend howned _ c' _ d' hc hd => ?_
  obtain ⟨k, hk, rfl, rfl⟩ := hat
  have hback : c.alive = true ∨ ¬ c.pc ≤ startAt false g.segs k ∧
      ¬ d.pc ≤ startAt true g.segs k := by
    cases halive : c.alive with
    | true => exact .inl rfl
    | false =>
        have hdry := h.dry halive
        have hlt : g.base < g.segs.length := by
          by_contra hge
          have heq : g.base = g.segs.length := Nat.le_antisymm h.base (Nat.le_of_not_lt hge)
          rw [heq, startAt_length] at hdry
          exact Nat.lt_irrefl _ hdry
        have hnear : startAt false g.segs k ≤ startAt false g.segs g.base := startAt_mono hk
        have hfar : startAt true g.segs k ≤ startAt true g.segs g.base := startAt_mono hk
        have hend := startAt_lt_extent hlt
        have hsize : c.pc = extent false g.segs := h.near.size
        have hsize' : d.pc = extent true g.segs := h.far.size
        exact .inr ⟨by omega, by omega⟩
  have howned₁ : Owned g.segs.length (m + (waiting + O)) := howned.cast (by ac_rfl)
  obtain ⟨segs, hlen, hgrown, habreast, halive, hdepth, hsame, hsame', hloose⟩ :=
    resolveTo_tied h hch howned₁ (hback.imp_right fun hn => iff_of_false hn.1 hn.2) hc hd
  have hkept : c'.alive = c.alive := by
    rw [halive]
    rcases hback with hback | hback
    · rw [hback, Bool.true_or]
    · rw [decide_eq_false hback.1, Bool.and_false, Bool.or_false]
  refine ⟨{ g with segs }, waiting, 0,
    { habreast with depth := hdepth, loose := hloose ?_ }, ?_, ?_, ?_,
    hgrown.mono (Multiset.le_add_left _ _), rfl, rfl⟩
  · rw [hkept]
    cases c.alive <;> simp
  · rw [Code.reachable, hkept, hsame]
    exact hlive
  · rw [hsame, hsame']
    exact hpend.grown hgrown (Multiset.le_add_right _ _)
  · rw [zero_add, hlen]
    exact howned₁.mono (Multiset.le_add_left _ _) (Nat.le_refl _)

/-! ### Registers -/

/-- A change that leaves the branches alone. -/
theorem change_runs {f f' : Code → Code} (h : ∀ c d, c.Tied g d → (f c).Tied g (f' d))
    (hf : ∀ c, (f c).alive = c.alive ∧ (f c).pending = c.pending)
    (hf' : ∀ d, (f' d).pending = d.pending) :
    Runs limited g 0 (modify f : Emit Unit) (modify f') (Plain fun g' _ _ => g' = g) := by
  refine .of_code fun O c d waiting hcd hlive hch howned _ c' _ d' hc hd => ?_
  cases hc
  cases hd
  refine ⟨g, waiting, 0, h c d hcd, ?_, ?_, howned, .refl _ _, rfl, rfl⟩
  · show ((f c).alive || !(f c).pending.isEmpty) = g.live
    rw [(hf c).1, (hf c).2]
    exact hlive
  · show Chains _ (f c).pending (f' d).pending _
    rw [(hf c).2, hf' d]
    exact hch

theorem straight_change {f : Code → Code} (h : ∀ g c d, c.Tied g d → (f c).Tied g (f d))
    (hf : ∀ c, (f c).alive = c.alive ∧ (f c).pending = c.pending) :
    Straight (modify f : Emit Unit) := by
  refine fun g => (change_runs (h g) hf fun d => (hf d).2).mono ?_
  rintro g' _ _ _ ⟨rfl, rfl⟩
  exact ⟨rfl, rfl, id⟩

theorem straight_newReg (k : Kind) : Straight (newReg k) := by
  intro g
  refine .of_code fun O c d waiting h hlive hch howned _ c' _ d' hc hd => ?_
  cases hc
  cases hd
  refine ⟨g, waiting, 0, ?_, hlive, hch, howned, .refl _ _, rfl, ?_, id⟩
  · exact { h with
      nextReg := congrArg (· + max k.width 1) h.nextReg
      maxLocals := by
        show max c.maxLocals (c.nextReg + _) = max d.maxLocals (d.nextReg + _)
        rw [h.maxLocals, h.nextReg] }
  · exact congrArg UInt16.ofNat h.nextReg

/-- Steps that only enter something into the tables, not the same in the two codes. -/
theorem aside_runs {x y : Emit Unit} (hx : ∀ c c', x c = .ok () c' → c.Aside c')
    (hy : ∀ d d', y d = .ok () d' → d.Aside d') :
    Runs limited g 0 x y (Plain fun g' _ _ => g' = g) := by
  refine .of_code fun O c d waiting h hlive hch howned _ c' _ d' hc hd => ?_
  obtain ⟨_, _, _, _, _, rfl, hrows⟩ := hx c c' hc
  obtain ⟨_, _, _, _, _, rfl, hrows'⟩ := hy d d' hd
  exact ⟨g, waiting, 0, { h with ranges := hrows.trans (h.ranges.trans hrows'.symm) }, hlive,
    hch, howned,
    .refl _ _, rfl, rfl⟩

theorem straight_aside {f : Code → Code} (hf : ∀ c : Code, c.Aside (f c)) :
    Straight (modify f : Emit Unit) := by
  have hrun (c c' : Code) (h : (modify f : Emit Unit) c = .ok () c') : c.Aside c' := by
    cases h
    exact hf c
  refine fun g => (aside_runs hrun hrun).mono ?_
  rintro g' _ _ _ ⟨rfl, rfl⟩
  exact ⟨rfl, rfl, id⟩

/-- What a slot is does not depend on when its variable got a value. -/
theorem slots_size {slots slots' : Array (Option VarSlot)}
    (h : slots.map slotShape = slots'.map slotShape) : slots.size = slots'.size := by
  simpa using congrArg Array.size h

theorem slots_get {slots slots' : Array (Option VarSlot)}
    (h : slots.map slotShape = slots'.map slotShape) (i : ℕ) :
    slots[i]?.map slotShape = slots'[i]?.map slotShape := by
  rw [← Array.getElem?_map, ← Array.getElem?_map, h]

theorem newVar_slots {slots slots' : Array (Option VarSlot)}
    (h : slots.map slotShape = slots'.map slotShape) (i : ℕ) (slot : VarSlot) :
    ((growSlots slots (i + 1)).setIfInBounds i (some slot)).map slotShape =
      ((growSlots slots' (i + 1)).setIfInBounds i (some slot)).map slotShape := by
  rw [Array.map_setIfInBounds, Array.map_setIfInBounds, growSlots, growSlots, Array.map_append,
    Array.map_append, h, slots_size h]

theorem straight_newVar (name : String) (ty : Ty) : Straight (newVar name ty) := by
  intro g
  refine .of_code fun O c d waiting h hlive hch howned a c' b d' hc hd => ?_
  have hnew (c : Code) : c.newVar name ty = ((c.newReg ty.kind).1, { (c.newReg ty.kind).2 with
      slots := if c.keepVars then
        (growSlots c.slots ((c.newReg ty.kind).1.toNat + 1)).setIfInBounds
        (c.newReg ty.kind).1.toNat
          (some ⟨name, ty.descriptor, none⟩) else c.slots }) := by
    unfold Code.newVar
    cases hkeep : c.keepVars <;> simp [Code.newReg, hkeep]
  have hreg : (c.newReg ty.kind).1 = (d.newReg ty.kind).1 := congrArg UInt16.ofNat h.nextReg
  have hc : EStateM.Result.ok (c.newVar name ty).1 (c.newVar name ty).2 = .ok a c' := hc
  have hd : EStateM.Result.ok (d.newVar name ty).1 (d.newVar name ty).2 = .ok b d' := hd
  rw [hnew] at hc hd
  cases hc
  cases hd
  refine ⟨g, waiting, 0, ?_, hlive, hch, howned, .refl _ _, rfl, hreg, id⟩
  exact { h with
    nextReg := congrArg (· + max ty.kind.width 1) h.nextReg
    maxLocals := by
      show max c.maxLocals (c.nextReg + _) = max d.maxLocals (d.nextReg + _)
      rw [h.maxLocals, h.nextReg]
    slots := by
      show Array.map slotShape (if c.keepVars = true then _ else _) =
        Array.map slotShape (if d.keepVars = true then _ else _)
      rw [← h.keepVars, ← hreg]
      split
      · exact newVar_slots h.slots _ _
      · exact h.slots }

theorem define_slots {slots slots' : Array (Option VarSlot)}
    (h : slots.map slotShape = slots'.map slotShape) (i pc pc' : ℕ) :
    (slots.modify i (·.map fun s => { s with start := some (s.start.getD pc) })).map slotShape =
      (slots'.modify i (·.map fun s => { s with start := some (s.start.getD pc') })).map
        slotShape := by
  refine Array.ext_getElem? fun j => ?_
  have hj := slots_get h j
  rw [Array.getElem?_map, Array.getElem?_map, Array.getElem?_modify, Array.getElem?_modify]
  split
  · rename_i hij
    cases hs : slots[j]? <;> cases hs' : slots'[j]? <;> rw [hs, hs'] at hj <;> simp at hj ⊢
    rename_i a b
    cases a <;> cases b <;> simp [slotShape] at hj ⊢
    exact ⟨hj.1, hj.2.1⟩
  · exact hj

theorem straight_define (reg : UInt16) : Straight (modify (·.define reg) : Emit Unit) :=
  straight_change (fun _ _ _ h => { h with slots := define_slots h.slots _ _ _ })
    fun _ => ⟨rfl, rfl⟩

/-- A slot is emptied in both codes. -/
theorem takeSlot_runs (reg : ℕ) : Runs limited g 0 (modifyGet (·.takeSlot reg) : Emit _)
    (modifyGet (·.takeSlot reg)) (Plain fun g' a b => g' = g ∧ slotShape a = slotShape b) := by
  refine .of_code fun O c d waiting h hlive hch howned a c' b d' hc hd => ?_
  have hc : EStateM.Result.ok (c.takeSlot reg).1 (c.takeSlot reg).2 = .ok a c' := hc
  have hd : EStateM.Result.ok (d.takeSlot reg).1 (d.takeSlot reg).2 = .ok b d' := hd
  have hreg := slots_get h.slots reg
  unfold Code.takeSlot at hc hd
  rcases hs : c.slots[reg]? with _ | _ | slot <;> rcases hs' : d.slots[reg]? with _ | _ | slot' <;>
    rw [hs, hs'] at hreg <;> rw [hs] at hc <;> rw [hs'] at hd <;> cases hc <;> cases hd <;>
    simp [slotShape] at hreg
  · exact ⟨g, waiting, 0, h, hlive, hch, howned, .refl _ _, rfl, rfl, rfl⟩
  · exact ⟨g, waiting, 0, h, hlive, hch, howned, .refl _ _, rfl, rfl, rfl⟩
  · refine ⟨g, waiting, 0, ?_, hlive, hch, howned, .refl _ _, rfl,
      rfl, by simpa [slotShape] using hreg⟩
    have hslots : (c.slots.setIfInBounds reg none).map slotShape =
        (d.slots.setIfInBounds reg none).map slotShape := by
      rw [Array.map_setIfInBounds, Array.map_setIfInBounds, h.slots]
    exact { h with slots := hslots }

theorem straight_endVar (reg : ℕ) : Straight (endVar reg) := by
  have hrow {row : VarRow} {c c' : Code} {P : Prop} [Decidable P]
      (h : (if P then modify fun c => { c with vars := c.vars.push row }
        else pure () : Emit Unit) c =
        .ok () c') : c.Aside c' := by
    split at h <;> cases h <;> exact ⟨_, _, _, _, _, rfl, rfl⟩
  intro g
  refine (takeSlot_runs reg).step fun g' a b _ hab => ?_
  obtain ⟨rfl, hshape⟩ := hab
  rcases a with _ | ⟨name, descriptor, _ | start⟩ <;> rcases b with _ | ⟨name', descriptor',
    _ | start'⟩ <;>
    simp [slotShape] at hshape
  · exact .pure ⟨rfl, rfl, id⟩
  · exact .pure ⟨rfl, rfl, id⟩
  · refine curPc_runs.step fun g' p p' _ hpc => ?_
    refine (aside_runs (fun _ _ => hrow) fun _ _ => hrow).mono ?_
    rintro g'' _ _ _ ⟨rfl, rfl⟩
    exact ⟨rfl, rfl, hpc.1.trans⟩

theorem straight_endVars (reg n : ℕ) : Straight (endVars reg n) := by
  induction n generalizing reg with
  | zero => exact .pure
  | succ n ih => exact (straight_endVar reg).bind fun _ => ih (reg + 1)

theorem straight_endScopes (first : ℕ) : Straight (endScopes first) := by
  intro g
  refine .get_bind fun F s t hst => ?_
  have hlast : min (Part.get s : Code).nextReg (Part.get s : Code).slots.size =
      min (Part.get t : Code).nextReg (Part.get t : Code).slots.size :=
    congrArg₂ min hst.code.nextReg (slots_size hst.code.slots)
  have hset : Straight (modify fun c => { c with nextReg := first } : Emit Unit) :=
    straight_change (fun _ _ _ h => { h with nextReg := rfl }) fun _ => ⟨rfl, rfl⟩
  simp only [hlast]
  exact (hset.bind fun _ => straight_endVars first _) g

/-! ### Lines -/

theorem straight_beginLine (line : ℕ) : Straight (modify (·.beginLine line) : Emit Unit) :=
  straight_aside fun c => c.aside_beginLine line

end Emit

/-! ### Steps on a method -/

namespace Runs

variable {α β : Type} {limited : Bool} {g : Ghost} {m : Multiset ℕ} {h h' : α → Gen β}
  {Q : Ghost → Multiset ℕ → β → β → Prop}

/-- A look at the codes. -/
theorem peek_bind {f f₁ : Code → α} (hf : ∀ F s t, Tied g (m + F) s t →
      Runs limited g m (h (f s.asm.code)) (h' (f₁ t.asm.code)) Q) :
    Runs limited g m (Gen.peek f >>= h) (Gen.peek f₁ >>= h') Q := by
  intro F s t hst b p b' q hx hy hlim
  obtain ⟨a, p₁, hget, hxa⟩ := EStateM.bind_eq_ok.mp hx
  obtain ⟨a', q₁, hget', hya⟩ := EStateM.bind_eq_ok.mp hy
  cases hget
  cases hget'
  exact hf F s t hst F s t hst b p b' q hxa hya hlim

/-- A look at what is the same in both codes. -/
theorem peek_even {f : Code → α} (hsame : ∀ c d : Code, c.Even d → f c = f d)
    (hf : ∀ a, Runs limited g m (h a) (h' a) Q) :
    Runs limited g m (Gen.peek f >>= h) (Gen.peek f >>= h') Q :=
  peek_bind fun F s t hst => by
    rw [hsame _ _ hst.code.toEven]
    exact hf _

theorem reachable_bind {h h' : Bool → Gen β} (hf : Runs limited g m (h g.live) (h' g.live) Q) :
    Runs limited g m (Gen.peek (·.reachable) >>= h) (Gen.peek (·.reachable) >>= h') Q := by
  refine peek_bind fun F s t hst => ?_
  obtain ⟨waiting, held, hwaiting, -⟩ := hst.links
  have hsame : t.asm.code.reachable = g.live := by
    rw [← hst.live, Code.reachable, Code.reachable, hst.code.alive, hwaiting.isEmpty_eq]
  rw [hst.live, hsame]
  exact hf

/-- A look at a scope. -/
theorem peekScope_bind {f : Scope → α} (id : ScopeId)
    (hsame : ∀ segs a b n, Scope.Tied segs a b n → f a = f b)
    (hf : ∀ a, Runs limited g m (h a) (h' a) Q) :
    Runs limited g m (Gen.peekScope id f >>= h) (Gen.peekScope id f >>= h') Q := by
  intro F s t hst b p b' q hx hy hlim
  obtain ⟨a, p₁, hget, hxa⟩ := EStateM.bind_eq_ok.mp hx
  obtain ⟨a', q₁, hget', hya⟩ := EStateM.bind_eq_ok.mp hy
  cases hget
  cases hget'
  obtain ⟨waiting, held, -, hheld, -⟩ := hst.links
  obtain ⟨own, hown, -⟩ := hheld.held
  have hid : f ((Part.get s : MethodState).scopes.get id) = f
      ((Part.get t : MethodState).scopes.get id) :=
    hsame _ _ _ _ (hown id)
  rw [← hid] at hya
  exact hf _ F s t hst b p b' q hxa hya hlim

theorem touch {f f' : Code → Code} {P : Ghost → Unit → Unit → Prop}
    (h : Runs limited g m (modify f : Emit Unit) (modify f') (Plain P)) :
    Runs limited g m (Gen.touch f) (Gen.touch f') (Plain P) := h.inGen

end Runs

namespace Gen

theorem straight_touch {f : Code → Code} (h : Straight (modify f : Emit Unit)) :
    Straight (touch f) :=
  h.inGen

theorem straight_typeIndex (span : Span) (t : Ty) : Straight (typeIndex span t) :=
  (Straight.reporting _).bind fun _ => (Straight.pooled _).asmInGen

theorem straight_registerOf (v : VarId) : Straight (registerOf v) := by
  intro g
  refine .get_bind fun F s t hst => ?_
  have hlocals : (Part.get s : MethodState).locals = (Part.get t : MethodState).locals := hst.locals
  rw [hlocals]
  split
  · exact .pure ⟨rfl, rfl, id⟩
  · exact .throw

theorem straight_declare (v : LocalVar) : Straight (declare v) := by
  refine (Emit.straight_newVar v.name v.ty).inGen.bind fun reg => ?_
  refine .bind (fun g F s t hst a p b q hx hy _ => ?_) fun _ => .pure
  cases hx
  cases hy
  refine ⟨g, 0, ?_, .refl _ _, rfl, rfl, id⟩
  exact { hst with locals := congrArg (·.insert v.id reg) hst.locals }

/-- Registers are given back in both codes. -/
theorem freeing_runs {α : Type} {limited : Bool} {g : Ghost} {m : Multiset ℕ} {x y : Gen α}
    {Q : Ghost → Multiset ℕ → α → α → Prop}
    (hcomp : limited = true → Composed (fun _ => True) true y) (hx : Runs limited g m x y Q)
    (hQ : ∀ g' g'' m a b, Grown m g' g'' → (g'.live = true → g''.live = true) → Q g' m a b →
      Q g'' m a b) :
    Runs limited g m (freeing x) (freeing y) Q := by
  refine .peek_even (fun c d h => h.nextReg) fun first => ?_
  refine .cast (.seq hx (fun hl => ⟨hcomp hl, fun _ => ?_⟩) fun g' m' a b _ hq => ?_)
    (add_zero m).symm
  · exact (Emit.composed_endScopes first).inGen.bind fun _ => .pure
  · rw [add_zero]
    refine (Emit.straight_endScopes first).inGen.step fun g'' _ hg hlive => .pure ?_
    exact hQ _ _ _ _ _ hg hlive hq

theorem addRange_runs {limited : Bool} {g : Ghost} (row row' : RangeRow) :
    Runs limited g 0 (touch (·.addRange row)) (touch (·.addRange row'))
      (Plain fun g' _ _ => g' = g) := by
  refine (Emit.aside_runs (fun c c' h => ?_) fun d d' h => ?_).touch
  · cases h
    exact c.aside_addRange row
  · cases h
    exact d.aside_addRange row'

/-- A step whose code is entered into the character-range table. -/
theorem ranged_runs {α : Type} {limited : Bool} {g : Ghost} {x y : Gen α}
    {Q : Ghost → Multiset ℕ → α → α → Prop} (span : Span) (flags : UInt16)
    (hcomp : limited = true → Composed (fun _ => True) true y)
    (hx : ∀ g', g'.live = g.live → Runs limited g' 0 x y Q)
    (hQ : ∀ g' g'' m a b, Grown m g' g'' → (g'.live = true → g''.live = true) → Q g' m a b →
      Q g'' m a b) :
    Runs limited g 0 (ranged span flags x) (ranged span flags y) Q := by
  refine .peek_even (fun c d h => h.ranges) fun kept => .ite .rfl (fun _ => hx g rfl) fun _ => ?_
  refine Emit.curPc_runs.inGen.step fun g₁ start start' _ ⟨hlive, _⟩ => ?_
  refine .cast (.seq (hx g₁ hlive) (fun hl => ⟨hcomp hl, fun _ => ?_⟩) fun g₂ m a b _ hq => ?_)
    (add_zero 0).symm
  · exact Emit.composed_curPc.inGen.bind fun _ => (composed_touch (Code.changes_addRange _)).bind
      fun _ => .pure
  · rw [add_zero]
    refine Emit.curPc_runs.inGen.step fun g₃ stop stop' hg ⟨hlive, _⟩ => ?_
    refine (addRange_runs _ _).step fun g₄ _ _ _ hsame => .pure ?_
    rw [hsame]
    exact hQ _ _ _ _ _ hg hlive.trans hq

end Gen

end StackCode
