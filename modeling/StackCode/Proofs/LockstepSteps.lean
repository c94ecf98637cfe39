import StackCode.Proofs.Opcodes
import StackCode.Proofs.Lockstep

/-!
# Instructions in lockstep

Every step that writes code keeps a narrow and a wide code laid out as the same segments.
Branches that come together at the end of the code are resolved link by link. Only the narrow
code takes a trailing `goto` back, and only as the first link of a chain in dead code, where
the state of that `goto` is still the current one; so both codes go on in the same state.
-/

namespace StackCode

/-- The bytes `enc` behind `bs` are the segment. -/
def Seg.Encodes (far : Bool) (bs enc : Array UInt8) (s : Seg) : Prop :=
  enc.size = s.size far bs.size ∧ s.StandsAt far (bs ++ enc) bs.size

/-- A plain instruction is its bytes. -/
theorem Seg.encodes_code (far : Bool) (op : Opcode) (wide : Bool) (operands bs : Array UInt8) :
    (Seg.code op wide operands).Encodes far bs (plainBytes op wide operands) :=
  ⟨rfl, fun i hi => by rw [Array.getElem?_append_right (Nat.le_add_right _ _),
    Nat.add_sub_cancel_left]⟩

namespace Code

theorem slots_dropTail (c : Code) (n : Nat) :
    (c.dropTail n).slots.map slotShape = c.slots.map slotShape := by
  unfold dropTail
  dsimp only
  split
  · refine (Array.map_map).trans (congrArg (Array.map · c.slots) (funext fun s => ?_))
    cases s with
    | none => rfl
    | some s => simp [slotShape]
  · rfl

/-- What the target of a link finds once the branch is settled. -/
theorem land_eq (c : Code) (l : Link) (t : Nat) (j : Option Frame) :
    (c.land l t j).1.seen (c.land l t j).2 = { c with
      fixed := true, alive := c.alive || decide (c.pc = t)
      frame := if c.alive = false ∧ c.pc = t then l.frame else j.getD c.frame } ∧
    (c.land l t j).1.alive = (c.alive || decide (c.pc = t)) ∧
    (c.land l t j).1.fixed = true ∧ (c.land l t j).1.pc = c.pc ∧
    (c.land l t j).1.maxStack = c.maxStack := by
  unfold land pc
  dsimp only
  by_cases h : c.bytes.size = t <;> cases ha : c.alive <;> simp [h, seen]

namespace Abreast

variable {g : Ghost} {c d : Code}

/-- A branch that both codes have is settled in both. -/
theorem land {k : ℕ} {l l' : Link} {j j' : Option Frame} {t t' : ℕ}
    (h : Abreast g (c.seen j) (d.seen j')) (hl : LinkPair g.segs k l l')
    (ht : c.alive = true ∨ (c.pc = t ↔ d.pc = t')) :
    Abreast g
      (((c.patch l.pc t).land l t j).1.seen ((c.patch l.pc t).land l t j).2)
      (((d.patch l'.pc t').land l' t' j').1.seen ((d.patch l'.pc t').land l' t' j').2) := by
  obtain ⟨op, frame, hs, ⟨hl, hlevel⟩, hl', hlevel'⟩ := hl
  have hnear := h.near.patch h.narrow hs t
  have hfar := h.far.patch h.wide hs t'
  rw [patch_seen] at hnear hfar
  rw [(land_eq _ _ _ _).1, (land_eq _ _ _ _).1, hl, hl']
  have hpc : (c.patch (linkAt false g.segs k op) t).pc = c.pc := c.size_patch _ _
  have hpc' : (d.patch (linkAt true g.segs k op) t').pc = d.pc := d.size_patch _ _
  obtain ⟨bs, n, hc⟩ := c.patch_eq (linkAt false g.segs k op) t
  obtain ⟨bs', n', hd⟩ := d.patch_eq (linkAt true g.segs k op) t'
  have halive : c.alive = d.alive := h.alive
  have hframe : (j.getD c.frame).Level (j'.getD d.frame) := h.frame
  have hhere : c.alive = false → (c.pc = t ↔ d.pc = t') := fun ha =>
    ht.resolve_left (by rw [ha]; decide)
  rw [hpc, hpc']
  rw [hc] at hnear ⊢
  rw [hd] at hfar ⊢
  have hboth : (c.alive || decide (c.pc = t)) = (d.alive || decide (d.pc = t')) := by
    rw [← halive]
    cases ha : c.alive with
    | true => rfl
    | false => simp [hhere ha]
  exact {
    alive := hboth
    frame := by
      show Frame.Level (if c.alive = false ∧ c.pc = t then l.frame else j.getD c.frame)
        (if d.alive = false ∧ d.pc = t' then l'.frame else j'.getD d.frame)
      rw [← halive]
      by_cases ha : c.alive = false ∧ c.pc = t
      · rw [if_pos ha, if_pos ⟨ha.1, (hhere ha.1).mp ha.2⟩]
        exact hlevel.trans hlevel'.symm
      · rw [if_neg ha, if_neg fun ha' => ha ⟨ha'.1, (hhere ha'.1).mpr ha'.2⟩]
        exact hframe
    maxStack := h.maxStack
    maxLocals := h.maxLocals
    nextReg := h.nextReg
    keepVars := h.keepVars
    slots := h.slots
    ranges := h.ranges
    near := hnear
    far := hfar
    sound := h.sound
    narrow := h.narrow
    wide := h.wide
    firm := fun _ => rfl
    base := h.base
    dry := fun hdead => h.dry (Bool.or_eq_false_iff.mp hdead).1 }

/-- The narrow code takes the `goto` back that the wide code settles. -/
theorem drop {k : ℕ} {l l' : Link} {f frame : Frame} (h : Abreast g c d)
    (hl : LinkPair g.segs k l l') (ht : Trailing g.segs k (.jump .goto frame)) (hf : f.Level frame)
    (hdead : c.alive = false) (fixed : Bool) :
    Abreast { g with segs := g.segs.set k .gone }
      { c.dropTail 3 with alive := true, fixed, frame := f }
      (((d.patch l'.pc d.pc).land l' d.pc none).1.seen
        ((d.patch l'.pc d.pc).land l' d.pc none).2) := by
  have hfar := (h.far.patch h.wide ht.1 d.pc).lose ht.1
  have hpc : (d.patch l'.pc d.pc).pc = d.pc := d.size_patch _ _
  have hslots := c.slots_dropTail 3
  rw [(land_eq _ _ _ _).1, hpc]
  obtain ⟨op, frame, hs, -, hl', hlevel'⟩ := hl
  cases hs.symm.trans ht.1
  rw [hl']
  obtain ⟨bs, n, hd⟩ := d.patch_eq (linkAt true g.segs k .goto) d.pc
  obtain ⟨vars, slots, hc⟩ := c.dropTail_eq 3
  rw [hd] at hfar ⊢
  rw [hc] at hslots ⊢
  have hdead' : d.alive = false := h.alive ▸ hdead
  exact {
    alive := by simp
    frame := by simpa [hdead'] using hf.trans hlevel'.symm
    maxStack := h.maxStack
    maxLocals := h.maxLocals
    nextReg := h.nextReg
    keepVars := h.keepVars
    slots := hslots.trans h.slots
    ranges := h.ranges
    near := h.near.drop ht
    far := hfar
    sound := by
      intro s hs
      rcases List.mem_or_eq_of_mem_set hs with hs | rfl
      · exact h.sound s hs
      · trivial
    narrow := h.narrow
    wide := h.wide
    firm := fun _ => rfl
    base := by simpa using h.base
    dry := fun hdead => absurd hdead (by simp) }

theorem noteDepth (h : Abreast g c d) : Abreast g c.noteDepth d.noteDepth :=
  { h with
    maxStack := by
      show max _ _ = max _ _
      rw [h.maxStack, h.frame.depth] }

end Abreast

variable {g : Ghost} {c d : Code}

/-- The wide code never ends with a narrow `goto`. -/
theorem endsWithGoto_far {segs : List Seg} {d : Code} {k : ℕ} {l l' : Link}
    (h : Laid true segs d.bytes) (hl : LinkPair segs k l l') (t : ℕ) :
    d.endsWithGoto l' t = false := by
  obtain ⟨op, frame, hs, -, hl', -⟩ := hl
  have hbyte : d.bytes[linkAt true segs k op]? = some op.widened := (h.stands k _ hs).1
  simp [endsWithGoto, get1, hl', Array.getD_eq_getD_getElem?, hbyte, op.widened_ne_goto]

/-- If the narrow code ends with the `goto` of a link, that is its last segment. -/
theorem trailing_of_endsWithGoto {segs : List Seg} {c : Code} {k : ℕ} {l l' : Link} {t : ℕ}
    (h : Laid false segs c.bytes) (hl : LinkPair segs k l l') (ht : c.endsWithGoto l t = true) :
    ∃ frame, Trailing segs k (.jump .goto frame) ∧ l.frame.Level frame ∧ c.fixed = false ∧
      c.pc = t := by
  obtain ⟨op, frame, hs, ⟨hl, hlevel⟩, -⟩ := hl
  have hbyte : c.bytes[linkAt false segs k op]? = some op := h.stands k _ hs
  simp only [endsWithGoto, get1, hl, Array.getD_eq_getD_getElem?, hbyte, Option.getD_some,
    Bool.and_eq_true, beq_iff_eq, Bool.not_eq_true'] at ht
  obtain ⟨⟨⟨rfl, hend⟩, hpc⟩, hloose⟩ := ht
  refine ⟨frame, trailing_of_end hs (by simp) ?_, hlevel, hloose, hpc.symm⟩
  rw [← h.size]
  exact hend.trans hpc

/-- The waiting branches arrive in both codes. Code that comes to life here may end with a
`goto` that is still open, so it is only tied again once something has been written. -/
structure Arrived (O : Multiset ℕ) (g : Ghost) (segs : List Seg) (c d : Code) : Prop
    extends Abreast { g with segs } c d where
  grown : Grown O g { g with segs }
  length : segs.length = g.segs.length
  here : c.alive = g.live
  depth : c.frame.depth ≤ c.maxStack
  pending : c.pending = []
  pending' : d.pending = []
  loose : g.live = false → Loose { g with segs } c

/-! ### Writing an instruction -/

theorem Even.markLine (h : Even c d) : Even c.markLine d.markLine := by
  obtain ⟨line, lines, hc, -⟩ := c.markLine_eq
  obtain ⟨line', lines', hd, -⟩ := d.markLine_eq
  rw [hc, hd]
  exact { h with }

/-- An effect does the same to two codes in the same state. -/
theorem Even.applyEffect (h : Even c d) (e : Effect) :
    Even (c.applyEffect e) (d.applyEffect e) := by
  have hframe : (c.frame.apply e).Level (d.frame.apply e) := by
    cases e with
    | pop n | leave n => exact h.frame.drop n
    | trade n k => exact (h.frame.drop n).push k
    | dup w u => exact h.frame.dup w u
    | swap => exact h.frame.swap
  cases e <;> exact {
    h with
    alive := by simp [Code.applyEffect, Code.noteDepth, h.alive]
    frame := hframe
    maxStack := by
      have hdepth := hframe.depth
      simp only [Frame.apply] at hdepth
      simp [Code.applyEffect, Code.noteDepth, hdepth, h.maxStack] }

theorem Arrived.write {O : Multiset ℕ} {segs : List Seg} {s : Seg} {enc enc' : Array UInt8}
    {e : Effect} (h : Arrived O g segs c d) (hlive : g.live = true) (hs : s.Sound) (hne : s ≠ .gone)
    (hnear : s.Encodes false c.bytes enc) (hfar : s.Encodes true d.bytes enc') :
    Abreast (g.wrote segs s e.goesOn) ((c.markLine.written enc).applyEffect e)
      ((d.markLine.written enc').applyEffect e) ∧ Grown O g (g.wrote segs s e.goesOn) ∧
    ((c.markLine.written enc).applyEffect e).alive = e.goesOn ∧
    ((c.markLine.written enc).applyEffect e).frame.depth ≤
      ((c.markLine.written enc).applyEffect e).maxStack := by
  have hwritten : Even (c.markLine.written enc) (d.markLine.written enc') :=
    { h.toEven.markLine with }
  have heven := hwritten.applyEffect e
  obtain ⟨line, lines, hc, -⟩ := c.markLine_eq
  obtain ⟨line', lines', hd, -⟩ := d.markLine_eq
  have halive : c.alive = true := h.here.trans hlive
  have hgrown : Grown O g (g.wrote segs s e.goesOn) := by
    refine h.grown.trans (.concat rfl ?_ ?_ id)
    · exact h.base
    · exact h.base
  refine ⟨?_, hgrown, ?_, ?_⟩
  · rw [hc, hd] at heven ⊢
    exact {
      heven with
      near := by simpa [written, Ghost.wrote] using h.near.concat hnear.1 hnear.2
      far := by simpa [written, Ghost.wrote] using h.far.concat hfar.1 hfar.2
      sound := by
        intro s' hs'
        rcases List.mem_append.mp hs' with hs' | hs'
        · exact h.sound s' hs'
        · rw [List.mem_singleton.mp hs']
          exact hs
      narrow := by simpa [written] using h.narrow
      wide := by simpa [written] using h.wide
      firm := by simpa [written, Ghost.wrote] using h.firm
      base := by simp [Ghost.wrote]
      dry := by
        intro _
        simp only [Ghost.wrote]
        rw [startAt_append (Nat.le_refl _), startAt_length, extent_concat]
        have := Seg.size_pos false (extent false segs) (.inr hne)
        omega }
  · rw [alive_applyEffect, hc]
    simp [written, halive]
  · refine depth_le_applyEffect _ _ ?_
    rw [hc]
    exact h.depth

end Code

namespace Emit

open Code

/-- A chain of which no link is taken back is settled link by link. -/
theorem resolveLinks_abreast {g : Ghost} {chain chain' : Chain} {m : Multiset ℕ}
    (hch : Chains g.segs chain chain' m) {c d c' d' : Code} {j j' r r' : Option Frame} {t t' : ℕ}
    (hkeep : ∀ l ∈ chain.head?, c.endsWithGoto l (min t c.pc) = false)
    (h : Abreast g (c.seen j) (d.seen j')) (ht : c.alive = true ∨ (c.pc ≤ t ↔ d.pc ≤ t'))
    (hc : resolveLinks chain t j c = .ok r c') (hd : resolveLinks chain' t' j' d = .ok r' d') :
    Abreast g (c'.seen r) (d'.seen r') ∧
      c'.alive = (c.alive || (!chain.isEmpty && decide (c.pc ≤ t))) ∧
      (c.fixed = true ∨ chain ≠ [] → c'.fixed = true) ∧
      c'.maxStack = c.maxStack ∧ d'.maxStack = d.maxStack := by
  induction hch generalizing c d j j' t t' with
  | nil =>
      cases hc
      cases hd
      exact ⟨h, by simp, by simp, rfl, rfl⟩
  | @cons k l l' chain chain' m head tail ih =>
      have hpc : c.pc = min t c.pc ↔ c.pc ≤ t := by omega
      have hpc' : d.pc = min t' d.pc ↔ d.pc ≤ t' := by omega
      rcases resolveLinks_cons_ok hc with ⟨hends, -⟩ | ⟨-, -, hrest⟩
      · rw [hkeep l rfl] at hends
        cases hends
      rcases resolveLinks_cons_ok hd with ⟨hends, -⟩ | ⟨-, -, hrest'⟩
      · have hfar : Laid true g.segs d.bytes := h.far
        rw [endsWithGoto_far hfar head] at hends
        cases hends
      have hmeet : c.alive = true ∨ (c.pc = min t c.pc ↔ d.pc = min t' d.pc) := by rwa [hpc, hpc']
      have hland := h.land head hmeet
      obtain ⟨-, halive, hfixed₁, hsize, hmax⟩ :=
        (c.patch l.pc (min t c.pc)).land_eq l (min t c.pc) j
      obtain ⟨-, -, -, hsize', hmax'⟩ := (d.patch l'.pc (min t' d.pc)).land_eq l' (min t' d.pc) j'
      obtain ⟨bs, n, hpatch⟩ := c.patch_eq l.pc (min t c.pc)
      obtain ⟨bs', n', hpatch'⟩ := d.patch_eq l'.pc (min t' d.pc)
      rw [show (c.patch l.pc (min t c.pc)).pc = c.pc from c.size_patch _ _] at halive hsize
      rw [show (d.patch l'.pc (min t' d.pc)).pc = d.pc from d.size_patch _ _] at hsize'
      rw [show (c.patch l.pc (min t c.pc)).alive = c.alive by rw [hpatch]] at halive
      rw [show (c.patch l.pc (min t c.pc)).maxStack = c.maxStack by rw [hpatch]] at hmax
      rw [show (d.patch l'.pc (min t' d.pc)).maxStack = d.maxStack by rw [hpatch']] at hmax'
      have hkeep₁ : ∀ l₁ ∈ chain.head?,
          ((c.patch l.pc (min t c.pc)).land l (min t c.pc) j).1.endsWithGoto l₁
          (min (min t c.pc) ((c.patch l.pc (min t c.pc)).land l (min t c.pc) j).1.pc) = false := by
        simp [endsWithGoto, hfixed₁]
      obtain ⟨habreast, halive', hfixed', hmaxes⟩ := ih hkeep₁ hland (by
        rw [halive, hsize, hsize']
        rcases ht with ht | ht
        · simp [ht]
        · exact .inr (by omega)) hrest hrest'
      rw [hmax, hmax'] at hmaxes
      refine ⟨habreast, ?_, fun _ => hfixed' (.inl hfixed₁), hmaxes⟩
      rw [halive', halive, hsize]
      by_cases hle : c.pc ≤ t
      · rw [decide_eq_true (hpc.mpr hle), decide_eq_true hle]
        simp
      · have hne : ¬ c.pc = min t c.pc := fun h => hle (hpc.mp h)
        have hnle : ¬ c.pc ≤ min t c.pc := by omega
        rw [decide_eq_false hne, decide_eq_false hnle, decide_eq_false hle]
        simp

/-- A chain is settled in both codes, or the narrow code takes its first link back. -/
theorem resolveLinks_tied {g : Ghost} {chain chain' : Chain} {m O : Multiset ℕ} {c d c' d' : Code}
    {r r' : Option Frame} {t t' : ℕ} (h : c.Tied g d) (hch : Chains g.segs chain chain' m)
    (howned : Owned g.segs.length (m + O)) (ht : c.alive = true ∨ (c.pc ≤ t ↔ d.pc ≤ t'))
    (hc : resolveLinks chain t none c = .ok r c') (hd : resolveLinks chain' t' none d = .ok r' d') :
    ∃ segs, segs.length = g.segs.length ∧ Grown O g { g with segs } ∧
      Abreast { g with segs } (c'.seen r) (d'.seen r') ∧
      c'.alive = (c.alive || (!chain.isEmpty && decide (c.pc ≤ t))) ∧
      c'.maxStack = c.maxStack ∧ d'.maxStack = d.maxStack ∧
      (c.alive = true ∨ c'.alive = false → Loose { g with segs } (c'.seen r)) := by
  cases hch with
  | nil =>
      cases hc
      cases hd
      exact ⟨g.segs, rfl, .refl _ _, h.toAbreast, by simp, rfl, rfl, fun _ => h.loose⟩
  | @cons k l l' chain chain' m head tail =>
      rcases resolveLinks_cons_ok hd with ⟨hends, -⟩ | ⟨-, -, hrest'⟩
      · rw [endsWithGoto_far h.far head] at hends
        cases hends
      rcases resolveLinks_cons_ok hc with ⟨hends, hcase⟩ | ⟨hkeep, -⟩
      · -- The code is dead, so the link finds what its own branch has left.
        obtain ⟨frame, htrail, hlevel, hloose, hpc⟩ := trailing_of_endsWithGoto h.near head hends
        obtain ⟨hdead, hframe, hbase⟩ := h.loose hloose k frame htrail
        have hle : c.pc ≤ t := by omega
        have hle' : d.pc ≤ t' := (ht.resolve_left (by rw [hdead]; decide)).mp hle
        rw [Nat.min_eq_right hle'] at hrest'
        have hk : k ∉ m + O := by
          have := howned.1
          rw [Multiset.cons_add] at this
          exact (Multiset.nodup_cons.mp this).1
        have hgrown {F : Multiset ℕ} (hF : F ≤ m + O) :
            Grown F g { g with segs := g.segs.set k .gone } :=
          .lose rfl htrail hbase (fun hmem => hk (Multiset.mem_of_le hF hmem)) rfl rfl
        have hdrop {f : Frame} (hf : f.Level frame) (fixed : Bool) :=
          h.toAbreast.drop head htrail hf hdead fixed
        refine ⟨g.segs.set k .gone, by simp, hgrown (Multiset.le_add_left _ _), ?_⟩
        obtain ⟨vars, slots, htail⟩ := c.dropTail_eq 3
        rcases hcase with ⟨rfl, rfl, rfl⟩ | hrest
        · obtain ⟨rfl, rfl⟩ := tail.eq_nil
          cases hrest'
          refine ⟨?_, by simp [hle], by rw [htail], ?_, fun h => ?_⟩
          · have := hdrop hframe c.fixed
            rw [htail] at this ⊢
            exact this
          · obtain ⟨bs, n, hpatch⟩ := d.patch_eq l'.pc d.pc
            rw [((d.patch l'.pc d.pc).land_eq l' d.pc none).2.2.2.2, hpatch]
          · simp [hdead] at h
        · have hland := (c.dropTail 3).land_eq l (min t c.pc - 3) none
          have hpc₁ : (c.dropTail 3).pc = min t c.pc - 3 := by rw [size_dropTail]; omega
          have hdead₁ : (c.dropTail 3).alive = false := by rw [htail]; exact hdead
          simp only [hpc₁, hdead₁, decide_true, Bool.or_true, and_self, if_true] at hland
          obtain ⟨hseen, halive, hfixed, -, hmax⟩ := hland
          have hdrop₁ := hdrop hlevel true
          rw [← hseen] at hdrop₁
          obtain ⟨habreast, halive', -, hmaxes⟩ := resolveLinks_abreast
            (tail.grown (hgrown (Multiset.le_add_right _ _)) le_rfl)
            (by simp [endsWithGoto, hfixed]) hdrop₁ (.inl halive) hrest hrest'
          obtain ⟨bs, n, hpatch⟩ := d.patch_eq l'.pc d.pc
          have hmax' := ((d.patch l'.pc d.pc).land_eq l' d.pc none).2.2.2.2
          rw [halive, Bool.true_or] at halive'
          refine ⟨habreast, by simp [halive', hle], ?_, ?_, by simp [halive', hdead]⟩
          · rw [hmaxes.1, hmax, htail]
          · rw [hmaxes.2, hmax', hpatch]
      · have hseen : Abreast g (c.seen none) (d.seen none) := h.toAbreast
        obtain ⟨habreast, halive, hfixed, hmaxes⟩ :=
          resolveLinks_abreast (.cons head tail) (by simpa using hkeep) hseen ht hc hd
        refine ⟨g.segs, rfl, .refl _ _, habreast, halive, hmaxes.1, hmaxes.2, fun _ hloose => ?_⟩
        rw [show (c'.seen r).fixed = true from hfixed (.inr (List.cons_ne_nil _ _))] at hloose
        cases hloose

/-- The state of the branches counts toward the greatest depth. -/
theorem resolveTo_ok {chain : Chain} {t : ℕ} {c c' : Code} (h : resolveTo chain t c = .ok () c') :
    ∃ r c₁, resolveLinks chain t none c = .ok r c₁ ∧
      (c₁.maxStack = c.maxStack → c.frame.depth ≤ c.maxStack → c' = (c₁.seen r).noteDepth) := by
  obtain ⟨r, c₁, hlinks, h⟩ := EStateM.bind_eq_ok.mp h
  refine ⟨r, c₁, hlinks, fun hmax hdepth => ?_⟩
  cases r with
  | none =>
      cases h
      have hle : c'.frame.depth ≤ c'.maxStack := by
        rw [(frame_resolveLinks hlinks).1, hmax]
        exact hdepth
      show c' = { c' with maxStack := max c'.maxStack c'.frame.depth }
      rw [Nat.max_eq_left hle]
  | some frame =>
      cases h
      rfl

theorem resolveTo_tied {g : Ghost} {chain chain' : Chain} {m O : Multiset ℕ} {c d c' d' : Code}
    {t t' : ℕ} (h : c.Tied g d) (hch : Chains g.segs chain chain' m)
    (howned : Owned g.segs.length (m + O)) (ht : c.alive = true ∨ (c.pc ≤ t ↔ d.pc ≤ t'))
    (hc : resolveTo chain t c = .ok () c') (hd : resolveTo chain' t' d = .ok () d') :
    ∃ segs, segs.length = g.segs.length ∧ Grown O g { g with segs } ∧
      Abreast { g with segs } c' d' ∧
        c'.alive = (c.alive || (!chain.isEmpty && decide (c.pc ≤ t))) ∧
      c'.frame.depth ≤ c'.maxStack ∧ c'.pending = c.pending ∧ d'.pending = d.pending ∧
      (c.alive = true ∨ c'.alive = false → Loose { g with segs } c') := by
  obtain ⟨r, c₁, hlinks, hc'⟩ := resolveTo_ok hc
  obtain ⟨r', d₁, hlinks', hd'⟩ := resolveTo_ok hd
  obtain ⟨segs, hlen, hgrown, habreast, halive, hmax, hmax', hloose⟩ :=
    resolveLinks_tied h hch howned ht hlinks hlinks'
  have hdepth' : d.frame.depth ≤ d.maxStack := by
    rw [← h.frame.depth, ← h.maxStack]
    exact h.depth
  obtain rfl := hc' hmax h.depth
  obtain rfl := hd' hmax' hdepth'
  exact ⟨segs, hlen, hgrown, habreast.noteDepth, halive, Nat.le_max_right _ _,
    (frame_resolveLinks hlinks).2.1, (frame_resolveLinks hlinks').2.1, hloose⟩

theorem resolvePending_tied {g : Ghost} {m O : Multiset ℕ} {c d c' d' : Code} (h : c.Tied g d)
    (hlive : c.reachable = g.live) (hch : Chains g.segs c.pending d.pending m)
    (howned : Owned g.segs.length (m + O)) (hc : resolvePending c = .ok () c')
    (hd : resolvePending d = .ok () d') : ∃ segs, Arrived O g segs c' d' := by
  have hpending := (pending_resolvePending hc).1
  have hpending' := (pending_resolvePending hd).1
  unfold resolvePending at hc hd
  obtain ⟨c₀, c₀', hget, hc⟩ := EStateM.bind_eq_ok.mp hc
  cases hget
  obtain ⟨d₀, d₀', hget, hd⟩ := EStateM.bind_eq_ok.mp hd
  cases hget
  rw [← hch.isEmpty_eq] at hd
  cases hempty : c.pending.isEmpty with
  | true =>
      rw [hempty] at hc hd
      cases hc
      cases hd
      exact ⟨g.segs, {
        h with
        grown := .refl _ _
        length := rfl
        here := by rw [← hlive, Code.reachable, hempty]; simp
        pending := hpending
        pending' := hpending'
        loose := fun _ => h.loose }⟩
  | false =>
      rw [hempty] at hc hd
      obtain ⟨⟨⟩, c₁, hmod, hc⟩ := EStateM.bind_eq_ok.mp hc
      cases hmod
      obtain ⟨⟨⟩, d₁, hmod, hd⟩ := EStateM.bind_eq_ok.mp hd
      cases hmod
      have htied : Code.Tied g { c with pending := [] } { d with pending := [] } := { h with }
      obtain ⟨segs, hlen, hgrown, habreast, halive, hdepth, -, -, -⟩ :=
        resolveTo_tied htied hch howned (.inr (by simp [pc])) hc hd
      have hhere : c'.alive = true := by
        rw [halive, hempty]
        simp [pc]
      have hgo : g.live = true := by
        rw [← hlive, Code.reachable, hempty]
        simp
      exact ⟨segs, {
        habreast with
        grown := hgrown
        length := hlen
        here := hhere.trans hgo.symm
        depth := hdepth
        pending := hpending
        pending' := hpending'
        loose := fun hdead => by rw [hgo] at hdead; cases hdead }⟩

variable {g : Ghost} {m : Multiset ℕ} {limited : Bool}

/-- A plain instruction is written in both codes, if at all. -/
theorem Writes.runs {x : Emit Unit} {op : Opcode} {wide : Bool} {operands : Array UInt8}
    {e : Effect} {P : Prop} (hx : Writes x (Seg.plainBytes op wide operands) e P)
    (hsound : P → (Seg.code op wide operands).Sound) :
    Runs limited g 0 x x (Plain fun g' _ _ => g'.live = (g.live && e.goesOn) ∧
      (g.live = true → g'.Solid)) := by
  refine .of_code fun O c d waiting h hlive hch howned _ c' _ d' hc hd => ?_
  rw [zero_add] at howned
  obtain ⟨c₁, hpend, hcase⟩ := hx c c' hc
  obtain ⟨d₁, hpend', hcase'⟩ := hx d d' hd
  obtain ⟨segs, harr⟩ := resolvePending_tied h hlive hch howned hpend hpend'
  have howned' : Owned segs.length (0 + (0 + O)) := by
    rw [zero_add, zero_add, harr.length]
    exact howned.mono (Multiset.le_add_left _ _) (Nat.le_refl _)
  rcases hcase with ⟨hdead, rfl⟩ | ⟨halive, hP, -, rfl⟩
  · have hdead' : d₁.alive = false := harr.alive ▸ hdead
    rcases hcase' with ⟨-, rfl⟩ | ⟨halive', -⟩
    · have hgo : g.live = false := harr.here ▸ hdead
      refine ⟨{ g with segs }, 0, 0, { harr with loose := harr.loose hgo }, ?_, ?_,
        howned', harr.grown,
        rfl, ?_, ?_⟩
      · simp [Code.reachable, harr.pending, hdead, hgo]
      · rw [harr.pending, harr.pending']
        exact .nil
      · simp [hgo]
      · simp [hgo]
    · rw [hdead'] at halive'
      cases halive'
  · have halive' : d₁.alive = true := harr.alive ▸ halive
    rcases hcase' with ⟨hdead', -⟩ | ⟨-, -, -, rfl⟩
    · rw [hdead'] at halive'
      cases halive'
    · have hgo : g.live = true := harr.here ▸ halive
      obtain ⟨habreast, hgrown, hnext, hdepth⟩ := harr.write (e := e) hgo (hsound hP) (by simp)
        (Seg.encodes_code false op wide operands c₁.bytes)
        (Seg.encodes_code true op wide operands d₁.bytes)
      have hsolid (k : ℕ) (frame : Frame) : ¬ Trailing (segs ++ [.code op wide operands]) k
          (.jump .goto frame) := fun htrail => by cases (htrail.eq_of_concat (by simp)).2
      refine ⟨_, 0, 0, { habreast with depth := hdepth, loose := ?_ }, ?_, ?_, ?_, hgrown, rfl, ?_,
        fun _ => ⟨hsolid, ?_⟩⟩
      · intro _ k frame htrail
        exact absurd htrail (hsolid k frame)
      · rw [Code.reachable, hnext, pending_applyEffect]
        show (_ || !c₁.markLine.pending.isEmpty) = _
        rw [pending_markLine, harr.pending]
        simp [Ghost.wrote]
      · rw [pending_applyEffect, pending_applyEffect]
        show Chains _ c₁.markLine.pending d₁.markLine.pending _
        rw [pending_markLine, pending_markLine, harr.pending, harr.pending']
        exact .nil
      · exact howned'.mono (le_rfl) (by simp [Ghost.wrote])
      · simp [Ghost.wrote, hgo]
      · simp only [Ghost.wrote]
        rw [startAt_append (Nat.le_refl _), startAt_length, extent_concat]
        exact Nat.lt_add_of_pos_right (Seg.size_pos false _ (.inr (by simp)))

theorem Writes.straight {x : Emit Unit} {op : Opcode} {wide : Bool} {operands : Array UInt8}
    {e : Effect} {P : Prop} (hx : Writes x (Seg.plainBytes op wide operands) e P)
    (hsound : P → (Seg.code op wide operands).Sound) (hgoes : e.goesOn = true) : Straight x := by
  refine fun g => (hx.runs hsound).mono ?_
  rintro g' _ _ _ ⟨rfl, hlive, -⟩
  rw [hgoes, Bool.and_true] at hlive
  exact ⟨rfl, rfl, fun h => hlive.trans h⟩

/-- An instruction without a prefix that takes `n` bytes. -/
theorem Writes.straightBare {x : Emit Unit} {op : Opcode} {operands : Array UInt8} {e : Effect}
    {P : Prop} {n : ℕ} (hx : Writes x (#[op] ++ operands) e P)
    (hop : op.isBranch = false ∧ op ≠ .tableswitch ∧ op ≠ .lookupswitch ∧ op.length? = some n)
    (hn : n = operands.size + 1) (hgoes : e.goesOn = true) : Straight x := by
  have hbare : Writes x (Seg.plainBytes op false operands) e P := hx
  obtain ⟨hbranch, ht, hl, hlen⟩ := hop
  exact hbare.straight (fun _ => ⟨hbranch, ht, hl, hlen.trans (congrArg some hn)⟩) hgoes

theorem plain_runs {op : Opcode} (ht : op ≠ .tableswitch) (hl : op ≠ .lookupswitch) :
    Runs limited g 0 (plain op) (plain op) (Plain fun g' _ _ =>
      g'.live = (g.live && op.effect.goesOn) ∧ (g.live = true → g'.Solid)) := by
  have hx : Writes (plain op) (Seg.plainBytes op false #[]) op.effect (op.Takes .plain) :=
    writes_plain op
  refine hx.runs fun htakes => ?_
  obtain ⟨row, hrow, hoperands⟩ := htakes
  obtain ⟨hlen, -, hbranch⟩ := Opcode.of_takes_plain op row hrow hoperands ht hl
  exact ⟨hbranch, ht, hl, (Opcode.length_of_row hrow).trans (congrArg some hlen)⟩

theorem straight_plain {op : Opcode} (hop : op.IsStraight) : Straight (plain op) := by
  refine fun g => (plain_runs hop.1 hop.2.1).mono ?_
  rintro g' _ _ _ ⟨rfl, hlive, -⟩
  rw [hop.2.2, Bool.and_true] at hlive
  exact ⟨rfl, rfl, hlive.trans⟩

theorem straight_byte {op : Opcode} (hop : op.IsStraight) (b : UInt8) : Straight (byte op b) := by
  have hx : Writes (byte op b) (Seg.plainBytes op false #[b]) op.effect (op.Takes .byte) :=
    writes_byte op b
  refine hx.straight (fun htakes => ?_) hop.2.2
  obtain ⟨row, hrow, hoperands⟩ := htakes
  obtain ⟨hlen, -, hbranch⟩ := Opcode.of_takes_byte op row hrow hoperands
  exact ⟨hbranch, hop.1, hop.2.1, (Opcode.length_of_row hrow).trans (congrArg some hlen)⟩

theorem straight_short {op : Opcode} (hop : op.IsStraight) (hbranch : op.isBranch = false)
    (v : UInt16) :
    Straight (short op v) := by
  have hx : Writes (short op v) (Seg.plainBytes op false (wordBytes v)) op.effect
      (op.Takes .short) := writes_short op v
  refine hx.straight (fun htakes => ?_) hop.2.2
  obtain ⟨row, hrow, hoperands⟩ := htakes
  obtain ⟨hlen, -⟩ := Opcode.of_takes_short op row hrow hoperands
  exact ⟨hbranch, hop.1, hop.2.1, (Opcode.length_of_row hrow).trans (congrArg some hlen)⟩

/-- An instruction on a register, in either form. -/
theorem runs_register (op : Opcode) (reg : UInt16) (ht : op ≠ .tableswitch)
    (hl : op ≠ .lookupswitch) :
    Runs limited g 0 (register op reg) (register op reg) (Plain fun g' _ _ =>
      g'.live = (g.live && op.effect.goesOn) ∧ (g.live = true → g'.Solid)) := by
  have hx := writes_register op reg
  unfold registerBytes at hx
  split at hx
  · have hx : Writes (register op reg) (Seg.plainBytes op true (wordBytes reg)) op.effect
        (op.Takes .register) := hx
    refine hx.runs fun htakes => ?_
    obtain ⟨row, hrow, hoperands⟩ := htakes
    obtain ⟨-, -, hbranch, hiinc⟩ := Opcode.of_takes_register op row hrow hoperands
    exact ⟨hbranch, ht, hl, by rw [if_pos rfl, if_neg hiinc]; rfl⟩
  · have hx : Writes (register op reg) (Seg.plainBytes op false #[reg.toUInt8]) op.effect
        (op.Takes .register) := hx
    refine hx.runs fun htakes => ?_
    obtain ⟨row, hrow, hoperands⟩ := htakes
    obtain ⟨hlen, -, hbranch, -⟩ := Opcode.of_takes_register op row hrow hoperands
    exact ⟨hbranch, ht, hl, (Opcode.length_of_row hrow).trans (congrArg some hlen)⟩

theorem straight_register {op : Opcode} (hop : op.IsStraight) (reg : UInt16) :
    Straight (register op reg) := by
  refine fun g => (runs_register op reg hop.1 hop.2.1).mono ?_
  rintro g' _ _ _ ⟨rfl, hlive, -⟩
  rw [hop.2.2, Bool.and_true] at hlive
  exact ⟨rfl, rfl, hlive.trans⟩

theorem straight_iinc (reg : UInt16) (delta : Int16) : Straight (iinc reg delta) := by
  have hx := writes_iinc reg delta
  unfold iincBytes at hx
  split at hx
  · have hx : Writes (iinc reg delta)
        (Seg.plainBytes .iinc true (wordBytes reg ++ wordBytes delta.toUInt16)) (.pop 0) True := hx
    exact hx.straight (fun _ => ⟨by decide, by decide, by decide, by simp [wordBytes]⟩) rfl
  · exact hx.straightBare (n := 3) (by decide +kernel) rfl rfl

theorem straight_ldc (index : UInt16) (k : Kind) : Straight (ldc index k) := by
  have hx := writes_ldc index k
  unfold ldcOp ldcBytes at hx
  split at hx
  · exact hx.straightBare (n := 3) (by decide +kernel) rfl rfl
  · split at hx
    · exact hx.straightBare (n := 2) (by decide +kernel) rfl rfl
    · exact hx.straightBare (n := 3) (by decide +kernel) rfl rfl

theorem straight_field {op : Opcode} (index : UInt16) (k : Kind)
    (hop : op = .getstatic ∨ op = .putstatic ∨ op = .getfield ∨ op = .putfield) :
    Straight (field op index k) := by
  have hx := writes_field op index k
  rcases hop with rfl | rfl | rfl | rfl <;>
    exact hx.straightBare (n := 3) (by decide +kernel) rfl rfl

theorem straight_invoke {op : Opcode} (index : UInt16) (words : ℕ) (k : Kind)
    (hop : op = .invokestatic ∨ op = .invokespecial ∨ op = .invokeinterface ∨ op = .invokevirtual) :
    Straight (invoke op index words k) := by
  have hx := writes_invoke op index words k
  rcases hop with rfl | rfl | rfl | rfl
  · exact hx.straightBare (n := 3) (by decide +kernel) rfl rfl
  · exact hx.straightBare (n := 3) (by decide +kernel) rfl rfl
  · exact hx.straightBare (n := 5) (by decide +kernel) rfl rfl
  · exact hx.straightBare (n := 3) (by decide +kernel) rfl rfl

theorem straight_multiarray (dims : UInt8) (index : UInt16) : Straight (multiarray dims index) :=
  (writes_multiarray dims index).straightBare (n := 4) (by decide +kernel) rfl rfl

/-! ### Writing a branch -/

theorem encodes_jump (far : Bool) {op : Opcode}
    (hop : op.isConditional = true ∨ op = .goto ∨ op = .jsr) (frame : Frame) (bs : Array UInt8) :
    (Seg.jump op frame).Encodes far bs (jumpBytes far op) := by
  have hread (enc : Array UInt8) (i : ℕ) : (bs ++ enc)[bs.size + i]? = enc[i]? := by
    rw [Array.getElem?_append_right (Nat.le_add_right _ _), Nat.add_sub_cancel_left]
  cases far with
  | false => exact ⟨rfl, hread (jumpBytes false op) 0⟩
  | true =>
      rcases hop with hcond | rfl | rfl
      · obtain ⟨-, -, -, -, hjsr, -⟩ := Opcode.of_isConditional hcond
        have hbytes : jumpBytes true op = (#[op.negate] ++ wordBytes 8) ++
            (#[Opcode.gotoW] ++ intBytes 0) := by
          rw [jumpBytes, if_pos rfl, if_pos hcond]
        have hlead : op.lead = 3 := if_pos hcond
        have hwidened : op.widened = .gotoW := if_neg hjsr
        rw [hbytes]
        refine ⟨by rw [Seg.size, hlead]; rfl, ?_⟩
        rw [Seg.StandsAt, if_pos rfl, hlead, hwidened]
        exact ⟨hread _ 3, fun _ => hread _ 0⟩
      · exact ⟨rfl, hread (jumpBytes true .goto) 0, fun h => by cases h⟩
      · exact ⟨rfl, hread (jumpBytes true .jsr) 0, fun h => by cases h⟩

/-- Both codes get a branch, which arrives in the state `frame`. -/
theorem jump_tied {op : Opcode} (hop : op.isConditional = true ∨ op = .goto ∨ op = .jsr)
    {c d c' d' : Code} {p p' : ℕ} {waiting O : Multiset ℕ} (h : c.Tied g d)
    (hlive : c.reachable = g.live) (hgo : g.live = true)
    (hch : Chains g.segs c.pending d.pending waiting) (howned : Owned g.segs.length (waiting + O))
    (hc : jump op c = .ok p c') (hd : jump op d = .ok p' d') (frame : Frame) :
    ∃ segs, segs.length = g.segs.length ∧
      Abreast (g.wrote segs (.jump op frame) op.effect.goesOn) c' d' ∧
      Grown O g (g.wrote segs (.jump op frame) op.effect.goesOn) ∧ c'.alive = op.effect.goesOn ∧
      c'.frame.depth ≤ c'.maxStack ∧ c'.pending = [] ∧ d'.pending = [] ∧
      ∀ f f' : Frame, f.Level frame → f'.Level frame →
        LinkPair (segs ++ [.jump op frame]) segs.length ⟨p, f⟩ ⟨p', f'⟩ := by
  obtain ⟨c₁, hpend, hc'⟩ := jump_ok hop hc
  obtain ⟨d₁, hpend', hd'⟩ := jump_ok hop hd
  obtain ⟨segs, harr⟩ := resolvePending_tied h hlive hch howned hpend hpend'
  have halive : c₁.alive = true := harr.here.trans hgo
  obtain ⟨hc', hp⟩ := hc' halive
  obtain ⟨hd', hp'⟩ := hd' (harr.alive ▸ halive)
  rw [h.narrow] at hc' hp
  rw [h.wide] at hd' hp'
  have hnear := encodes_jump false hop frame c₁.bytes
  have hfar := encodes_jump true hop frame d₁.bytes
  have hbytes : c'.bytes = c₁.bytes ++ jumpBytes false op := by
    obtain ⟨line, lines, hmark, -⟩ := c₁.markLine_eq
    rw [hc', bytes_applyEffect, hmark]
    rfl
  have hbytes' : d'.bytes = d₁.bytes ++ jumpBytes true op := by
    obtain ⟨line, lines, hmark, -⟩ := d₁.markLine_eq
    rw [hd', bytes_applyEffect, hmark]
    rfl
  obtain ⟨habreast, hgrown, hnext, hdepth⟩ :=
    harr.write (s := .jump op frame) (e := op.effect) hgo hop (by simp) hnear hfar
  rw [← hc'] at habreast hnext hdepth
  rw [← hd'] at habreast
  refine ⟨segs, harr.length, habreast, hgrown, hnext, hdepth, ?_, ?_, ?_⟩
  · rw [hc', pending_applyEffect]
    exact (pending_markLine c₁).trans harr.pending
  · rw [hd', pending_applyEffect]
    exact (pending_markLine d₁).trans harr.pending'
  · intro f f' hf hf'
    have hsize := harr.near.size
    have hsize' := harr.far.size
    have hgrow := hnear.1
    have hgrow' := hfar.1
    simp only [Seg.size, Bool.false_eq_true, if_false, if_true] at hgrow hgrow'
    rw [Code.pc, hbytes, Array.size_append, hgrow, hsize, if_neg (by decide),
      Nat.add_sub_cancel] at hp
    rw [Code.pc, hbytes', Array.size_append, hgrow', hsize', if_pos rfl, ← Nat.add_assoc,
      Nat.add_sub_cancel] at hp'
    refine ⟨op, frame, by simp, ⟨?_, hf⟩, ?_, hf'⟩
    · rw [linkAt, startAt_append (Nat.le_refl _), startAt_length]
      exact hp
    · rw [linkAt, startAt_append (Nat.le_refl _), startAt_length]
      exact hp'

/-- A branch in both codes. -/
theorem branch_runs {op : Opcode} (hop : op.IsTest) :
    Runs limited g 0 (branch op) (branch op) fun g' m' a b => Chains g'.segs a b m' ∧
      (op ≠ .goto → g.live = true → g'.live = true) ∧ (op ≠ .never → g.live = true → a ≠ []) := by
  refine .of_code fun O c d waiting h hlive hch howned a c' b d' hc hd => ?_
  rw [zero_add] at howned
  -- A `goto` takes the waiting branches along, so that nothing waits for it.
  obtain ⟨c₀, hc₀⟩ : ∃ c₀, c₀ = if op = .goto then { c with pending := [] } else c := ⟨_, rfl⟩
  obtain ⟨d₀, hd₀⟩ : ∃ d₀, d₀ = if op = .goto then { d with pending := [] } else d := ⟨_, rfl⟩
  obtain ⟨rest, hrest⟩ : ∃ rest, rest = if op = .goto then c.pending else [] := ⟨_, rfl⟩
  obtain ⟨rest', hrest'⟩ : ∃ rest', rest' = if op = .goto then d.pending else [] := ⟨_, rfl⟩
  have hcase := branch_ok hc₀ hrest hc
  have hcase' := branch_ok hd₀ hrest' hd
  obtain ⟨live₀, w₀, r₀, htied, hlive₀, hpend₀, hrest₀, rfl, hgo, hstop⟩ : ∃ live₀ w₀ r₀,
      c₀.Tied { g with live := live₀ } d₀ ∧ c₀.reachable = live₀ ∧
      Chains g.segs c₀.pending d₀.pending w₀ ∧ Chains g.segs rest rest' r₀ ∧ waiting = w₀ + r₀ ∧
      (op ≠ .goto → live₀ = g.live) ∧ (g.live = true → live₀ = false → rest ≠ []) := by
    by_cases hop : op = .goto
    · simp only [hop, if_true] at hc₀ hd₀ hrest hrest'
      subst hc₀ hd₀ hrest hrest'
      refine ⟨c.alive, 0, waiting,
        { h with }, by simp [Code.reachable], .nil, hch, (zero_add _).symm,
        fun h => absurd hop h, fun hg hdead hnil => ?_⟩
      rw [← hlive, Code.reachable, hdead, hnil] at hg
      cases hg
    · simp only [hop, if_false] at hc₀ hd₀ hrest hrest'
      subst hc₀ hd₀ hrest hrest'
      refine ⟨g.live, waiting, 0, h, hlive, hch, .nil, (add_zero _).symm, fun _ => rfl,
        fun hg hdead => ?_⟩
      rw [hg] at hdead
      cases hdead
  have hreach : c₀.reachable = d₀.reachable := by
    rw [Code.reachable, Code.reachable, htied.alive, hpend₀.isEmpty_eq]
  rcases hcase with ⟨hskip, rfl, rfl⟩ | ⟨hne, hreach₀, p, c₁, hjump, rfl, rfl⟩
  · rcases hcase' with ⟨-, rfl, rfl⟩ | ⟨hne, hreach₀, -⟩
    · refine ⟨{ g with live := live₀ }, w₀, r₀, htied, hlive₀, hpend₀, howned.cast (by ac_rfl),
        .of_segs rfl (Nat.le_refl _) id, hrest₀, fun hop hg => (hgo hop).trans hg, fun hne hg => ?_⟩
      exact hstop hg (hlive₀ ▸ hskip.resolve_left hne)
    · rw [hreach, hreach₀] at hskip
      exact absurd hskip (by simp [hne])
  · rcases hcase' with ⟨hskip, -⟩ | ⟨-, -, p', d₁, hjump', rfl, rfl⟩
    · rw [← hreach, hreach₀] at hskip
      exact absurd hskip (by simp [hne])
    · have hjumps : op.isConditional = true ∨ op = .goto ∨ op = .jsr :=
        hop.imp_right fun h => .inl (h.resolve_right hne)
      have hgoes : op.effect.goesOn = (op != .goto) := by
        rcases hop with hcond | rfl | rfl
        · obtain ⟨-, -, -, hgoto, -, -, hgoes, -⟩ := Opcode.of_isConditional hcond
          rw [hgoes, bne_iff_ne.mpr hgoto]
        · decide +kernel
        · exact absurd rfl hne
      obtain ⟨segs, hlen, habreast, hgrown, halive, hdepth, hpend, hpend', hlink⟩ :=
        jump_tied hjumps htied hlive₀ (hlive₀ ▸ hreach₀) hpend₀ (O := r₀ + O)
          (howned.cast (by ac_rfl)) hjump hjump' c₁.frame
      have hsame : Grown (r₀ + O) g { g with live := live₀ } := .of_segs rfl (Nat.le_refl _) id
      have hgrown := hsame.trans hgrown
      have hhere : (c₁.alive && op != .goto) = op.effect.goesOn := by
        rw [halive, hgoes, Bool.and_self]
      refine ⟨_, 0, segs.length ::ₘ r₀, ?_, ?_, ?_, ?_,
        hgrown.mono (Multiset.le_add_left _ _), ?_, ?_, ?_⟩
      · exact {
          habreast with
          alive := by
            show (c₁.alive && _) = (d₁.alive && _)
            rw [habreast.alive]
          firm := fun _ => habreast.wide
          dry := fun hdead => habreast.dry (halive.trans (hhere.symm.trans hdead))
          depth := hdepth
          loose := by
            intro _ k frame htrail
            obtain ⟨rfl, heq⟩ := htrail.eq_of_concat (by simp)
            cases heq
            exact ⟨hhere.trans (hgoes.trans (by decide)), .refl _, Nat.le_refl _⟩ }
      · simp only [Code.reachable, Ghost.wrote, hpend, hhere, List.isEmpty_nil, Bool.not_true,
          Bool.or_false]
      · show Chains _ c₁.pending d₁.pending 0
        rw [hpend, hpend']
        exact .nil
      · rw [zero_add, Multiset.cons_add]
        have hle : r₀ + O ≤ w₀ + r₀ + O := by
          rw [add_assoc]
          exact Multiset.le_add_left _ _
        simpa [Ghost.wrote] using (howned.mono hle (Nat.le_of_eq hlen.symm)).cons
      · exact .cons (hlink _ _ (.refl _) habreast.frame.symm)
          (hrest₀.grown hgrown (Multiset.le_add_right _ _))
      · intro hop _
        rw [Ghost.wrote, hgoes]
        simpa using hop
      · simp

end Emit

end StackCode
