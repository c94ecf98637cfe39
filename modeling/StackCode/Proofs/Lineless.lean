import StackCode.Proofs.Unchanged

/-!
# Operations that do not look at the line table

The line table is only ever written. `Code.withLines` puts another table in its place, and
decides anew whether one is kept; an operation on the code that does not look at it does the
same afterwards as before, up to the table itself. `Code.Operates g` says so of an operation
that gives an answer, together with what it leaves alone beside the bytes and with the fact
that wide code whose end has been seen does not get shorter (`Code.Swells`), and
`Code.Changes f` of one that gives none. Every operation of the buffer is of this kind,
settling a branch and entering a row of the exception table apart, which do not keep what
stands beside the bytes.
-/

namespace StackCode

namespace Code

/-- The code with another line table. -/
def withLines (c : Code) (keep : Bool) (lines : Array LineRow) : Code :=
  { c with keepLines := keep, lines }

/-- Once the end of wide code has been seen, it stays seen, and no code is lost. -/
def Swells (c c' : Code) : Prop :=
  c.wide = true → c.fixed = true → c'.fixed = true ∧ c.bytes.size ≤ c'.bytes.size

namespace Swells

variable {c c' c'' : Code}

theorem of_size (hfixed : c'.fixed = c.fixed)
    (hsize : c.bytes.size ≤ c'.bytes.size) : Swells c c' :=
  fun _ h => ⟨hfixed.trans h, hsize⟩

theorem refl (c : Code) : Swells c c := of_size rfl (Nat.le_refl _)

theorem trans (h : Swells c c') (hkeeps : c.SameBesideBytes c') (h' : Swells c' c'') :
    Swells c c'' := by
  intro hwide hfixed
  obtain ⟨hfixed', hle⟩ := h hwide hfixed
  obtain ⟨hfixed'', hle'⟩ := h' (hkeeps.wide.trans hwide) hfixed'
  exact ⟨hfixed'', Nat.le_trans hle hle'⟩

end Swells

/-- Two buffers agree in their bytes and in all that is set down about them, the tables of
lines, variables and ranges apart. -/
structure Light (c c' : Code) : Prop extends SameBesideBytes c c' where
  fixed : c'.fixed = c.fixed
  bytes : c'.bytes = c.bytes

theorem Light.swells {c c' : Code} (h : Light c c') : Swells c c' :=
  .of_size h.fixed (Nat.le_of_eq (by rw [h.bytes]))

/-- The operation leaves alone what is set down beside the bytes, and does the same whatever
the line table is. -/
structure Operates {α : Type} (g : Code → α × Code) : Prop where
  keeps : ∀ c : Code, c.SameBesideBytes (g c).2
  swells : ∀ c : Code, c.Swells (g c).2
  blind : ∀ (c : Code) (keep : Bool) (lines : Array LineRow), ∃ lines',
    g (c.withLines keep lines) = ((g c).1, (g c).2.withLines keep lines')

/-- The same of an operation without an answer. -/
structure Changes (f : Code → Code) : Prop where
  keeps : ∀ c : Code, c.SameBesideBytes (f c)
  swells : ∀ c : Code, c.Swells (f c)
  blind : ∀ (c : Code) (keep : Bool) (lines : Array LineRow), ∃ lines',
    f (c.withLines keep lines) = (f c).withLines keep lines'

theorem Changes.operates {f : Code → Code} (h : Changes f) : Operates fun c => ((), f c) where
  keeps := h.keeps
  swells := h.swells
  blind c keep lines := by
    obtain ⟨lines', hf⟩ := h.blind c keep lines
    exact ⟨lines', by rw [hf]⟩

namespace Changes

variable {f g : Code → Code}

/-- An operation that has nothing to do with lines. -/
theorem beside (keeps : ∀ c : Code, c.SameBesideBytes (f c)) (swells : ∀ c : Code, c.Swells (f c))
    (same : ∀ c keep lines, f (withLines c keep lines) = (f c).withLines keep lines) : Changes f :=
  ⟨keeps, swells, fun c keep lines => ⟨lines, same c keep lines⟩⟩

/-- An operation that has nothing to do with bytes either. -/
theorem light (light : ∀ c : Code, c.Light (f c))
    (same : ∀ c keep lines, f (withLines c keep lines) = (f c).withLines keep lines) : Changes f :=
  .beside (fun c => (light c).toSameBesideBytes) (fun c => (light c).swells) same

theorem andThen (hf : Changes f) (hg : Changes g) : Changes fun c => g (f c) where
  keeps c := (hf.keeps c).trans (hg.keeps (f c))
  swells c := (hf.swells c).trans (hf.keeps c) (hg.swells (f c))
  blind c keep lines := by
    obtain ⟨lines₁, h₁⟩ := hf.blind c keep lines
    obtain ⟨lines₂, h₂⟩ := hg.blind (f c) keep lines₁
    exact ⟨lines₂, by rw [h₁, h₂]⟩

end Changes

theorem Operates.swap {α : Type} {g : Code → Code × α}
    (keeps : ∀ c : Code, c.SameBesideBytes (g c).1) (swells : ∀ c : Code, c.Swells (g c).1)
    (same : ∀ c keep lines, g (withLines c keep lines) = ((g c).1.withLines keep lines, (g c).2)) :
    Operates fun c => (g c).swap where
  keeps := keeps
  swells := swells
  blind c keep lines := ⟨lines, by rw [same]; rfl⟩

/-! ### Bytes -/

theorem changes_put1 (b : UInt8) : Changes (·.put1 b) := by
  refine .beside (fun c => c.sameBesideBytes_put1 b) (fun c => ?_) fun c keep lines => ?_
  · unfold put1
    split
    · exact .of_size rfl (by simp)
    · exact .refl c
  · show (if c.alive = true then _ else _) = withLines (if c.alive = true then _ else _) keep lines
    split <;> rfl

theorem changes_put2 (w : UInt16) : Changes (·.put2 w) :=
  (changes_put1 _).andThen (changes_put1 _)

theorem changes_put4 (n : Int32) : Changes (·.put4 n) :=
  (changes_put2 _).andThen (changes_put2 _)

theorem changes_fill4 (v : Int32) (n : Nat) : Changes (·.fill4 v n) := by
  induction n with
  | zero => exact .light (fun _ => ⟨⟨rfl, rfl, rfl⟩, rfl, rfl⟩) fun _ _ _ => rfl
  | succ n ih => exact (changes_put4 v).andThen ih

theorem set2_withLines (c : Code) (keep : Bool) (lines : Array LineRow) (pc : Nat) (w : UInt16) :
    (c.withLines keep lines).set2 pc w = (c.set2 pc w).withLines keep lines := by
  have hset (c : Code) (pc : Nat) (b : UInt8) :
      (c.withLines keep lines).set1 pc b = (c.set1 pc b).withLines keep lines := rfl
  unfold set2
  rw [hset, hset]

theorem set4_withLines (c : Code) (keep : Bool) (lines : Array LineRow) (pc : Nat) (n : Int32) :
    (c.withLines keep lines).set4 pc n = (c.set4 pc n).withLines keep lines := by
  unfold set4
  rw [set2_withLines, set2_withLines]

theorem swells_set4 (c : Code) (pc : Nat) (n : Int32) : c.Swells (c.set4 pc n) :=
  .of_size rfl (Nat.le_of_eq (c.size_set4 pc n).symm)

theorem changes_set4 (pc : Nat) (n : Int32) : Changes (·.set4 pc n) :=
  .beside (fun c => c.sameBesideBytes_set4 pc n) (fun c => c.swells_set4 pc n)
    fun c keep lines => c.set4_withLines keep lines pc n

theorem closeSlots_withLines (default : Int32) (c : Code) (keep : Bool) (lines : Array LineRow)
    (pc n : Nat) : Gen.closeSlots default (c.withLines keep lines) pc n =
      (Gen.closeSlots default c pc n).withLines keep lines := by
  induction n generalizing c pc with
  | zero => rfl
  | succ n ih =>
      have hget : (c.withLines keep lines).get4 pc = c.get4 pc := rfl
      unfold Gen.closeSlots
      dsimp only
      rw [hget, set4_withLines]
      split
      · exact ih (c.set4 pc default) (pc + 4)
      · exact ih c (pc + 4)

theorem swells_closeSlots (default : Int32) (c : Code) (pc n : Nat) :
    c.Swells (Gen.closeSlots default c pc n) := by
  induction n generalizing c pc with
  | zero => exact .refl c
  | succ n ih =>
      unfold Gen.closeSlots
      dsimp only
      split
      · exact (c.swells_set4 pc default).trans (c.sameBesideBytes_set4 pc default) (ih _ _)
      · exact ih c (pc + 4)

theorem changes_closeSlots (table pc n : Nat) :
    Changes fun c => Gen.closeSlots (c.get4 table) c pc n :=
  .beside (fun c => sameBesideBytes_closeSlots _ c pc n) (fun c => swells_closeSlots _ c pc n)
    fun c keep lines => closeSlots_withLines (c.get4 table) c keep lines pc n

theorem swells_writePairs (c : Code) (pc : Nat) (pairs : List KeyTarget) :
    c.Swells (Gen.writePairs c pc pairs) := by
  induction pairs generalizing c pc with
  | nil => exact .refl c
  | cons pair rest ih =>
      obtain ⟨key, target⟩ := pair
      rw [Gen.writePairs_cons]
      have hkey := (c.swells_set4 pc key).trans (c.sameBesideBytes_set4 pc key)
        (swells_set4 _ (pc + 4) target)
      exact hkey.trans ((c.sameBesideBytes_set4 pc key).trans
        (sameBesideBytes_set4 _ (pc + 4) target)) (ih _ _)

theorem changes_writePairs (pc : Nat) (pairs : List KeyTarget) :
    Changes fun c => Gen.writePairs c pc pairs := by
  refine .beside (fun c => c.sameBesideBytes_writePairs pc pairs)
    (fun c => c.swells_writePairs pc pairs)
    fun c keep lines => ?_
  induction pairs generalizing c pc with
  | nil => rfl
  | cons pair rest ih =>
      obtain ⟨key, target⟩ := pair
      rw [Gen.writePairs_cons, Gen.writePairs_cons, set4_withLines, set4_withLines, ih]

theorem patch_withLines (c : Code) (keep : Bool) (lines : Array LineRow) (pc target : Nat) :
    (c.withLines keep lines).patch pc target = (c.patch pc target).withLines keep lines := by
  have hwide : (c.withLines keep lines).wide = c.wide := rfl
  unfold patch
  dsimp only
  rw [hwide, set4_withLines, set2_withLines]
  split
  · rfl
  · split <;> rfl

/-! ### Lines -/

theorem changes_beginLine (line : Nat) : Changes (·.beginLine line) := by
  refine .light (fun c => ?_) fun c keep lines => ?_
  · unfold beginLine
    split <;> exact ⟨⟨rfl, rfl, rfl⟩, rfl, rfl⟩
  · unfold beginLine
    split <;> rfl

theorem swells_markLine (c : Code) : c.Swells c.markLine := by
  obtain ⟨line, lines, hline, -⟩ := c.markLine_eq
  rw [hline]
  exact .of_size rfl (Nat.le_refl _)

theorem changes_markLine : Changes markLine := by
  refine ⟨sameBesideBytes_markLine, swells_markLine, fun c keep lines => ?_⟩
  cases hpending : c.pendingLine with
  | none =>
      rw [markLine_of_none hpending]
      exact ⟨lines, markLine_of_none hpending⟩
  | some line =>
      have hmark (d : Code) (hd : d.pendingLine = some line) : ∃ marked,
          d.markLine = { d with pendingLine := none, lines := marked } := by
        unfold markLine
        rw [hd]
        dsimp only
        split <;> exact ⟨_, rfl⟩
      obtain ⟨marked, hc⟩ := hmark c hpending
      obtain ⟨marked', hd⟩ := hmark (c.withLines keep lines) hpending
      rw [hc, hd]
      exact ⟨marked', rfl⟩

/-- Putting a line back and entering it. -/
theorem changes_lineAt (line : Option Nat) :
    Changes fun c => markLine { c with pendingLine := line } :=
  have hline : Changes fun c => { c with pendingLine := line } :=
    .light (fun _ => ⟨⟨rfl, rfl, rfl⟩, rfl, rfl⟩) fun _ _ _ => rfl
  hline.andThen changes_markLine

/-- A new line, entered at once. -/
theorem changes_startLine (line : Nat) : Changes fun c => (c.beginLine line).markLine :=
  (changes_beginLine line).andThen changes_markLine

/-! ### Branches -/

theorem dropTail_withLines (c : Code) (n : Nat) (keep : Bool) (lines : Array LineRow) :
    ∃ lines', (c.withLines keep lines).dropTail n = (c.dropTail n).withLines keep lines' := by
  obtain ⟨_, _, _, _, _, _, _, _, _, _, _, keepVars, _, _, _, _, _, _⟩ := c
  cases keepVars <;> exact ⟨_, rfl⟩

/-- A trailing `goto` is taken back only where the end of the code has not been seen. -/
theorem operates_retract {α : Type} {g : Code → α × Code} (link : Link) (target : Nat) (a : α)
    (hg : Operates g) : Operates fun c =>
      if c.endsWithGoto link target then g (c.dropTail 3) else (a, c) where
  keeps c := by
    split
    · exact (c.sameBesideBytes_dropTail 3).trans (hg.keeps _)
    · exact .refl c
  swells c := by
    split
    · rename_i hends
      intro _ hfixed
      simp [endsWithGoto, hfixed] at hends
    · exact .refl c
  blind c keep lines := by
    have hends : (c.withLines keep lines).endsWithGoto link target = c.endsWithGoto link target :=
      rfl
    rw [hends]
    split
    · obtain ⟨lines₁, h₁⟩ := c.dropTail_withLines 3 keep lines
      obtain ⟨lines₂, h₂⟩ := hg.blind (c.dropTail 3) keep lines₁
      exact ⟨lines₂, by rw [h₁, h₂]⟩
    · exact ⟨lines, rfl⟩

theorem operates_land (link : Link) (target : Nat) (joined : Option Frame) :
    Operates fun c => (c.land link target joined).swap := by
  refine .swap (fun c => c.sameBesideBytes_land link target joined) (fun c _ _ => ?_)
    fun c keep lines => ?_
  · unfold land
    dsimp only
    split
    · split <;> exact ⟨rfl, Nat.le_refl _⟩
    · exact ⟨rfl, Nat.le_refl _⟩
  by_cases hpc : c.bytes.size = target <;> cases halive : c.alive <;>
    simp [land, withLines, pc, hpc, halive]

theorem changes_applyEffect (e : Effect) : Changes (·.applyEffect e) :=
  .light (fun c => ⟨c.sameBesideBytes_applyEffect e, by cases e <;> rfl, by cases e <;> rfl⟩)
    fun _ _ _ => by cases e <;> rfl

/-! ### Registers and tables -/

theorem operates_newReg (k : Kind) : Operates (·.newReg k) :=
  ⟨fun _ => ⟨rfl, rfl, rfl⟩, fun _ => .of_size rfl (Nat.le_refl _), fun _ _ lines => ⟨lines, rfl⟩⟩

theorem operates_newVar (name : String) (ty : Ty) : Operates (·.newVar name ty) := by
  refine ⟨fun c => c.sameBesideBytes_newVar name ty, fun c => ?_, fun c keep lines => ⟨lines, ?_⟩⟩
  · unfold newVar
    dsimp only
    split <;> exact .of_size rfl (Nat.le_refl _)
  cases hkeep : c.keepVars <;> simp [newVar, newReg, withLines, hkeep]

theorem operates_takeSlot (reg : Nat) : Operates (·.takeSlot reg) := by
  refine ⟨fun c => c.sameBesideBytes_takeSlot reg, fun c => ?_, fun c keep lines => ⟨lines, ?_⟩⟩
  · unfold takeSlot
    split <;> exact .of_size rfl (Nat.le_refl _)
  have hslots : (c.withLines keep lines).slots[reg]? = c.slots[reg]? := rfl
  unfold takeSlot
  rw [hslots]
  split <;> rfl

theorem changes_addRange (row : RangeRow) : Changes (·.addRange row) := by
  refine .light (fun c => ⟨c.sameBesideBytes_addRange row, ?_, ?_⟩) fun c keep lines => ?_ <;>
  · unfold addRange
    split <;> rfl

theorem addCatch_withLines (c : Code) (keep : Bool) (lines : Array LineRow) (row : CatchRow) :
    (c.withLines keep lines).addCatch row = (c.addCatch row).withLines keep lines := by
  unfold addCatch
  split <;> rfl

end Code

end StackCode
