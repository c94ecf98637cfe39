import StackCode.Generate.Switch
import StackCode.Proofs.Landing
import StackCode.Proofs.Writing

/-!
# The table of a switch

A switch instruction is written in one go, with every target open, and its targets are
settled later in whatever order the cases come. `Code.Rests` says that nothing is left to do
before the next instruction, so that what a step writes is exactly the bytes it is meant to.
`SwitchSite.Headed` says that the bytes at a site read back as the instruction, whatever the
targets are, and `Code.Rewords` that only the bytes of a stretch have been written anew.
-/

set_option maxRecDepth 4000

namespace StackCode

open Instruction

/-! ### Writing at rest -/

namespace Code

/-- Control falls into the next instruction, and neither branches nor a line wait for it. -/
structure Rests (c : Code) : Prop where
  alive : c.alive = true
  pending : c.pending = []
  line : c.pendingLine = none
  fixed : c.fixed = true

theorem Rests.written {c : Code} (h : c.Rests) (bs : Array UInt8) : (c.written bs).Rests :=
  ⟨h.alive, h.pending, h.line, h.fixed⟩

end Code

namespace Emit

variable {c c' : Code}

/-- Nothing waits, so nothing is resolved. -/
theorem resolvePending_nil (h : c.pending = []) (hrun : resolvePending c = .ok () c') : c' = c := by
  unfold resolvePending at hrun
  obtain ⟨_, _, hget, hrest⟩ := EStateM.bind_eq_ok.mp hrun
  cases hget
  rw [if_pos (by rw [h]; rfl)] at hrest
  cases hrest
  rfl

theorem curPc_rests (h : c.Rests) {p : Nat} (hrun : curPc c = .ok p c') : p = c.pc ∧ c' = c := by
  obtain ⟨⟨⟩, c₁, hpending, hrest⟩ := EStateM.bind_eq_ok.mp hrun
  obtain rfl := resolvePending_nil h.pending hpending
  have hsame : { c₁.markLine with fixed := true } = c₁ := by
    rw [Code.markLine_of_none h.line, ← h.fixed]
  cases hrest
  exact ⟨congrArg Code.pc hsame, hsame⟩

theorem plain_rests (h : c.Rests) {op : Opcode} (hrun : plain op c = .ok () c') :
    op.effect.needs ≤ c.frame.depth ∧ c' = (c.written #[op]).applyEffect op.effect := by
  obtain ⟨c₁, hpending, hwrites⟩ := writes_plain op c c' hrun
  obtain rfl := resolvePending_nil h.pending hpending
  rw [Code.markLine_of_none h.line] at hwrites
  rcases hwrites with ⟨hdead, -⟩ | ⟨-, -, hneeds, hc'⟩
  · rw [h.alive] at hdead
    cases hdead
  · exact ⟨hneeds, hc'⟩

/-- The bytes of `n` instructions that do nothing. -/
def nops : Nat → Array UInt8
  | 0 => #[]
  | n + 1 => #[Opcode.nop] ++ nops n

@[simp] theorem size_nops (n : Nat) : (nops n).size = n := by
  induction n with
  | zero => rfl
  | succ n ih =>
      rw [nops, Array.size_append, ih]
      exact Nat.add_comm 1 n

theorem nop_rests (h : c.Rests) (hrun : plain .nop c = .ok () c') :
    c' = c.written #[Opcode.nop] := by
  have heffect : Opcode.nop.effect = .pop 0 := by decide
  obtain ⟨-, hc'⟩ := plain_rests h hrun
  rw [hc', heffect, Code.applyEffect_pop_zero]

theorem pad_rests {n : Nat} (h : c.Rests) (hrun : pad n c = .ok () c') :
    c' = c.written (nops n) := by
  induction n generalizing c with
  | zero =>
      cases hrun
      exact (Code.written_empty _).symm
  | succ n ih =>
      obtain ⟨⟨⟩, c₁, hnop, hrest⟩ := EStateM.bind_eq_ok.mp hrun
      obtain rfl := nop_rests h hnop
      rw [ih (h.written _) hrest, Code.written_written, nops]

/-- A table of words begins at a multiple of four. -/
theorem align_rests (h : c.Rests) (hrun : align 4 c = .ok () c') :
    ∃ n, c' = c.written (nops n) ∧ c.pc + n = (c.pc + 3) / 4 * 4 := by
  obtain ⟨_, _, hget, hrest⟩ := EStateM.bind_eq_ok.mp hrun
  cases hget
  obtain ⟨_, _, hget, hrest⟩ := EStateM.bind_eq_ok.mp hrest
  cases hget
  by_cases hpc : c.pc % 4 = 0
  · rw [if_neg (by simp [hpc])] at hrest
    cases hrest
    exact ⟨0, (Code.written_empty c).symm, by omega⟩
  · rw [if_pos (by simp [hpc, h.alive])] at hrest
    obtain ⟨⟨⟩, c₁, hnop, hrest⟩ := EStateM.bind_eq_ok.mp hrest
    obtain rfl := nop_rests h hnop
    obtain ⟨_, _, hget, hpad⟩ := EStateM.bind_eq_ok.mp hrest
    cases hget
    have hpad := pad_rests (h.written _) hpad
    have hsize : (c.written #[Opcode.nop]).pc = c.pc + 1 := by simp [Code.pc, Code.written]
    rw [hsize, Code.written_written] at hpad
    exact ⟨(4 - (c.pc + 1) % 4) % 4 + 1, hpad, by omega⟩

end Emit

/-! ### Sorting -/

namespace KeySort

theorem swap_perm (a : Array KeyTarget) (i j : Nat) :
    (a.swapIfInBounds i j).toList.Perm a.toList := by
  unfold Array.swapIfInBounds
  split
  · split
    · exact (Array.swap_perm _ _).toList
    · exact .refl _
  · exact .refl _

theorem partition_perm (a : Array KeyTarget) (p : Int32) (i e : Nat) :
    (partition a p i e).1.toList.Perm a.toList := by
  fun_induction partition a p i e with
  | case1 a i e _ _ _ b _ ih => exact ih.trans (swap_perm ..)
  | case2 => exact swap_perm ..
  | case3 => exact .refl _

theorem perm_ite {p : Prop} [Decidable p] {a b c : Array KeyTarget}
    (ha : p → a.toList.Perm c.toList) (hb : b.toList.Perm c.toList) :
    (if p then a else b).toList.Perm c.toList := by
  split
  · exact ha ‹_›
  · exact hb

/-- Each part is sorted after the exchanges around the pivot. -/
theorem sortSegment_perm (a : Array KeyTarget) (lo hi : Nat) :
    (sortSegment a lo hi).toList.Perm a.toList := by
  fun_induction sortSegment a lo hi with
  | case1 a lo hi b i e hpart c hcond ih1 ih2 =>
      have hb : b.toList.Perm a.toList := by
        simpa only [hpart] using partition_perm a (pivot a lo hi) lo hi
      simp only [hpart, if_pos hcond]
      exact ih2.trans (perm_ite (fun h => (ih1 h).trans hb) hb)
  | case2 a lo hi b i e hpart hcond ih1 =>
      have hb : b.toList.Perm a.toList := by
        simpa only [hpart] using partition_perm a (pivot a lo hi) lo hi
      simp only [hpart, if_neg hcond]
      exact perm_ite (fun h => (ih1 h).trans hb) hb

end KeySort

theorem sortKeys_perm (a : Array KeyTarget) : (sortKeys a).toList.Perm a.toList := by
  unfold sortKeys
  split
  · exact KeySort.sortSegment_perm ..
  · exact .refl _

/-! ### The cases of a table -/

namespace Instruction

/-- The cases of a dense table, by the words that it holds. -/
theorem tableCases_eq {bs : Array UInt8} {pc n pos : Nat} {key : Int} {offset : Nat → Int}
    (h : ∀ i < n, intAt bs (pos + 4 * i) = .ok (offset i)) :
    tableCases bs pc n key pos =
      .ok ((List.range n).map fun i : Nat => (key + i, offsetTarget pc (offset i))) := by
  induction n generalizing key pos offset with
  | zero => rfl
  | succ n ih =>
      have hfirst := h 0 (Nat.succ_pos n)
      have hrest := @ih (pos + 4) (key + 1) (fun i => offset (i + 1)) fun i hi => by
        have := h (i + 1) (Nat.succ_lt_succ hi)
        rwa [show pos + 4 * (i + 1) = pos + 4 + 4 * i by omega] at this
      rw [tableCases, show pos = pos + 4 * 0 from rfl, hfirst]
      simp only [Nat.mul_zero, Nat.add_zero, hrest, List.range_succ_eq_map, List.map_cons,
        List.map_map]
      refine congrArg Except.ok ?_
      simp [Function.comp_def, Int.add_assoc, Int.add_comm 1]

/-- The cases of a sparse table, by the words that it holds. -/
theorem lookupCases_eq {bs : Array UInt8} {pc n pos : Nat} {key offset : Nat → Int}
    (hkey : ∀ i < n, intAt bs (pos + 8 * i) = .ok (key i))
    (hoffset : ∀ i < n, intAt bs (pos + 8 * i + 4) = .ok (offset i)) :
    lookupCases bs pc n pos =
      .ok ((List.range n).map fun i => (key i, offsetTarget pc (offset i))) := by
  induction n generalizing pos key offset with
  | zero => rfl
  | succ n ih =>
      have hnext (i : Nat) : pos + 8 * (i + 1) = pos + 8 + 8 * i := by omega
      have hrest := @ih (pos + 8) (fun i => key (i + 1)) (fun i => offset (i + 1))
        (fun i hi => hnext i ▸ hkey (i + 1) (Nat.succ_lt_succ hi))
        (fun i hi => hnext i ▸ hoffset (i + 1) (Nat.succ_lt_succ hi))
      have hfirst := hkey 0 (Nat.succ_pos n)
      have hsecond := hoffset 0 (Nat.succ_pos n)
      rw [Nat.mul_zero, Nat.add_zero] at hfirst hsecond
      rw [lookupCases, hfirst, hsecond]
      simp only [hrest, List.range_succ_eq_map, List.map_cons, List.map_map]
      rfl

end Instruction

/-! ### The instruction of a switch -/

namespace Gen.SwitchSite

/-- The number of words in the table, `n` being the number of keys. -/
def words (site : SwitchSite) (n : Nat) : Nat :=
  match site.layout with
  | .dense => 3 + site.width
  | .sparse => 2 + 2 * n

/-- The instruction that stands at a site. -/
def instruction (site : SwitchSite) (n : Nat) : Instruction :=
  ⟨site.pc, site.layout.opcode, site.table - site.pc + 4 * site.words n, false⟩

/-- A site whose table can be read back. -/
structure Sized (site : SwitchSite) (n : Nat) : Prop where
  table : site.table = switchBase site.pc
  bounds : site.layout = .dense → site.lo.toInt ≤ site.hi.toInt
  count : site.layout = .sparse → n < 0x80000000

/-- The bytes that say what instruction this is are in place. -/
structure Headed (site : SwitchSite) (n : Nat) (bs : Array UInt8) : Prop where
  size : site.table + 4 * site.words n ≤ bs.size
  opcode : bs[site.pc]? = some site.layout.opcode
  bounds : site.layout = .dense →
    intAt bs (site.table + 4) = .ok site.lo.toInt ∧ intAt bs (site.table + 8) = .ok site.hi.toInt
  count : site.layout = .sparse → intAt bs (site.table + 4) = .ok (n : Int)

variable {site : SwitchSite} {n : Nat} {bs bs' : Array UInt8}

theorem words_dense (h : site.layout = .dense) : site.words n = 3 + site.width := by
  simp [words, h]

theorem words_sparse (h : site.layout = .sparse) : site.words n = 2 + 2 * n := by
  simp [words, h]

theorem Sized.lt_table (h : site.Sized n) : site.pc < site.table :=
  h.table ▸ lt_switchBase site.pc

theorem Sized.next (h : site.Sized n) :
    site.pc + (site.instruction n).length = site.table + 4 * site.words n := by
  have hlt := h.lt_table
  simp only [instruction]
  omega

theorem Headed.decodeAt (h : site.Headed n bs) (hs : site.Sized n) :
    decodeAt bs site.pc = .ok (site.instruction n) := by
  have hsize := h.size
  rw [← hs.next] at hsize
  refine decodeAt_eq_ok.mpr ⟨_, _, _, ?_, hsize, rfl⟩
  cases hlayout : site.layout with
  | dense =>
      obtain ⟨hlo, hhi⟩ := h.bounds hlayout
      rw [hs.table] at hlo hhi
      rw [shapeAt_of_table (by rw [h.opcode, hlayout]; rfl) hlo hhi (hs.bounds hlayout)]
      simp only [instruction, words_dense hlayout, hlayout, Layout.opcode, hs.table, width]
      congr 3
      omega
  | sparse =>
      have hcount := h.count hlayout
      rw [hs.table] at hcount
      rw [shapeAt_of_pairs (by rw [h.opcode, hlayout]; rfl) hcount (Int.natCast_nonneg n)]
      simp only [instruction, words_sparse hlayout, hlayout, Layout.opcode, hs.table,
        Int.toNat_natCast]
      congr 3
      omega

/-! ### Targets -/

theorem offsetTarget_offset (site : SwitchSite) (t : Nat) :
    offsetTarget site.pc (site.offset t).toInt = t % 0x100000000 := by
  rw [offset, Int32.toInt_ofInt]
  exact Code.offsetTarget_bmod site.pc t

end Gen.SwitchSite

/-! ### Reading and writing words -/

namespace Code

variable {c : Code}

theorem get2_toNat (c : Code) (p : Nat) :
    (c.get2 p).toNat = (c.get1 p).toNat * 0x100 + (c.get1 (p + 1)).toNat := by
  have hlo := (c.get1 p).toNat_lt
  have hhi := (c.get1 (p + 1)).toNat_lt
  rw [get2, UInt16.toNat_or, UInt16.toNat_shiftLeft]
  simp only [UInt8.toNat_toUInt16]
  rw [show (8 : UInt16).toNat % 16 = 8 from rfl, Nat.mod_eq_of_lt (by rw [Nat.shiftLeft_eq]; omega),
    ← Nat.shiftLeft_add_eq_or_of_lt hhi, Nat.shiftLeft_eq]

theorem get4_toNat (c : Code) (p : Nat) :
    (c.get4 p).toUInt32.toNat = (c.get2 p).toNat * 0x10000 + (c.get2 (p + 2)).toNat := by
  have hlo := (c.get2 p).toNat_lt
  have hhi := (c.get2 (p + 2)).toNat_lt
  rw [get4, UInt32.toUInt32_toInt32, UInt32.toNat_or, UInt32.toNat_shiftLeft]
  simp only [UInt16.toNat_toUInt32]
  rw [show (16 : UInt32).toNat % 32 = 16 from rfl,
    Nat.mod_eq_of_lt (by rw [Nat.shiftLeft_eq]; omega),
    ← Nat.shiftLeft_add_eq_or_of_lt hhi, Nat.shiftLeft_eq]

theorem get1_of_getElem? {p : Nat} {b : UInt8} (h : c.bytes[p]? = some b) : c.get1 p = b := by
  simp [get1, h]

/-- Both ways of reading a word agree. -/
theorem get4_of_intAt {p : Nat} {v : Int32} (h : intAt c.bytes p = .ok v.toInt) : c.get4 p = v := by
  unfold intAt at h
  split at h
  · rename_i b₀ b₁ b₂ b₃ h₀ h₁ h₂ h₃
    have hword : (c.get4 p).toUInt32.toNat =
        ((b₀.toNat * 0x100 + b₁.toNat) * 0x100 + b₂.toNat) * 0x100 + b₃.toNat := by
      rw [get4_toNat, get2_toNat, get2_toNat, get1_of_getElem? h₀, get1_of_getElem? h₁,
        get1_of_getElem? h₂, get1_of_getElem? h₃]
      omega
    have hint := bmod_toUInt32 (c.get4 p)
    rw [hword] at hint
    refine Int32.toInt_inj.mp (hint.symm.trans ?_)
    simpa using h
  · cases h

/-- Only the bytes of `[lo, hi)` have been written anew. -/
structure Rewords (lo hi : Nat) (c c' : Code) : Prop where
  rest : c' = c.withBytes c'.bytes
  size : c'.bytes.size = c.bytes.size
  same : ∀ k, k < lo ∨ hi ≤ k → c'.bytes[k]? = c.bytes[k]?

namespace Rewords

variable {lo hi lo' hi' : Nat} {c' c'' : Code}

theorem refl (lo hi : Nat) (c : Code) : Rewords lo hi c c := ⟨rfl, rfl, fun _ _ => rfl⟩

theorem trans (h : Rewords lo hi c c') (h' : Rewords lo hi c' c'') : Rewords lo hi c c'' where
  rest := by
    rw [h'.rest, h.rest]
    rfl
  size := h'.size.trans h.size
  same := fun k hk => (h'.same k hk).trans (h.same k hk)

theorem mono (h : Rewords lo hi c c') (hlo : lo' ≤ lo) (hhi : hi ≤ hi') : Rewords lo' hi' c c' :=
  ⟨h.rest, h.size, fun k hk => h.same k (by omega)⟩

theorem agree (h : Rewords lo hi c c') {a b : Nat} (hout : b ≤ lo ∨ hi ≤ a) :
    Agree c.bytes c'.bytes a b :=
  fun k ha hb => h.same k (by omega)

theorem set4 (c : Code) {p : Nat} (v : Int32) (h : p + 4 ≤ c.bytes.size) :
    Rewords p (p + 4) c (c.set4 p v) where
  rest := by
    obtain ⟨bs, hbs⟩ := c.set4_eq p v
    rw [hbs]
    rfl
  size := c.size_set4 p v
  same := fun k hk => by rw [c.getElem?_set4 p v h, if_neg (by omega)]

end Rewords

end Code

namespace Gen

variable {site : SwitchSite} {c : Code}

theorem writePairs_cons (c : Code) (pc : Nat) (kt : KeyTarget) (rest : List KeyTarget) :
    writePairs c pc (kt :: rest) =
      writePairs ((c.set4 pc kt.1).set4 (pc + 4) kt.2) (pc + 8) rest := by
  rw [writePairs.eq_def]

end Gen

end StackCode
