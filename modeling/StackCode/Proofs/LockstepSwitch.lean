import StackCode.Proofs.LockstepStatements
import StackCode.Proofs.SwitchTable

/-!
# Switches in lockstep

The instruction of a switch is one segment, whose words are filled in while the cases are
written. Offsets differ between the two codes, keys do not. Whoever fills in the table holds
its segment, so that nothing else changes it.

A target that is still open is known by a mark that is no offset as long as the code is short
enough. That is where the two runs need the limit on the wide code.
-/

set_option maxRecDepth 4000

namespace StackCode

open Instruction

/-! ### Sorting -/

namespace KeySort

variable {a b : Array KeyTarget}

theorem size_of_keys (h : a.map Prod.fst = b.map Prod.fst) : a.size = b.size := by
  simpa using congrArg Array.size h

theorem keyAt_of_keys (h : a.map Prod.fst = b.map Prod.fst) (i : ℕ) : keyAt a i = keyAt b i := by
  have hget : (a.map Prod.fst)[i]? = (b.map Prod.fst)[i]? := by rw [h]
  rw [Array.getElem?_map, Array.getElem?_map] at hget
  rw [keyAt, keyAt, Array.getD_eq_getD_getElem?, Array.getD_eq_getD_getElem?]
  cases ha : a[i]? <;> cases hb : b[i]? <;> simp_all

theorem pivot_of_keys (h : a.map Prod.fst = b.map Prod.fst) (lo hi : ℕ) :
    pivot a lo hi = pivot b lo hi := by
  simp only [pivot, keyAt_of_keys h]

theorem scanUp_of_keys (h : a.map Prod.fst = b.map Prod.fst) (p : Int32) (i : ℕ) :
    scanUp a p i = scanUp b p i := by
  fun_induction scanUp a p i with
  | case1 i hc ih =>
      rw [scanUp.eq_def b, if_pos (by rw [← keyAt_of_keys h, ← size_of_keys h]; exact hc)]
      exact ih
  | case2 i hc =>
      rw [scanUp.eq_def b, if_neg (by rw [← keyAt_of_keys h, ← size_of_keys h]; exact hc)]

theorem scanDown_of_keys (h : a.map Prod.fst = b.map Prod.fst) (p : Int32) (e : ℕ) :
    scanDown a p e = scanDown b p e := by
  induction e with
  | zero => rfl
  | succ e ih => simp only [scanDown, keyAt_of_keys h, ih]

theorem swap_keys (h : a.map Prod.fst = b.map Prod.fst) (i j : ℕ) :
    (a.swapIfInBounds i j).map Prod.fst = (b.swapIfInBounds i j).map Prod.fst := by
  have hmap (a : Array KeyTarget) :
      (a.swapIfInBounds i j).map Prod.fst = (a.map Prod.fst).swapIfInBounds i j := by
    unfold Array.swapIfInBounds
    simp only [Array.size_map]
    split
    · split
      · simp [Array.swap_def]
      · rfl
    · rfl
  rw [hmap, hmap, h]

theorem partition_keys (a : Array KeyTarget) (p : Int32) (i e : ℕ) :
    ∀ b : Array KeyTarget, a.map Prod.fst = b.map Prod.fst →
      (partition a p i e).1.map Prod.fst = (partition b p i e).1.map Prod.fst ∧
        (partition a p i e).2 = (partition b p i e).2 := by
  fun_induction partition a p i e with
  | case1 a i e up down hlt _ hmore ih =>
      intro b h
      rw [partition.eq_def b]
      simp only [← scanUp_of_keys h, ← scanDown_of_keys h]
      rw [if_pos hlt, if_pos hmore]
      exact ih _ (swap_keys h _ _)
  | case2 a i e up down hlt _ hmore =>
      intro b h
      rw [partition.eq_def b]
      simp only [← scanUp_of_keys h, ← scanDown_of_keys h]
      rw [if_pos hlt, if_neg hmore]
      exact ⟨swap_keys h _ _, rfl⟩
  | case3 a i e up down hlt =>
      intro b h
      rw [partition.eq_def b]
      simp only [← scanUp_of_keys h, ← scanDown_of_keys h]
      rw [if_neg hlt]
      exact ⟨h, rfl⟩

theorem keys_ite {c : Prop} [Decidable c] {a b a' b' : Array KeyTarget}
    (h : c → a.map Prod.fst = b.map Prod.fst) (h' : a'.map Prod.fst = b'.map Prod.fst) :
    (if c then a else a').map Prod.fst = (if c then b else b').map Prod.fst := by
  split
  · exact h ‹_›
  · exact h'

theorem sortSegment_keys (a : Array KeyTarget) (lo hi : ℕ) :
    ∀ b : Array KeyTarget, a.map Prod.fst = b.map Prod.fst →
      (sortSegment a lo hi).map Prod.fst = (sortSegment b lo hi).map Prod.fst := by
  fun_induction sortSegment a lo hi with
  | case1 a lo hi a₁ i e hpart c hcond ih1 ih2 =>
      intro b h
      obtain ⟨hkeys, hsame⟩ := partition_keys a (pivot a lo hi) lo hi b h
      rw [sortSegment.eq_def b]
      rw [pivot_of_keys h] at hkeys hsame hpart ⊢
      simp only [← hsame, hpart] at hkeys ⊢
      rw [if_pos hcond, if_pos hcond]
      exact ih2 _ (keys_ite (fun hc => ih1 hc _ hkeys) hkeys)
  | case2 a lo hi a₁ i e hpart hcond ih1 =>
      intro b h
      obtain ⟨hkeys, hsame⟩ := partition_keys a (pivot a lo hi) lo hi b h
      rw [sortSegment.eq_def b]
      rw [pivot_of_keys h] at hkeys hsame hpart ⊢
      simp only [← hsame, hpart] at hkeys ⊢
      rw [if_neg hcond, if_neg hcond]
      exact keys_ite (fun hc => ih1 hc _ hkeys) hkeys

end KeySort

theorem sortKeys_keys {a b : Array KeyTarget} (h : a.map Prod.fst = b.map Prod.fst) :
    (sortKeys a).map Prod.fst = (sortKeys b).map Prod.fst := by
  rw [sortKeys, sortKeys, KeySort.size_of_keys h]
  exact KeySort.keys_ite (fun _ => KeySort.sortSegment_keys _ _ _ _ h) h

/-! ### The words of a table -/

namespace Code

/-- The bytes of words. -/
def wordsBytes : List Int32 → Array UInt8
  | [] => #[]
  | v :: vs => intBytes v ++ wordsBytes vs

theorem size_wordsBytes (vs : List Int32) : (wordsBytes vs).size = 4 * vs.length := by
  induction vs with
  | nil => rfl
  | cons v vs ih =>
      rw [wordsBytes, Array.size_append, ih, List.length_cons]
      show 4 + _ = _
      omega

theorem copies_eq (v : Int32) (n : ℕ) : copies v n = wordsBytes (List.replicate n v) := by
  induction n with
  | zero => rfl
  | succ n ih => rw [copies, ih, List.replicate_succ, wordsBytes]

theorem intAt_wordsBytes (bs : Array UInt8) {vs : List Int32} {i : ℕ} {v : Int32}
    (h : vs[i]? = some v) : intAt (bs ++ wordsBytes vs) (bs.size + 4 * i) = .ok v.toInt := by
  induction vs generalizing bs i with
  | nil => cases h
  | cons w vs ih =>
      have hfour : (intBytes w).size = 4 := rfl
      cases i with
      | zero =>
          cases h
          refine intAt_intBytes fun k hk => ?_
          rw [wordsBytes, ← Array.append_assoc, Array.getElem?_append_left (by simp; omega),
            Array.getElem?_append_right (by omega)]
          congr 1
          omega
      | succ i =>
          have hrest := ih (bs ++ intBytes w) h
          rw [Array.size_append, hfour, Array.append_assoc] at hrest
          rw [wordsBytes, show bs.size + 4 * (i + 1) = bs.size + 4 + 4 * i by omega]
          exact hrest

end Code

namespace Gen

/-- The words of a table whose targets are all open. -/
def openWords (layout : Layout) (lo hi : Int32) (n : ℕ) : List Int32 :=
  openTarget :: match layout with
    | .dense => lo :: hi :: List.replicate (hi.toInt - lo.toInt + 1).toNat openTarget
    | .sparse => .ofNat n :: List.replicate (2 * n) openTarget

/-- The bytes of such a switch at a position. -/
def tableBytes (layout : Layout) (lo hi : Int32) (n pc : ℕ) : Array UInt8 :=
  #[layout.opcode] ++ (Emit.nops (switchBase pc - (pc + 1)) ++ Code.wordsBytes
    (openWords layout lo hi n))

/-- The words of a new table, which are the same in both codes. -/
def openPairs (layout : Layout) (lo hi : Int32) (n : ℕ) : List (Int32 × Int32) :=
  (openWords layout lo hi n).map fun v => (v, v)

theorem encodes_table (far : Bool) (layout : Layout) (lo hi : Int32) (n : ℕ) (bs : Array UInt8) :
    (Seg.table layout.opcode (openPairs layout lo hi n)).Encodes far bs
      (tableBytes layout lo hi n bs.size) := by
  have hbase := lt_switchBase bs.size
  refine ⟨?_, ?_, fun i w hw => ?_⟩
  · simp only [tableBytes, Array.size_append, Emit.size_nops, Code.size_wordsBytes,
      Seg.size, openPairs,
      List.length_map, List.size_toArray, List.length_singleton]
    omega
  · rw [Array.getElem?_append_right (Nat.le_refl _), Nat.sub_self, tableBytes,
      Array.getElem?_append_left (by simp)]
    rfl
  · rw [openPairs, List.getElem?_map, Option.map_eq_some_iff] at hw
    obtain ⟨v, hv, rfl⟩ := hw
    have hword := Code.intAt_wordsBytes
      (bs ++ (#[layout.opcode] ++ Emit.nops (switchBase bs.size - (bs.size + 1)))) hv
    have hsize : (bs ++ (#[layout.opcode] ++ Emit.nops (switchBase bs.size - (bs.size + 1)))).size =
        switchBase bs.size := by
      simp only [Array.size_append, Emit.size_nops, List.size_toArray, List.length_singleton]
      omega
    rw [hsize] at hword
    rw [tableBytes, ← Array.append_assoc, ← Array.append_assoc]
    rw [← Array.append_assoc] at hword
    have hpair : wordOf far (v, v) = v := by cases far <;> rfl
    rw [hpair]
    exact hword

theorem keyed_openPairs {layout : Layout} {lo hi : Int32} (n : ℕ)
    (h : layout = .dense → lo.toInt ≤ hi.toInt) :
    Keyed layout lo hi n (openPairs layout lo hi n) := by
  cases layout with
  | dense => exact ⟨rfl, rfl, h rfl, by simp [openPairs, openWords]; omega⟩
  | sparse =>
      refine ⟨rfl, by simp [openPairs, openWords]; omega, fun i w hw => ?_⟩
      rw [openPairs, List.getElem?_map, Option.map_eq_some_iff] at hw
      obtain ⟨v, -, rfl⟩ := hw
      rfl

end Gen

/-- Targets and keys may be filled in. -/
theorem Keyed.set {layout : Layout} {lo hi : Int32} {n i : ℕ} {words : List (Int32 × Int32)}
    {w : Int32 × Int32} (h : Keyed layout lo hi n words) (hdense : layout = .dense → i = 0 ∨ 3 ≤ i)
    (hsparse : layout = .sparse → i ≠ 1 ∧ ∀ j, i = 2 + 2 * j → w.1 = w.2) :
    Keyed layout lo hi n (words.set i w) := by
  cases layout with
  | dense =>
      have hi := hdense rfl
      obtain ⟨hlo, hhi, hle, hlen⟩ := h
      refine ⟨?_, ?_, hle, by rw [List.length_set, hlen]⟩
      · rw [List.getElem?_set_ne (by omega), hlo]
      · rw [List.getElem?_set_ne (by omega), hhi]
  | sparse =>
      obtain ⟨hi, hkey⟩ := hsparse rfl
      obtain ⟨hn, hlen, heven⟩ := h
      refine ⟨by rw [List.getElem?_set_ne hi, hn], by rw [List.length_set, hlen], fun j v hv => ?_⟩
      by_cases hij : i = 2 + 2 * j
      · rw [List.getElem?_set, if_pos hij] at hv
        split at hv
        · cases hv
          exact hkey j hij
        · cases hv
      · rw [List.getElem?_set_ne hij] at hv
        exact heven j v hv

/-- A word of a table is filled in. -/
theorem Laid.reword {far : Bool} {segs : List Seg} {c : Code} {k i : ℕ} {op : Opcode}
    {words : List (Int32 × Int32)} (h : Laid far segs c.bytes)
    (hs : segs[k]? = some (.table op words)) (hi : i < words.length) (w : Int32 × Int32) :
    Laid far (segs.set k (.table op (words.set i w)))
      (c.set4 (switchBase (startAt far segs k) + 4 * i) (wordOf far w)).bytes := by
  have hbase := lt_switchBase (startAt far segs k)
  have hend := h.end_le hs
  obtain ⟨hop, hwords⟩ := h.stands k _ hs
  simp only [Seg.size] at hend
  have hroom : switchBase (startAt far segs k) + 4 * i + 4 ≤ c.bytes.size := by omega
  have hagree {lo hi : ℕ} (hout : hi ≤ switchBase (startAt far segs k) + 4 * i ∨
      switchBase (startAt far segs k) + 4 * i + 4 ≤ lo) := c.agree_set4 (wordOf far w) hroom hout
  refine h.replace hs (c.size_set4 ..) (fun pc => ?_) (hagree (.inl ?_)) (hagree (.inr ?_)) ⟨?_, ?_⟩
  · rw [Seg.size, Seg.size, List.length_set]
  · omega
  · rw [Seg.size]
    omega
  · rw [hagree (.inl (Nat.le_of_lt_succ (by omega))) _ (Nat.le_refl _) (Nat.lt_succ_self _)]
    exact hop
  · intro j v hv
    by_cases hij : i = j
    · subst hij
      rw [List.getElem?_set_self hi] at hv
      cases hv
      exact c.intAt_set4 _ _ hroom
    · rw [List.getElem?_set_ne hij] at hv
      rw [intAt_congr (hagree (by omega))]
      exact hwords j v hv

/-- A segment that stays in place does not matter to what trails. -/
theorem Trailing.of_set {segs : List Seg} {j k : ℕ} {s s' t : Seg}
    (h : Trailing (segs.set k s') j t) (hs : segs[k]? = some s) (hs' : s' ≠ .gone) (ht : t ≠ s') :
    Trailing segs j t := by
  have hk := (List.getElem?_eq_some_iff.mp hs).1
  have hset : (segs.set k s')[k]? = some s' := List.getElem?_set_self hk
  have hjk : k ≠ j := by
    rintro rfl
    exact ht (Option.some.inj (h.1.symm.trans hset))
  refine ⟨by rw [← h.1, List.getElem?_set_ne hjk], h.2.1, fun l hl u hu => ?_⟩
  by_cases hkl : k = l
  · subst hkl
    exact absurd (h.2.2 k hl s' hset) hs'
  · exact h.2.2 l hl u (by rw [List.getElem?_set_ne hkl]; exact hu)

/-! ### Writing a table -/

namespace Code

theorem Rests.applyEffect {c : Code} {e : Effect} (h : c.Rests) (he : e.goesOn = true) :
    (c.applyEffect e).Rests where
  alive := by rw [alive_applyEffect, h.alive, he, Bool.and_self]
  pending := by rw [pending_applyEffect, h.pending]
  line := by cases e <;> exact h.line
  fixed := by rw [fixed_applyEffect, h.fixed]

theorem applyEffect_written (c : Code) (e : Effect) (bs : Array UInt8) :
    (c.applyEffect e).written bs = (c.written bs).applyEffect e := by
  cases e <;> rfl

end Code

namespace Gen

/-- A lower bound that is taken over keys one by one is below them all. -/
theorem foldl_min_le (keys : List Int32) (a : Int32) :
    keys.foldl min a ≤ a ∧ ∀ key ∈ keys, keys.foldl min a ≤ key := by
  induction keys generalizing a with
  | nil => exact ⟨Int32.le_refl a, fun _ h => absurd h List.not_mem_nil⟩
  | cons b keys ih =>
      obtain ⟨hle, hall⟩ := ih (min a b)
      exact ⟨Int32.le_trans hle Std.min_le_left,
        List.forall_mem_cons.mpr ⟨Int32.le_trans hle Std.min_le_right, hall⟩⟩

theorem le_foldl_max (keys : List Int32) (a : Int32) :
    a ≤ keys.foldl max a ∧ ∀ key ∈ keys, key ≤ keys.foldl max a := by
  induction keys generalizing a with
  | nil => exact ⟨Int32.le_refl a, fun _ h => absurd h List.not_mem_nil⟩
  | cons b keys ih =>
      obtain ⟨hle, hall⟩ := ih (max a b)
      have hmax : a ≤ max a b ∧ b ≤ max a b := by
        show a ≤ (if a ≤ b then b else a) ∧ b ≤ if a ≤ b then b else a
        split
        · exact ⟨‹_›, Int32.le_refl b⟩
        · exact ⟨Int32.le_refl a, Int32.le_of_lt (Int32.not_le.mp ‹_›)⟩
      exact ⟨Int32.le_trans hmax.1 hle, List.forall_mem_cons.mpr ⟨Int32.le_trans hmax.2 hle, hall⟩⟩

/-- The table of a switch is written by a step on the code alone. -/
def writeTable (keys : List Int32) : Emit SwitchSite := do
  let lo := keys.foldl min 0x7fffffff
  let hi := keys.foldl max (-0x80000000)
  let layout := Layout.choose keys.length lo.toInt hi.toInt
  let pc ← Emit.curPc
  Emit.plain layout.opcode
  Emit.align 4
  let table ← Emit.curPc
  let site : SwitchSite := { layout, pc, table, lo, hi }
  modify (·.put4 openTarget)
  match layout with
  | .dense => modify fun c => ((c.put4 lo).put4 hi).fill4 openTarget site.width
  | .sparse => modify fun c => (c.put4 (.ofNat keys.length)).fill4 openTarget (2 * keys.length)
  return site

theorem lift_bind {α β : Type} (x : Emit α) (f : α → Emit β) :
    (liftM (x >>= f) : Gen β) = liftM x >>= fun a => liftM (f a) := by
  funext s
  change Gen.onAsm (Asm.onCode (x >>= f)) s = (Gen.onAsm (Asm.onCode x) >>= _) s
  simp only [Bind.bind, EStateM.bind, Gen.onAsm, Asm.onCode]
  cases x s.asm.code <;> rfl

theorem openTable_eq (keys : List Int32) : openTable keys = liftM (writeTable keys) := by
  unfold openTable writeTable
  dsimp only
  generalize Layout.choose keys.length _ _ = layout
  cases layout <;> simp only [lift_bind] <;> rfl

theorem writeTable_ok {keys : List Int32} {site : SwitchSite} {c c' : Code}
    (h : writeTable keys c = .ok site c') : ∃ c₁, Emit.curPc c = .ok site.pc c₁ ∧ (c₁.Rests →
      site.table = switchBase c₁.pc ∧ site.lo = keys.foldl min 0x7fffffff ∧
      site.hi = keys.foldl max (-0x80000000) ∧
      site.layout = Layout.choose keys.length site.lo.toInt site.hi.toInt ∧
      c' = (c₁.written (tableBytes site.layout site.lo site.hi keys.length c₁.pc)).applyEffect
        site.layout.opcode.effect) := by
  unfold writeTable at h
  dsimp only at h
  generalize hlayout : Layout.choose keys.length _ _ = layout at h
  have hgoes : layout.opcode.effect.goesOn = true := by cases layout <;> decide +kernel
  obtain ⟨pc, c₁, hcur, h⟩ := EStateM.bind_eq_ok.mp h
  obtain ⟨⟨⟩, c₂, hplain, h⟩ := EStateM.bind_eq_ok.mp h
  obtain ⟨⟨⟩, c₃, halign, h⟩ := EStateM.bind_eq_ok.mp h
  obtain ⟨table, c₄, hcur', h⟩ := EStateM.bind_eq_ok.mp h
  obtain ⟨⟨⟩, c₅, hput, h⟩ := EStateM.bind_eq_ok.mp h
  cases hput
  refine ⟨c₁, ?_, fun hrests => ?_⟩
  · cases layout <;> cases h <;> exact hcur
  obtain ⟨-, rfl⟩ := Emit.plain_rests hrests hplain
  have hrests₂ := (hrests.written #[layout.opcode]).applyEffect hgoes
  obtain ⟨n, rfl, hn⟩ := Emit.align_rests hrests₂ halign
  have hrests₃ := hrests₂.written (Emit.nops n)
  obtain ⟨rfl, rfl⟩ := Emit.curPc_rests hrests₃ hcur'
  have hpc : ((c₁.written #[layout.opcode]).applyEffect layout.opcode.effect).pc = c₁.pc + 1 := by
    rw [Code.pc_applyEffect]
    simp [Code.pc, Code.written]
  rw [hpc] at hn
  have hbase : c₁.pc + 1 + n = switchBase c₁.pc := by
    rw [hn, switchBase]
  have hsize : Code.pc (((c₁.written #[layout.opcode]).applyEffect layout.opcode.effect).written
      (Emit.nops n)) = switchBase c₁.pc := by
    rw [← hbase, ← hpc]
    simp [Code.pc, Code.written]
  have hpad : switchBase c₁.pc - (c₁.pc + 1) = n := by omega
  have hput {c : Code} (hc : c.Rests) (v : Int32) : c.put4 v = c.written (intBytes v) :=
    Code.put4_alive hc.alive v
  have hfill {c : Code} (hc : c.Rests) (k : ℕ) :
      c.fill4 openTarget k = c.written (Code.wordsBytes (List.replicate k openTarget)) := by
    rw [Code.fill4_alive hc.alive, Code.copies_eq]
  have hrests₄ := hrests₃.written (intBytes openTarget)
  cases layout with
  | dense =>
      obtain ⟨⟨⟩, c₆, hmod, h⟩ := EStateM.bind_eq_ok.mp h
      cases hmod
      cases h
      refine ⟨hsize, rfl, rfl, hlayout.symm, ?_⟩
      dsimp only
      rw [hput hrests₃, hput hrests₄, hput (hrests₄.written _),
        hfill ((hrests₄.written _).written _)]
      simp only [Code.applyEffect_written, Code.written_written, tableBytes, hpad, openWords,
        Code.wordsBytes, Array.append_assoc, SwitchSite.width]
  | sparse =>
      obtain ⟨⟨⟩, c₆, hmod, h⟩ := EStateM.bind_eq_ok.mp h
      cases hmod
      cases h
      refine ⟨hsize, rfl, rfl, hlayout.symm, ?_⟩
      dsimp only
      rw [hput hrests₃, hput hrests₄, hfill (hrests₄.written _)]
      simp only [Code.applyEffect_written, Code.written_written, tableBytes, hpad, openWords,
        Code.wordsBytes, Array.append_assoc]

/-! ### A table in both codes -/

/-- A word that is the same in both codes, or the offsets of two places behind the switch. -/
def Landed (segs : List Seg) (site site' : SwitchSite) (w : Int32 × Int32) : Prop :=
  w.1 = w.2 ∨ ∃ p p', (site.pc < p ∧ p ≤ extent true segs) ∧
    (site'.pc < p' ∧ p' ≤ extent true segs) ∧
    w = (site.offset p, site'.offset p')

/-- The table of a switch with `n` keys is the segment at an index. -/
structure Sited (segs : List Seg) (k n : ℕ) (words : List (Int32 × Int32))
    (site site' : SwitchSite) :
    Prop where
  layout : site'.layout = site.layout
  lo : site'.lo = site.lo
  hi : site'.hi = site.hi
  near : site.pc = startAt false segs k
  far : site'.pc = startAt true segs k
  table : site.table = switchBase site.pc
  table' : site'.table = switchBase site'.pc
  seg : segs[k]? = some (.table site.layout.opcode words)
  keyed : Keyed site.layout site.lo site.hi n words

/-- Such a table whose targets are open or the offsets of places behind it. -/
structure Awaits (segs : List Seg) (k n : ℕ) (words : List (Int32 × Int32))
    (site site' : SwitchSite) :
    Prop extends Sited segs k n words site site' where
  landed : ∀ w ∈ words, Landed segs site site' w

variable {g g' : Ghost} {k n : ℕ} {words : List (Int32 × Int32)} {site site' : SwitchSite}
  {limited : Bool}

theorem Landed.mono {segs segs' : List Seg} {w : Int32 × Int32} (h : Landed segs site site' w)
    (hle : extent true segs ≤ extent true segs') : Landed segs' site site' w := by
  refine h.imp_right ?_
  rintro ⟨p, p', hp, hp', heq⟩
  exact ⟨p, p', ⟨hp.1, Nat.le_trans hp.2 hle⟩, ⟨hp'.1, Nat.le_trans hp'.2 hle⟩, heq⟩

theorem Sited.grown {F : Multiset ℕ} (h : Sited g.segs k n words site site') (hg : Grown F g g')
    (hk : k ∈ F) : Sited g'.segs k n words site site' := by
  obtain ⟨hseg, hstart⟩ := hg.same h.seg (by simp) hk
  exact { h with
    near := by rw [hstart, h.near]
    far := by rw [hstart, h.far]
    seg := hseg }

theorem Awaits.grown {F : Multiset ℕ} (h : Awaits g.segs k n words site site') (hg : Grown F g g')
    (hk : k ∈ F) : Awaits g'.segs k n words site site' :=
  ⟨h.toSited.grown hg hk, fun w hw => (h.landed w hw).mono hg.extent_le⟩

theorem Awaits.set {F : Multiset ℕ} {i : ℕ} {w : Int32 × Int32}
    (h : Awaits g.segs k n words site site') (hg : Grown F g g')
    (hset : Sited g'.segs k n (words.set i w) site site') (hw : Landed g.segs site site' w) :
    Awaits g'.segs k n (words.set i w) site site' := by
  refine ⟨hset, fun v hv => ?_⟩
  rcases List.mem_or_eq_of_mem_set hv with hv | rfl
  · exact (h.landed v hv).mono hg.extent_le
  · exact hw.mono hg.extent_le

theorem size_reworded (far : Bool) (op : Opcode) (words : List (Int32 × Int32)) (i : ℕ)
    (w : Int32 × Int32) (pc : ℕ) :
    (Seg.table op (words.set i w)).size far pc = (Seg.table op words).size far pc := by
  rw [Seg.size, Seg.size, List.length_set]

theorem Sited.set {segs : List Seg} (h : Sited segs k n words site site') (i : ℕ)
    {w : Int32 × Int32} (hkeyed : Keyed site.layout site.lo site.hi n (words.set i w)) :
    Sited (segs.set k (.table site.layout.opcode (words.set i w))) k n
      (words.set i w) site site' := by
  have hsize (far : Bool) := map_size_set h.seg (size_reworded far site.layout.opcode words i w)
  exact { h with
    near := by rw [startAt_congr (hsize false), h.near]
    far := by rw [startAt_congr (hsize true), h.far]
    seg := List.getElem?_set_self (List.getElem?_eq_some_iff.mp h.seg).1
    keyed := hkeyed }

/-- A place that the codes come to behind the switch. -/
theorem Sited.landed_entered {p p' : ℕ} (h : Sited g.segs k n words site site')
    (hp : g.Entered p p') :
    Landed g.segs site site' (site.offset p, site'.offset p') := by
  have hpos (far : Bool) : startAt far g.segs k < extent far g.segs := by
    have hend := end_le_extent far h.seg
    have hsize := Seg.size_pos far (startAt far g.segs k) (s := .table site.layout.opcode words)
      (.inr (by simp))
    omega
  have hle := extent_le g.segs
  refine .inr ⟨p, p', ⟨?_, ?_⟩, ⟨?_, ?_⟩, rfl⟩
  · rw [h.near, hp.near]
    exact hpos false
  · rw [hp.near]
    exact hle
  · rw [h.far, hp.far]
    exact hpos true
  · rw [hp.far]

/-- An offset of a place behind the switch is not taken for the mark of an open target. -/
theorem SwitchSite.offset_ne {p : ℕ} (h : site.pc < p) (hp : p < 0xFFFFFFFF) :
    site.offset p ≠ openTarget := by
  intro heq
  have hint := congrArg Int32.toInt heq
  rw [offset, Int32.toInt_ofInt, show openTarget.toInt = -1 from rfl, Int.bmod_def,
    show Int32.size = 0x100000000 from rfl] at hint
  split at hint <;> omega

theorem Landed.open_iff {w : Int32 × Int32} (h : Landed g.segs site site' w)
    (hshort : extent true g.segs < 0xFFFFFFFF) : w.1 = openTarget ↔ w.2 = openTarget := by
  rcases h with heq | ⟨p, p', hp, hp', rfl⟩
  · rw [heq]
  · exact iff_of_false (SwitchSite.offset_ne hp.1 (Nat.lt_of_le_of_lt hp.2 hshort))
      (SwitchSite.offset_ne hp'.1 (Nat.lt_of_le_of_lt hp'.2 hshort))

/-- The bounds of a table are those of its keys, and a dense table has some. -/
theorem bounds_of_chosen {keys : List Int32} (hlo : site.lo = keys.foldl min 0x7fffffff)
    (hhi : site.hi = keys.foldl max (-0x80000000))
    (hlayout : site.layout = Layout.choose keys.length site.lo.toInt site.hi.toInt) :
    (∀ key ∈ keys, site.lo.toInt ≤ key.toInt ∧ key.toInt ≤ site.hi.toInt) ∧
      (site.layout = .dense → site.lo.toInt ≤ site.hi.toInt) := by
  have hbounds (key : Int32) (hkey : key ∈ keys) :
      site.lo.toInt ≤ key.toInt ∧ key.toInt ≤ site.hi.toInt := by
    rw [← Int32.le_iff_toInt_le, ← Int32.le_iff_toInt_le, hlo, hhi]
    exact ⟨(foldl_min_le keys _).2 key hkey, (le_foldl_max keys _).2 key hkey⟩
  refine ⟨hbounds, fun hdense => ?_⟩
  cases keys with
  | nil =>
      rw [hlayout] at hdense
      cases hdense
  | cons key keys =>
      obtain ⟨hle, hle'⟩ := hbounds key (List.mem_cons_self ..)
      exact Int.le_trans hle hle'

theorem openTable_runs (keys : List Int32) (hg : g.live = true) :
    Runs limited g 0 (openTable keys) (openTable keys) fun g' m site site' => g'.Solid ∧
      (∀ key ∈ keys, site.lo.toInt ≤ key.toInt ∧ key.toInt ≤ site.hi.toInt) ∧
      ∃ k words, m = {k} ∧ Awaits g'.segs k keys.length words site site' := by
  rw [openTable_eq]
  refine .inGen (.of_code fun O c d waiting h hlive hch howned site c' site' d' hc hd => ?_)
  rw [zero_add] at howned
  obtain ⟨c₁, hcur, hc'⟩ := writeTable_ok hc
  obtain ⟨d₁, hcur', hd'⟩ := writeTable_ok hd
  obtain ⟨segs, habreast, hgrown, hlen, halive, hdepth, ⟨hpend, hpend'⟩, hfixed, hp, hp'⟩ :=
    Emit.curPc_tied h hlive hch howned hcur hcur'
  have hrests : c₁.Rests := ⟨halive.trans hg, hpend, Emit.curPc_line hcur, hfixed⟩
  have hrests' : d₁.Rests :=
    ⟨habreast.alive.symm.trans hrests.alive, hpend', Emit.curPc_line hcur', habreast.firm rfl⟩
  obtain ⟨htable, hlo, hhi, hlayout, rfl⟩ := hc' hrests
  obtain ⟨htable', hlo', hhi', hlayout', rfl⟩ := hd' hrests'
  rw [hlo', hhi', ← hlo, ← hhi, ← hlayout] at hlayout'
  have hlo' := hlo'.trans hlo.symm
  have hhi' := hhi'.trans hhi.symm
  obtain ⟨hbounds, hdense⟩ := bounds_of_chosen hlo hhi hlayout
  have hkeyed := keyed_openPairs keys.length hdense
  have hgoes : site.layout.opcode.effect.goesOn = true := by cases site.layout <;> decide +kernel
  have harr : Code.Arrived O { g with segs, firm := true } segs c₁ d₁ := {
    habreast with
    grown := .refl _ _
    length := rfl
    here := halive
    depth := hdepth
    pending := hpend
    pending' := hpend'
    loose := fun _ hloose => by
      rw [hfixed] at hloose
      cases hloose }
  obtain ⟨hwritten, hgrown', -, hdepth'⟩ := harr.write (e := site.layout.opcode.effect) hg
    (s := .table site.layout.opcode (openPairs site.layout site.lo site.hi keys.length))
    ⟨_, _, _, _, rfl, hkeyed⟩ (by simp) (encodes_table false ..) (encodes_table true ..)
  rw [Code.markLine_of_none hrests.line] at hwritten hdepth'
  rw [Code.markLine_of_none hrests'.line] at hwritten
  rw [hgoes] at hwritten hgrown'
  rw [hlayout', hlo', hhi']
  have hsolid (k : ℕ) (frame : Frame) : ¬ Trailing (segs ++ [.table site.layout.opcode
      (openPairs site.layout site.lo site.hi keys.length)]) k (.jump .goto frame) :=
        fun htrail => by
    cases (htrail.eq_of_concat (by simp)).2
  refine ⟨_, 0, {segs.length}, { hwritten with depth := hdepth', loose := ?_ }, ?_, ?_, ?_,
    hgrown.trans hgrown', ⟨hsolid, ?_⟩, hbounds, segs.length,
    openPairs site.layout site.lo site.hi keys.length, rfl, ?_⟩
  · exact fun _ k frame htrail => absurd htrail (hsolid k frame)
  · rw [Code.reachable, ((hrests.written _).applyEffect hgoes).alive]
    rfl
  · rw [Code.pending_applyEffect, Code.pending_applyEffect]
    show Chains _ c₁.pending d₁.pending _
    rw [hpend, hpend']
    exact .nil
  · rw [zero_add, Multiset.singleton_add]
    simpa [Ghost.wrote] using (howned.mono (Multiset.le_add_left _ _) (Nat.le_of_eq hlen.symm)).cons
  · simp only [Ghost.wrote]
    rw [startAt_append (Nat.le_refl _), startAt_length, extent_concat]
    exact Nat.lt_add_of_pos_right (Seg.size_pos false _ (.inr (by simp)))
  · have hpc : c₁.pc = site.pc := habreast.near.size.trans hp.symm
    have hpc' : d₁.pc = site'.pc := habreast.far.size.trans hp'.symm
    exact {
      layout := hlayout'
      lo := hlo'
      hi := hhi'
      near := by rw [Ghost.wrote, startAt_append (Nat.le_refl _), startAt_length, hp]
      far := by rw [Ghost.wrote, startAt_append (Nat.le_refl _), startAt_length, hp']
      table := hpc ▸ htable
      table' := hpc' ▸ htable'
      seg := by simp [Ghost.wrote]
      keyed := hkeyed
      landed := fun w hw => by
        obtain ⟨v, -, rfl⟩ := List.mem_map.mp hw
        exact .inl rfl }

/-- A word is filled in on both sides. -/
theorem Sited.set_runs (h : Sited g.segs k n words site site') {i : ℕ} (hi : i < words.length)
    (w : Int32 × Int32) (hkeyed : Keyed site.layout site.lo site.hi n (words.set i w)) :
    Runs limited g {k} (modify (·.set4 (site.table + 4 * i) w.1) : Emit Unit)
      (modify (·.set4 (site'.table + 4 * i) w.2)) fun g' m _ _ => m = {k} ∧
        Sited g'.segs k n (words.set i w) site site' := by
  refine .of_code fun O c d waiting hcd hlive hch howned _ c' _ d' hc hd => ?_
  cases hc
  cases hd
  have hsize (far : Bool) := size_reworded far site.layout.opcode words i w
  have hfree : k ∉ waiting + O := by
    have hnodup := howned.1
    rw [add_left_comm, Multiset.singleton_add, Multiset.nodup_cons] at hnodup
    exact hnodup.1
  have hgrown : Grown (waiting + O) g
      { g with segs := g.segs.set k (.table site.layout.opcode (words.set i w)) } :=
    .set rfl h.seg (hsize true) (.inl (hsize false)) hfree rfl rfl
  have hnear := hcd.near.reword h.seg hi w
  have hfar := hcd.far.reword h.seg hi w
  rw [← h.near, ← h.table] at hnear
  rw [← h.far, ← h.table'] at hfar
  obtain ⟨bs, hbs⟩ := c.set4_eq (site.table + 4 * i) w.1
  obtain ⟨bs', hbs'⟩ := d.set4_eq (site'.table + 4 * i) w.2
  simp only [wordOf, Bool.false_eq_true, if_false, if_true] at hnear hfar
  rw [hbs] at hnear
  rw [hbs'] at hfar
  refine ⟨{ g with segs := g.segs.set k (.table site.layout.opcode (words.set i w)) },
    waiting, {k}, ?_,
    ?_, ?_, ?_, hgrown.mono (Multiset.le_add_left _ _), rfl, h.set i hkeyed⟩
  all_goals dsimp only
  · rw [hbs, hbs']
    exact {
      hcd with
      near := hnear
      far := hfar
      sound := fun s hs => by
        rcases List.mem_or_eq_of_mem_set hs with hs | rfl
        · exact hcd.sound s hs
        · exact ⟨_, _, _, _, rfl, hkeyed⟩
      base := by
        rw [List.length_set]
        exact hcd.base
      dry := fun hdead => by
        have hmap := map_size_set h.seg (hsize false)
        rw [startAt_congr hmap, extent_congr hmap]
        exact hcd.dry hdead
      loose := fun hfixed j frame htrail =>
        hcd.loose hfixed j frame (htrail.of_set h.seg (by simp) (by simp)) }
  · rw [hbs]
    exact hlive
  · rw [hbs, hbs']
    exact hch.grown hgrown (Multiset.le_add_right _ _)
  · rw [List.length_set]
    exact howned

/-- A word is filled in on both sides, and then another step follows. -/
theorem Sited.set_bind {β : Type} {f f' : Unit → Gen β} {R : Ghost → Multiset ℕ → β → β → Prop}
    (h : Sited g.segs k n words site site') {i p p' : ℕ} (hi : i < words.length) (w : Int32 × Int32)
    (hp : p = site.table + 4 * i) (hp' : p' = site'.table + 4 * i)
    (hkeyed : Keyed site.layout site.lo site.hi n (words.set i w))
    (hf : ∀ g' u v, Grown 0 g g' → Sited g'.segs k n (words.set i w) site site' →
      Runs limited g' {k} (f u) (f' v) R) :
    Runs limited g {k} (touch (·.set4 p w.1) >>= f) (touch (·.set4 p' w.2) >>= f') R := by
  subst hp hp'
  refine .cast (.bind (h.set_runs hi w hkeyed).inGen fun g' m u v hg hset => ?_) (add_zero _).symm
  obtain ⟨rfl, hset⟩ := hset
  rw [add_zero]
  exact hf g' u v hg hset

theorem Sited.pos (h : Sited g.segs k n words site site') : 0 < words.length := by
  have hkeyed := h.keyed
  cases hlayout : site.layout with
  | dense =>
      rw [hlayout] at hkeyed
      obtain ⟨-, -, -, hlen⟩ := hkeyed
      omega
  | sparse =>
      rw [hlayout] at hkeyed
      obtain ⟨-, hlen, -⟩ := hkeyed
      omega

/-! ### Cases -/

variable {env : Env}

theorem cases_runs {frame frame' : Frame} (hframe : frame.Level frame') (henv : env.InStep)
    {codes : List (CaseCode × Option Int32)} (hcodes : ∀ c ∈ codes, Paces c.1.gen)
    (hbounds : ∀ c ∈ codes, ∀ key ∈ c.2, site.lo.toInt ≤ key.toInt ∧ key.toInt ≤ site.hi.toInt)
    {targets targets' : Array KeyTarget} (hkeys : targets.map Prod.fst = targets'.map Prod.fst)
    (hcount : targets.size + (codes.filterMap Prod.snd).length ≤ n)
    (h : Awaits g.segs k n words site site') :
    Runs true g {k} (cases site frame env codes targets) (cases site' frame' env codes targets')
      fun g' m a b => m = {k} ∧ (∃ words, Awaits g'.segs k n words site site') ∧
        a.map Prod.fst = b.map Prod.fst ∧ a.size ≤ n := by
  induction codes generalizing g words targets targets' with
  | nil => exact .pure ⟨rfl, ⟨words, h⟩, hkeys, by simpa using hcount⟩
  | cons c rest ih =>
      obtain ⟨c, key⟩ := c
      have hcode := marches_rangedStats c.stats RangeFlag.flowTarget
        ((hcodes _ (List.mem_cons_self ..)).marches henv)
      have hcodes' (c' : CaseCode × Option Int32) (hc' : c' ∈ rest) :=
        hcodes c' (List.mem_cons_of_mem _ hc')
      -- the code of the case, and then the other cases
      have hrest {g : Ghost} {words : List (Int32 × Int32)} {targets targets' : Array KeyTarget}
          (hkeys : targets.map Prod.fst = targets'.map Prod.fst)
          (hcount : targets.size + (rest.filterMap Prod.snd).length ≤ n)
          (h : Awaits g.segs k n words site site') : Runs true g {k} (do
            rangedStats c.stats RangeFlag.flowTarget (c.gen env)
            cases site frame env rest targets : Gen (Array KeyTarget)) (do
            rangedStats c.stats RangeFlag.flowTarget (c.gen env)
            cases site' frame' env rest targets') fun g' m a b => m = {k} ∧
              (∃ words, Awaits g'.segs k n words site site') ∧ a.map Prod.fst = b.map Prod.fst ∧
              a.size ≤ n := by
        refine hcode.step (fun _ => composed_cases site' frame' henv.isComposed
          (fun c hc => (hcodes' c hc).composed) targets') fun g₁ _ hg₁ => ?_
        exact ih hcodes' (fun c' hc' => hbounds c' (List.mem_cons_of_mem _ hc')) hkeys hcount
          (h.grown hg₁ (Multiset.mem_singleton_self k))
      unfold cases
      refine (Emit.entryWith_runs hframe).inGen.step fun g₁ p p' hg₁ hp => ?_
      have h₁ := h.grown hg₁ (Multiset.mem_singleton_self k)
      have hland := h₁.landed_entered hp
      dsimp only
      rw [h.layout]
      cases key with
      | none =>
          refine h₁.set_bind h.pos (site.offset p, site'.offset p') rfl rfl
            (h.keyed.set (fun _ => .inl rfl)
            fun _ => ⟨by omega, fun j hj => by omega⟩)
            fun g₂ _ _ hg₂ h₂ => hrest hkeys ?_ (h₁.set hg₂ h₂ hland)
          simpa using hcount
      | some key =>
          obtain ⟨hle, hle'⟩ := hbounds _ (List.mem_cons_self ..) key rfl
          simp only [List.filterMap_cons, List.length_cons] at hcount
          cases hlayout : site.layout with
          | dense =>
              have hkeyed := h.keyed
              rw [hlayout] at hkeyed
              obtain ⟨-, -, -, hlen⟩ := id hkeyed
              refine h₁.set_bind (i := (key.toInt - site.lo.toInt + 3).toNat) (by omega)
                (site.offset p, site'.offset p') rfl ?_ ?_ fun g₂ _ _ hg₂ h₂ =>
                  hrest hkeys (by omega) (h₁.set hg₂ h₂ hland)
              · rw [SwitchSite.slot, h.lo]
              · rw [hlayout]
                exact hkeyed.set (fun _ => .inr (by omega)) (by simp)
          | sparse =>
              refine hrest ?_ ?_ h₁
              · rw [Array.map_push, Array.map_push, hkeys]
              · rw [Array.size_push]
                omega

/-! ### Closing a table -/

/-- The words of a table as the codes hold them. -/
theorem Sited.get4_eq {F : Multiset ℕ} {s t : MethodState} {i : ℕ} {w : Int32 × Int32}
    (h : Sited g.segs k n words site site') (hst : Tied g F s t) (hw : words[i]? = some w) :
    s.asm.code.get4 (site.table + 4 * i) = w.1 ∧ t.asm.code.get4 (site'.table + 4 * i) = w.2 := by
  have hnear := (hst.code.near.stands k _ h.seg).2 i w hw
  have hfar := (hst.code.far.stands k _ h.seg).2 i w hw
  rw [← h.near, ← h.table] at hnear
  rw [← h.far, ← h.table'] at hfar
  exact ⟨Code.get4_of_intAt hnear, Code.get4_of_intAt hfar⟩

theorem touch_apply (f : Code → Code) (s : MethodState) :
    touch f s = .ok () { s with asm := { s.asm with code := f s.asm.code } } := rfl

theorem closeSlots_runs (hlayout : site.layout = .dense) (d d' : Int32) (m : ℕ)
    (h : Sited g.segs k n words site site') {i : ℕ} (hi : 3 ≤ i) (hlen : i + m ≤ words.length)
    (heven : ∀ j w, i ≤ j → words[j]? = some w → (w.1 = openTarget ↔ w.2 = openTarget)) :
    Runs limited g {k} (touch fun c => closeSlots d c (site.table + 4 * i) m)
      (touch fun c => closeSlots d' c (site'.table + 4 * i) m) fun _ _ _ _ => True := by
  induction m generalizing g words i with
  | zero =>
      rintro F s t hst a p b q ⟨⟩ ⟨⟩ -
      exact ⟨g, {k}, hst, .refl _ _, trivial⟩
  | succ m ih =>
      have hw := List.getElem?_eq_getElem (l := words) (i := i) (by omega)
      have hiff := heven i _ (Nat.le_refl i) hw
      have hread {F : Multiset ℕ} {s t : MethodState} (hst : Tied g F s t) := h.get4_eq hst hw
      have hnext (p : ℕ) : p + 4 * i + 4 = p + 4 * (i + 1) := by omega
      by_cases hopen : (words[i]).1 = openTarget
      · have hset := h.keyed.set (w := (d, d')) (i := i) (fun _ => .inr hi)
          fun hsparse => by rw [hlayout] at hsparse; cases hsparse
        refine Runs.congr_at (h.set_bind (by omega) (d, d') rfl rfl hset fun g₁ _ _ _ h₁ =>
          ih h₁ (i := i + 1) (by omega) (by rw [List.length_set]; omega) fun j w hj hjw => ?_)
          fun F s t hst => ⟨?_, ?_⟩
        · rw [List.getElem?_set_ne (by omega)] at hjw
          exact heven j w (by omega) hjw
        · rw [touch_apply, closeSlots, (hread hst).1, if_pos hopen, hnext]
          rfl
        · rw [touch_apply, closeSlots, (hread hst).2, if_pos (hiff.mp hopen), hnext]
          rfl
      · refine Runs.congr_at (ih h (i := i + 1) (by omega) (by omega) fun j w hj =>
          heven j w (by omega))
          fun F s t hst => ⟨?_, ?_⟩
        · rw [touch_apply, closeSlots, (hread hst).1, if_neg hopen, hnext]
          rfl
        · rw [touch_apply, closeSlots, (hread hst).2, if_neg (fun h => hopen (hiff.mpr h)), hnext]
          rfl

theorem writePairs_runs (hlayout : site.layout = .sparse) {pairs pairs' : List KeyTarget}
    (hkeys : pairs.map Prod.fst = pairs'.map Prod.fst) (h : Sited g.segs k n words site site')
    {j : ℕ} (hlen : 2 + 2 * j + 2 * pairs.length ≤ words.length) :
    Runs limited g {k} (touch fun c => writePairs c (site.table + 4 * (2 + 2 * j)) pairs)
      (touch fun c => writePairs c (site'.table + 4 * (2 + 2 * j)) pairs') fun _ _ _ _ => True := by
  induction pairs generalizing g words j pairs' with
  | nil =>
      rw [List.map_nil, eq_comm, List.map_eq_nil_iff] at hkeys
      subst hkeys
      rintro F s t hst a p b q ⟨⟩ ⟨⟩ -
      exact ⟨g, {k}, hst, .refl _ _, trivial⟩
  | cons pair pairs ih =>
      obtain ⟨key, target⟩ := pair
      match pairs', hkeys with
      | (key', target') :: pairs', hkeys =>
          obtain ⟨rfl, hrest⟩ := List.cons.inj hkeys
          rw [List.length_cons] at hlen
          have hset {words : List (Int32 × Int32)}
              (h : Keyed site.layout site.lo site.hi n words) {i : ℕ}
              (hi : 2 ≤ i) {w : Int32 × Int32} (hw : ∀ j, i = 2 + 2 * j → w.1 = w.2) :=
            h.set (w := w) (i := i) (fun hdense => by rw [hlayout] at hdense; cases hdense)
              fun _ => ⟨by omega, hw⟩
          refine Runs.congr_at (h.set_bind (i := 2 + 2 * j) (by omega) (key, key) rfl rfl
            (hset h.keyed (by omega) fun _ _ => rfl) fun g₁ _ _ _ h₁ =>
              h₁.set_bind (i := 2 + 2 * j + 1)
              (by rw [List.length_set]; omega) (target, target') rfl rfl
              (hset h₁.keyed (by omega) fun _ _ => by omega) fun g₂ _ _ _ h₂ =>
                ih hrest h₂ (j := j + 1) ?_)
            fun F s t _ => ⟨?_, ?_⟩
          · rw [List.length_set, List.length_set]
            omega
          · rw [touch_apply, writePairs_cons]
            rfl
          · rw [touch_apply, writePairs_cons]
            rfl

/-- Settles the keys that are still open, once the default is settled. -/
def fillTable (site : SwitchSite) (targets : Array KeyTarget) (c : Code) : Code :=
  if site.layout = .dense then closeSlots (c.get4 site.table) c (site.slot site.lo) site.width
  else writePairs c (site.table + 8) (sortKeys targets).toList

theorem closeTable_eq (site : SwitchSite) (frame : Frame) (targets : Array KeyTarget) :
    closeTable site frame targets = (do
      if (← peek (·.get4 site.table)) = openTarget then
        let pc ← Emit.entryWith frame
        touch (·.set4 site.table (site.offset pc))
      touch (fillTable site targets)) := by
  unfold closeTable fillTable
  cases site.layout <;> rfl

theorem fillTable_runs {targets targets' : Array KeyTarget}
    (hkeys : targets.map Prod.fst = targets'.map Prod.fst) (hcount : targets.size ≤ n)
    (h : Sited g.segs k n words site site')
    (heven : ∀ j w, 3 ≤ j → words[j]? = some w → (w.1 = openTarget ↔ w.2 = openTarget)) :
    Runs limited g {k} (touch (fillTable site targets)) (touch (fillTable site' targets'))
      fun _ _ _ _ => True := by
  have hkeyed := h.keyed
  have hlayout' := h.layout
  cases hlayout : site.layout with
  | dense =>
      rw [hlayout] at hkeyed hlayout'
      obtain ⟨-, -, -, hlen⟩ := hkeyed
      obtain ⟨default, hdefault⟩ : ∃ w, words[0]? = some w := ⟨_, List.getElem?_eq_getElem h.pos⟩
      have hslot (site : SwitchSite) : site.slot site.lo = site.table + 4 * 3 := by
        rw [SwitchSite.slot, Int.sub_self]
        rfl
      have hwidth : site'.width = site.width := by
        rw [SwitchSite.width, h.lo, h.hi, SwitchSite.width]
      refine Runs.congr_at (closeSlots_runs hlayout default.1 default.2 site.width h (Nat.le_refl 3)
        (Nat.le_of_eq hlen.symm) heven) fun F s t hst => ?_
      have hread := h.get4_eq hst hdefault
      simp only [Nat.mul_zero, Nat.add_zero] at hread
      simp only [touch_apply, fillTable, hlayout, hlayout', if_true, hread, hslot, hwidth, and_self]
  | sparse =>
      rw [hlayout] at hkeyed hlayout'
      obtain ⟨-, hlen, -⟩ := hkeyed
      have hsorted : (sortKeys targets).toList.map Prod.fst =
          (sortKeys targets').toList.map Prod.fst := by
        rw [← Array.toList_map, ← Array.toList_map, sortKeys_keys hkeys]
      have hsize : (sortKeys targets).toList.length = targets.size :=
        (sortKeys_perm targets).length_eq
      refine Runs.congr_at (writePairs_runs (j := 0) hlayout hsorted h (by omega))
        fun F s t hst => ?_
      simp only [touch_apply, fillTable, hlayout, hlayout', reduceCtorEq, if_false, and_self]

theorem closeTable_runs {frame frame' : Frame} (hframe : frame.Level frame')
    {targets targets' : Array KeyTarget} (hkeys : targets.map Prod.fst = targets'.map Prod.fst)
    (hcount : targets.size ≤ n) (h : Awaits g.segs k n words site site') :
    Runs true g {k} (closeTable site frame targets) (closeTable site' frame' targets')
      (Plain fun _ _ _ => True) := by
  refine .drop (.whenShort (composed_closeTable ..) fun hshort => ?_)
  rw [closeTable_eq, closeTable_eq]
  refine .peek_bind fun F s t hst => ?_
  obtain ⟨default, hdefault⟩ : ∃ w, words[0]? = some w := ⟨_, List.getElem?_eq_getElem h.pos⟩
  have heven (w : Int32 × Int32) (hw : w ∈ words) := (h.landed w hw).open_iff hshort
  have hread := h.get4_eq hst hdefault
  simp only [Nat.mul_zero, Nat.add_zero] at hread
  rw [hread.1, hread.2]
  refine .ite (heven default (List.mem_of_getElem? hdefault)) (fun _ => ?_) fun _ => ?_
  · refine (Emit.entryWith_runs hframe).inGen.step fun g₁ p p' hg₁ hp => ?_
    have h₁ := h.toSited.grown hg₁ (Multiset.mem_singleton_self k)
    refine h₁.set_bind h.pos (site.offset p, site'.offset p') rfl rfl
      (h.keyed.set (fun _ => .inl rfl)
      fun _ => ⟨by omega, fun j hj => by omega⟩) fun g₂ _ _ _ h₂ =>
        fillTable_runs hkeys hcount h₂ fun j w hj hw => ?_
    rw [List.getElem?_set_ne (by omega)] at hw
    exact heven w (List.mem_of_getElem? hw)
  · exact fillTable_runs hkeys hcount h.toSited fun j w _ hw => heven w (List.mem_of_getElem? hw)

/-! ### The statement -/

theorem answers_ranged {α : Type} {x : Gen α} {P : α → Prop} (span : Span) (flags : UInt16)
    (h : Answers x P) : Answers (ranged span flags x) P := by
  refine .after fun _ => ?_
  split
  · exact h
  · exact .after fun _ => h.bind fun a ha => .after fun _ => .after fun _ => .pure ha

theorem filterMap_zip_le {α β : Type} (xs : List α) (ys : List (Option β)) :
    ((xs.zip ys).filterMap Prod.snd).length ≤ (ys.filterMap id).length := by
  induction xs generalizing ys with
  | nil => simp
  | cons x xs ih =>
      cases ys with
      | nil => simp
      | cons y ys =>
          have hrest := ih ys
          cases y <;> simpa using hrest

/-- The cases of a switch with their table, once the key is on the stack. -/
theorem table_runs {codes : List CaseCode} (h : ∀ c ∈ codes, Paces c.gen) (henv : env.InStep)
    (keys : List (Option Int32)) (hg : g.live = true) : Runs true g 0 (do
      let site ← openTable (keys.filterMap id)
      let frame ← peek (·.frame)
      touch (·.kill)
      let targets ← cases site frame env (codes.zip keys) #[]
      resolveExit env.scope
      closeTable site frame targets : Gen Unit) (do
      let site ← openTable (keys.filterMap id)
      let frame ← peek (·.frame)
      touch (·.kill)
      let targets ← cases site frame env (codes.zip keys) #[]
      resolveExit env.scope
      closeTable site frame targets) (Plain fun _ _ _ => True) := by
  have hcodes (c : CaseCode × Option Int32) (hc : c ∈ codes.zip keys) : Paces c.1.gen :=
    h c.1 (List.of_mem_zip hc).1
  refine (openTable_runs _ hg).next fun g₁ m site site' ⟨hsolid, hbounds, k, words, hm, hawaits⟩ =>
    ?_
  subst hm
  have hkeys (c : CaseCode × Option Int32) (hc : c ∈ codes.zip keys) (key : Int32)
      (hkey : key ∈ c.2) :
      site.lo.toInt ≤ key.toInt ∧ key.toInt ≤ site.hi.toInt :=
    hbounds key (List.mem_filterMap.mpr ⟨c.2, (List.of_mem_zip hc).2, hkey⟩)
  refine .peek_bind fun F s t hst => ?_
  have hframe : s.asm.code.frame.Level t.asm.code.frame := hst.code.frame
  refine (Emit.kill_runs fun _ => hsolid).touch.step fun g₂ _ _ hg₂ _ => ?_
  have hawaits₂ := hawaits.grown hg₂ (Multiset.mem_singleton_self k)
  have hcount : (#[] : Array KeyTarget).size + ((codes.zip keys).filterMap Prod.snd).length ≤
      (keys.filterMap id).length := by
    simpa using filterMap_zip_le codes keys
  have hsame : (#[] : Array KeyTarget).map Prod.fst = (#[] : Array KeyTarget).map Prod.fst := rfl
  have hcases := cases_runs hframe henv hcodes hkeys hsame hcount hawaits₂
  refine .cast (.seq hcases (fun _ => ⟨composed_cases site' _ henv.isComposed
    (fun c hc => (hcodes c hc).composed) #[], fun targets => (composed_resolveExit _).bind fun _ =>
    composed_closeTable site' _ targets⟩) fun g₃ m targets targets' _ htargets => ?_)
      (add_zero _).symm
  obtain ⟨rfl, ⟨words₃, hawaits₃⟩, hsame, hsize⟩ := htargets
  rw [add_zero]
  refine (straight_resolveExit _).step fun g₄ _ hg₄ _ => ?_
  exact closeTable_runs hframe hsame hsize (hawaits₃.grown hg₄ (Multiset.mem_singleton_self k))

theorem proceeds_switch (info : StmtInfo) {selector : ExprCode} (hs : selector.Paces)
    {codes : List CaseCode} (h : ∀ c ∈ codes, Paces c.gen) (henv : env.InStep) :
    Proceeds (switch info selector codes env) := by
  have hbody (inner : Env) (hinner : inner.InStep) : Proceeds (do
      let keys ← caseKeys codes false
      let site ← openTable (keys.filterMap id)
      let frame ← peek (·.frame)
      touch (·.kill)
      let targets ← cases site frame inner (codes.zip keys) #[]
      resolveExit inner.scope
      closeTable site frame targets : Gen Unit) :=
    ⟨composed_table (fun c hc => (h c hc).composed) hinner.isComposed, fun g hg =>
      .liftExcept_bind fun keys _ => table_runs h hinner keys hg⟩
  refine proceeds_freeing ⟨?_, fun g hg => ?_⟩
  · exact .optional (.throw rfl) fun _ => (composed_ranged _ _ (hs.composed.push _)).bind fun _ =>
      .ite (Item.composed_discard _).onAsm <| composed_withScope _ _ henv.isComposed
        fun _ hinner => composed_table (fun c hc => (h c hc).composed) hinner
  · have hkey (g : Ghost) : Runs false g 0
        (ranged selector.bareSpan RangeFlag.flowController (selector.push .int))
        (ranged selector.bareSpan RangeFlag.flowController (selector.push .int))
        (Plain (OnStack g)) :=
      (straight_ranged _ _ (hs.straight_push _)).onStack (answers_ranged _ _ (.after fun _ =>
        (Item.answers_load _).asmInGen))
    refine .optional (P := fun g' _ _ => g'.live = true) .rfl (fun _ => .throw) (fun _ => hg)
      fun g₁ _ _ _ hg₁ => ?_
    refine (hkey g₁).step fun g₂ key _ _ ⟨hsame, hplain, hlive⟩ => ?_
    subst hsame
    refine .ite .rfl (fun _ => ?_) fun _ => ?_
    · exact (Item.discard_runs (.same hplain)).asmInGen.mono fun _ _ _ _ h => ⟨h.1, trivial⟩
    · exact withScope_runs .switch info env
        (fun id => (hbody _ (henv.inside id)).composed) fun id =>
        (hbody _ (henv.inside id)).runs g₂ (hlive hg₁)

end Gen

end StackCode
