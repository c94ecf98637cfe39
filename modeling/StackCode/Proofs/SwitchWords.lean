import Mathlib.Logic.Function.Basic
import StackCode.Proofs.KeySorting
import StackCode.Proofs.SparingStatements

/-!
# The words of a switch

`SwitchLog` says where the instruction of a switch stands and where the bodies of its cases begin;
`Gen.switchLogged` is the generator with that log kept, and `switch_eq` says that it is the
generator. `SwitchSite.Tabled` says which words a table holds: at first every target is open, a
case settles its own, and in the end those that are still open go to the default, or behind the
switch if there is none. Read back, such a table sends every key where the log says
(`Tabled.dense_dispatch`, `Tabled.sparse_dispatch`).
-/

set_option maxRecDepth 4000

namespace StackCode

open Instruction

/-! ### Looking up keys -/

theorem lookup_of_mem {α β : Type} [BEq α] [LawfulBEq α] {l : List (α × β)} {a : α} {b : β}
    (h : (l.map Prod.fst).Nodup) (hmem : (a, b) ∈ l) : l.lookup a = some b := by
  induction l with
  | nil => exact absurd hmem List.not_mem_nil
  | cons p l ih =>
      obtain ⟨hhead, htail⟩ := List.nodup_cons.mp h
      rcases List.mem_cons.mp hmem with rfl | hmem
      · exact List.lookup_cons_self
      · have hne : (a == p.1) = false := by
          rw [beq_eq_false_iff_ne]
          rintro rfl
          exact hhead (List.mem_map.mpr ⟨_, hmem, rfl⟩)
        rw [List.lookup_cons, hne]
        exact ih htail hmem

theorem mem_of_lookup {α β : Type} [BEq α] [LawfulBEq α] {l : List (α × β)} {a : α} {b : β}
    (h : l.lookup a = some b) : (a, b) ∈ l := by
  obtain ⟨front, back, rfl, -⟩ := List.lookup_eq_some_iff.mp h
  simp

theorem lookup_eq_none_of_not_mem {α β : Type} [BEq α] [LawfulBEq α] {l : List (α × β)} {a : α}
    (h : a ∉ l.map Prod.fst) : l.lookup a = none := by
  cases hlookup : l.lookup a with
  | none => rfl
  | some b => exact absurd (List.mem_map_of_mem (f := Prod.fst) (mem_of_lookup hlookup)) h

/-- A key of a table that is indexed by consecutive keys. -/
theorem lookup_consecutive (lo : Int) (f : ℕ → ℕ) (n : ℕ) (key : Int) :
    ((List.range n).map fun i : ℕ => (lo + i, f i)).lookup key =
      if lo ≤ key ∧ key < lo + n then some (f (key - lo).toNat) else none := by
  induction n with
  | zero => simp
  | succ n ih =>
      rw [List.range_succ, List.map_append, List.lookup_append, ih, List.map_singleton,
        List.lookup_cons]
      by_cases hlast : key = lo + n
      · subst hlast
        simp
      · have hne : (key == lo + (n : Int)) = false := by simpa using hlast
        rw [hne]
        by_cases hin : lo ≤ key ∧ key < lo + n
        · rw [if_pos hin, if_pos (by omega)]
          rfl
        · rw [if_neg hin, if_neg (by omega)]
          rfl

/-- A word is written somewhere, be it in the zone. -/
theorem Zone.Clear.reword {z : Zone} {c : Code} (h : z.Clear c) (p : ℕ) (v : Int32) :
    z.Clear (c.set4 p v) := by
  obtain ⟨bs, hbs⟩ := c.set4_eq p v
  have hsize := c.size_set4 p v
  rw [hbs] at hsize ⊢
  exact ⟨h.wide, by rw [Code.pc, hsize]; exact h.behind, h.pending⟩

/-- No scope is open yet whose jumps could be in the zone. -/
theorem Zone.Apart.fresh {z : Zone} {σ : Scopes} (h : z.base = σ.depth) : z.Apart σ := by
  refine ⟨h.le, fun id hid => ?_⟩
  rw [Scopes.get_of_depth_le (h ▸ hid)]
  exact ⟨.nil, .nil⟩

/-! ### Where keys lead -/

/-- Where control goes for a key. -/
def SwitchTable.dispatch (t : SwitchTable) (key : Int32) : ℕ :=
  (t.cases.lookup key.toInt).getD t.default

/-- What the instruction `op` says of the keys of a table for `labels`: a sparse one lists them all
in ascending order, a dense one has every key from the least label to the greatest. -/
def SwitchTable.LaidOut (t : SwitchTable) (op : Opcode) (labels : List Int32) : Prop :=
  op = .lookupswitch ∧ (t.cases.map Prod.fst).Pairwise (· < ·) ∧ t.cases.length = labels.length ∨
    op = .tableswitch ∧ ∃ lo ∈ labels, ∃ hi ∈ labels, (∀ label ∈ labels, lo ≤ label ∧ label ≤ hi) ∧
      t.cases.map Prod.fst = (List.range (hi.toInt - lo.toInt + 1).toNat).map fun i : ℕ =>
        lo.toInt + i

/-- The key of a case; the default has none. -/
def Case.key : Case → Option Int32
  | .mk _ label _ => label.bind fun e => e.info.const.map Const.toInt32

/-- Where a switch and the bodies of its cases stand. -/
structure SwitchLog where
  /-- the position of the instruction -/
  pc : ℕ
  /-- the positions at which the cases begin, each with the key of the case -/
  starts : List (Option Int32 × ℕ)

/-- Where a key leads if the cases begin at `starts` and the switch ends at `join`: to its case,
else to the default, else behind the switch. Without a key it is one that has no case. -/
def targetAmong (starts : List (Option Int32 × ℕ)) (join : ℕ) : Option Int32 → ℕ
  | none => (starts.lookup none).getD join
  | some key => (starts.lookup (some key)).getD ((starts.lookup none).getD join)

namespace Gen

/-- Settles the target of a case that begins at `pc`, in the table or among the targets that are
listed later. -/
def settle (site : SwitchSite) (key : Option Int32) (pc : ℕ) (targets : Array KeyTarget) :
    Gen (Array KeyTarget) :=
  match key, site.layout with
  | none, _ => do
    touch (·.set4 site.table (site.offset pc))
    return targets
  | some k, .dense => do
    touch (·.set4 (site.slot k) (site.offset pc))
    return targets
  | some k, .sparse => return targets.push (k, site.offset pc)

/-- The cases of a switch, answering also with the places at which they begin. -/
def casesLogged (site : SwitchSite) (frame : Frame) (env : Env) :
    List (CaseCode × Option Int32) → Array KeyTarget → Gen
      (Array KeyTarget × List (Option Int32 × ℕ))
  | [], targets => return (targets, [])
  | (c, key) :: rest, targets => do
    let pc ← Emit.entryWith frame
    let targets ← settle site key pc targets
    rangedStats c.stats RangeFlag.flowTarget (c.gen env)
    let (targets, starts) ← casesLogged site frame env rest targets
    return (targets, (key, pc) :: starts)

/-- The table of a switch and its cases, with a log. -/
def tableLogged (info : StmtInfo) (codes : List CaseCode) (env : Env) : Gen SwitchLog := do
  let scope ← Scoping.openScope .switch (some info.id) env.scope
  let keys ← caseKeys codes false
  let site ← openTable (keys.filterMap id)
  let frame ← peek (·.frame)
  touch (·.kill)
  let (targets, starts) ← casesLogged site frame (env.inside scope) (codes.zip keys) #[]
  resolveExit scope
  closeTable site frame targets
  Scoping.closeScope scope
  return ⟨site.pc, starts⟩

/-- A switch with a log, if it has any cases. -/
def switchLogged (info : StmtInfo) (selector : ExprCode) (codes : List CaseCode) (env : Env) :
    Gen (Option SwitchLog) :=
  freeing do
    if !selector.info.ty.isIntLike then
      throw (.unlowered .nonIntegralSwitch selector.info.span.firstLine)
    let key ← ranged selector.bareSpan RangeFlag.flowController (selector.push .int)
    if codes.isEmpty then
      key.discard
      return none
    else return some (← tableLogged info codes env)

theorem cases_eq (site : SwitchSite) (frame : Frame) (env : Env)
    (codes : List (CaseCode × Option Int32)) (targets : Array KeyTarget) :
    cases site frame env codes targets =
      (return (← casesLogged site frame env codes targets).1) := by
  induction codes generalizing targets with
  | nil => simp [cases, casesLogged]
  | cons c rest ih =>
      obtain ⟨c, key⟩ := c
      unfold cases casesLogged settle
      simp only [bind_assoc, pure_bind, ih]
      refine bind_congr fun pc => ?_
      cases key with
      | none => simp
      | some k => cases site.layout <;> simp

/-- Keeping the log does not change what is generated. -/
theorem switch_eq (info : StmtInfo) (selector : ExprCode) (codes : List CaseCode) (env : Env) :
    switch info selector codes env = (do let _ ← switchLogged info selector codes env) := by
  unfold switch switchLogged tableLogged freeing withScope
  simp only [cases_eq, bind_assoc, pure_bind]
  refine bind_congr fun first => ?_
  split
  · rfl
  · simp only [bind_assoc]
    refine bind_congr fun key => ?_
    split
    · simp only [bind_assoc, pure_bind]
    · simp only [bind_assoc, pure_bind]
      rfl

/-! ### The words of a table -/

namespace SwitchSite

variable {site : SwitchSite} {n : ℕ} {word : Option Int32 → Int32} {bs bs' : Array UInt8} {c : Code}
  {starts : List (Option Int32 × ℕ)} {key key' : Int32}

/-- The position behind the table of a switch with `n` keys. -/
def tableEnd (site : SwitchSite) (n : ℕ) : ℕ := site.table + 4 * site.words n

/-- A key that a dense table has a word for. -/
def Covers (site : SwitchSite) (key : Int32) : Prop :=
  site.lo.toInt ≤ key.toInt ∧ key.toInt ≤ site.hi.toInt

/-- The bytes at a site are a switch with the words that `word` says, for `none` the one of the
default. Only a dense table has a word of its own for a key. -/
structure Tabled (site : SwitchSite) (n : ℕ) (word : Option Int32 → Int32)
    (bs : Array UInt8) : Prop where
  size : site.tableEnd n ≤ bs.size
  opcode : bs[site.pc]? = some site.layout.opcode
  bounds : site.layout = .dense →
    intAt bs (site.table + 4) = .ok site.lo.toInt ∧ intAt bs (site.table + 8) = .ok site.hi.toInt
  count : site.layout = .sparse → intAt bs (site.table + 4) = .ok (Int32.ofNat n).toInt
  default : intAt bs site.table = .ok (word none).toInt
  slots : site.layout = .dense → ∀ key, site.Covers key →
    intAt bs (site.slot key) = .ok (word (some key)).toInt

theorem table_lt_tableEnd (site : SwitchSite) (n : ℕ) :
    site.table + (if site.layout = .dense then 12 else 8) ≤ site.tableEnd n := by
  unfold tableEnd words
  cases site.layout <;> simp <;> omega

theorem slot_within (hlayout : site.layout = .dense) (h : site.Covers key) :
    site.table + 12 ≤ site.slot key ∧ site.slot key + 4 ≤ site.tableEnd n := by
  obtain ⟨hlo, hhi⟩ := h
  rw [tableEnd, words_dense hlayout, slot, width]
  omega

/-- The words of two keys are apart. -/
theorem slot_apart (h : site.Covers key) (h' : site.Covers key') (hne : key ≠ key') :
    site.slot key + 4 ≤ site.slot key' ∨ site.slot key' + 4 ≤ site.slot key := by
  have hint : key.toInt ≠ key'.toInt := fun heq => hne (Int32.toInt_inj.mp heq)
  obtain ⟨hlo, -⟩ := h
  obtain ⟨hlo', -⟩ := h'
  unfold slot
  omega

theorem Tabled.of_agree (h : site.Tabled n word bs) (hsize : site.tableEnd n ≤ bs'.size)
    (hpc : site.pc < site.table) (hab : Agree bs bs' site.pc (site.tableEnd n)) :
    site.Tabled n word bs' := by
  have hend := site.table_lt_tableEnd n
  have hword {p : ℕ} (hp : site.table ≤ p) (hp' : p + 4 ≤ site.tableEnd n) :
      intAt bs' p = intAt bs p :=
    intAt_congr (hab.mono (by omega) hp')
  refine ⟨hsize, ?_, fun hlayout => ?_, fun hlayout => ?_, ?_, fun hlayout key hkey => ?_⟩
  · rw [hab site.pc (Nat.le_refl _) (by split at hend <;> omega)]
    exact h.opcode
  · rw [if_pos hlayout] at hend
    rw [hword (by omega) (by omega), hword (by omega) (by omega)]
    exact h.bounds hlayout
  · rw [if_neg (by rw [hlayout]; decide)] at hend
    rw [hword (by omega) (by omega)]
    exact h.count hlayout
  · rw [hword (Nat.le_refl _) (by split at hend <;> omega)]
    exact h.default
  · obtain ⟨hslot, hslot'⟩ := slot_within (n := n) hlayout hkey
    rw [hword (by omega) hslot']
    exact h.slots hlayout key hkey

/-- Only the words matter that the table has. -/
theorem Tabled.congr {word' : Option Int32 → Int32} (h : site.Tabled n word bs)
    (hnone : word' none = word none)
    (hslots : site.layout = .dense → ∀ key, site.Covers key → word' (some key) = word (some key)) :
    site.Tabled n word' bs where
  size := h.size
  opcode := h.opcode
  bounds := h.bounds
  count := h.count
  default := hnone ▸ h.default
  slots := fun hlayout key hkey => by
    rw [hslots hlayout key hkey]
    exact h.slots hlayout key hkey

theorem Tabled.setDefault (h : site.Tabled n word c.bytes) (hpc : site.pc < site.table)
    (v : Int32) :
    site.Tabled n (Function.update word none v) (c.set4 site.table v).bytes := by
  have hend := site.table_lt_tableEnd n
  have hsize := h.size
  have hword {p : ℕ} (hp : site.table + 4 ≤ p) :
      intAt (c.set4 site.table v).bytes p = intAt c.bytes p :=
    intAt_congr (Zone.agree_set4 c v (.inr hp))
  refine ⟨by rw [Code.size_set4]; exact hsize, ?_, fun hlayout => ?_, fun hlayout => ?_, ?_,
    fun hlayout key hkey => ?_⟩
  · rw [Zone.agree_set4 c v (.inl (by omega : site.pc + 1 ≤ site.table)) site.pc (Nat.le_refl _)
      (Nat.lt_succ_self _)]
    exact h.opcode
  · rw [hword (Nat.le_refl _), hword (by omega)]
    exact h.bounds hlayout
  · rw [hword (Nat.le_refl _)]
    exact h.count hlayout
  · rw [Function.update_self]
    exact c.intAt_set4 _ _ (by split at hend <;> omega)
  · obtain ⟨hslot, -⟩ := slot_within (n := n) hlayout hkey
    rw [hword (by omega), Function.update_of_ne (Option.some_ne_none _)]
    exact h.slots hlayout key hkey

theorem Tabled.setSlot (h : site.Tabled n word c.bytes) (hpc : site.pc < site.table)
    (hlayout : site.layout = .dense) (hkey : site.Covers key) (v : Int32) :
    site.Tabled n (Function.update word (some key) v) (c.set4 (site.slot key) v).bytes := by
  have hsize := h.size
  obtain ⟨hslot, hslot'⟩ := slot_within (n := n) hlayout hkey
  have hword {p : ℕ} (hp : p + 4 ≤ site.slot key ∨ site.slot key + 4 ≤ p) :
      intAt (c.set4 (site.slot key) v).bytes p = intAt c.bytes p :=
        intAt_congr (Zone.agree_set4 c v hp)
  refine ⟨by rw [Code.size_set4]; exact hsize, ?_, fun _ => ?_, fun hsparse => ?_, ?_,
    fun _ key' hkey' => ?_⟩
  · rw [Zone.agree_set4 c v (.inl (by omega : site.pc + 1 ≤ site.slot key)) site.pc (Nat.le_refl _)
      (Nat.lt_succ_self _)]
    exact h.opcode
  · rw [hword (by omega), hword (by omega)]
    exact h.bounds hlayout
  · rw [hlayout] at hsparse
    cases hsparse
  · rw [hword (by omega), Function.update_of_ne (Option.some_ne_none _).symm]
    exact h.default
  · by_cases heq : key' = key
    · subst heq
      rw [Function.update_self]
      exact c.intAt_set4 _ _ (by omega)
    · rw [hword ((slot_apart hkey' hkey heq).imp id id), Function.update_of_ne (by simpa using heq)]
      exact h.slots hlayout key' hkey'

/-- The word of a key once the cases that begin at `starts` are settled. -/
def startWord (site : SwitchSite) (starts : List (Option Int32 × ℕ)) (key : Option Int32) : Int32 :=
  ((starts.lookup key).map site.offset).getD openTarget

theorem startWord_concat {key : Option Int32} (hnew : key ∉ starts.map Prod.fst) (pc : ℕ) :
    site.startWord (starts ++ [(key, pc)]) = Function.update (site.startWord starts) key
      (site.offset pc) := by
  funext key'
  unfold startWord
  rw [List.lookup_append]
  by_cases heq : key' = key
  · subst heq
    rw [lookup_eq_none_of_not_mem hnew, Function.update_self, List.lookup_cons_self]
    rfl
  · have hne : (key' == key) = false := by simpa using heq
    rw [Function.update_of_ne heq, List.lookup_cons, hne, List.lookup_nil, Option.or_none]

/-- The targets that a sparse table lists, in the order of the cases. -/
def listed (site : SwitchSite) (starts : List (Option Int32 × ℕ)) : List KeyTarget :=
  starts.filterMap fun start => start.1.map fun key => (key, site.offset start.2)

theorem listed_concat (key : Option Int32) (pc : ℕ) :
    site.listed (starts ++ [(key, pc)]) = site.listed starts ++
      (key.map fun k => (k, site.offset pc)).toList := by
  cases key <;> simp [listed, List.filterMap_append]

end SwitchSite

/-! ### Opening a table -/

/-- A step on the code, taken in the state around it. -/
theorem emit_ok {α : Type} {x : Emit α} {a : α} {s s' : MethodState}
    (hrun : (liftM x : Gen α) s = .ok a s') :
    ∃ c', x s.asm.code = .ok a c' ∧ s' = Part.put c' s := by
  rw [← Part.lift_emit, Part.lift] at hrun
  split at hrun
  · cases hrun
    exact ⟨_, ‹_›, rfl⟩
  · cases hrun

theorem entryWith_here {frame : Frame} {pc : ℕ} {c c' : Code}
    (hrun : Emit.entryWith frame c = .ok pc c') :
    c'.pc = pc ∧ c'.pending = [] := by
  obtain ⟨c₁, hcur, rfl⟩ := Emit.entryWith_ok hrun
  obtain ⟨c₂, hpending, rfl, rfl⟩ := Emit.curPc_ok hcur
  refine ⟨rfl, ?_⟩
  obtain ⟨line, lines, hline, -⟩ := c₂.markLine_eq
  dsimp only [Code.noteDepth]
  rw [hline]
  exact (Emit.pending_resolvePending hpending).1

/-- What a switch over `keys` is when it has just been written. -/
structure SwitchSite.Written (site : SwitchSite) (keys : List Int32) (c : Code) : Prop where
  base : site.table = switchBase site.pc
  tabled : site.Tabled keys.length (site.startWord []) c.bytes
  ends : c.pc = site.tableEnd keys.length
  pending : c.pending = []
  covers : ∀ key ∈ keys, site.Covers key
  bounds : site.layout = .dense → site.lo ∈ keys ∧ site.hi ∈ keys

theorem foldl_min_eq_or_mem (keys : List Int32) (a : Int32) :
    keys.foldl min a = a ∨ keys.foldl min a ∈ keys := by
  induction keys generalizing a with
  | nil => exact .inl rfl
  | cons b keys ih =>
      rcases ih (min a b) with h | h
      · have hmin : min a b = a ∨ min a b = b := by
          show (if a ≤ b then a else b) = a ∨ (if a ≤ b then a else b) = b
          split
          · exact .inl rfl
          · exact .inr rfl
        rcases hmin with hmin | hmin
        · exact .inl (h.trans hmin)
        · exact .inr (List.mem_cons.mpr (.inl (h.trans hmin)))
      · exact .inr (List.mem_cons_of_mem _ h)

theorem foldl_max_eq_or_mem (keys : List Int32) (a : Int32) :
    keys.foldl max a = a ∨ keys.foldl max a ∈ keys := by
  induction keys generalizing a with
  | nil => exact .inl rfl
  | cons b keys ih =>
      rcases ih (max a b) with h | h
      · have hmax : max a b = a ∨ max a b = b := by
          show (if a ≤ b then b else a) = a ∨ (if a ≤ b then b else a) = b
          split
          · exact .inr rfl
          · exact .inl rfl
        rcases hmax with hmax | hmax
        · exact .inl (h.trans hmax)
        · exact .inr (List.mem_cons.mpr (.inl (h.trans hmax)))
      · exact .inr (List.mem_cons_of_mem _ h)

/-- The bounds of a table are keys themselves. -/
theorem bounds_mem {key : Int32} {keys : List Int32} (h : key ∈ keys) :
    keys.foldl min 0x7fffffff ∈ keys ∧ keys.foldl max (-0x80000000) ∈ keys := by
  have hmin := (foldl_min_le keys 0x7fffffff).2 key h
  have hmax := (le_foldl_max keys (-0x80000000)).2 key h
  refine ⟨(foldl_min_eq_or_mem keys 0x7fffffff).elim (fun heq => ?_) id,
    (foldl_max_eq_or_mem keys (-0x80000000)).elim (fun heq => ?_) id⟩
  · rw [heq] at hmin ⊢
    have htop : key.toInt ≤ (0x7fffffff : Int32).toInt := Int.le_of_lt_add_one key.toInt_lt
    rwa [Int32.le_antisymm hmin (Int32.le_iff_toInt_le.mpr htop)]
  · rw [heq] at hmax ⊢
    have hbottom : (-0x80000000 : Int32).toInt ≤ key.toInt := key.le_toInt
    rwa [Int32.le_antisymm (Int32.le_iff_toInt_le.mpr hbottom) hmax]

theorem curPc_at_rest {c c' : Code} {p : ℕ} (hlive : c.reachable = true)
    (hrun : Emit.curPc c = .ok p c') :
    c'.Rests ∧ p = c'.pc := by
  obtain ⟨c₁, hpending, rfl, hp⟩ := Emit.curPc_ok hrun
  refine ⟨⟨?_, ?_, c₁.pendingLine_markLine, rfl⟩, hp⟩
  · exact (Code.alive_markLine c₁).trans (Emit.alive_resolvePending hlive hpending)
  · obtain ⟨line, lines, hline, -⟩ := c₁.markLine_eq
    rw [hline]
    exact (Emit.pending_resolvePending hpending).1

theorem length_openWords (site : SwitchSite) (n : ℕ) :
    (openWords site.layout site.lo site.hi n).length = site.words n := by
  unfold openWords SwitchSite.words SwitchSite.width
  cases site.layout <;> simp <;> omega

theorem writeTable_written {keys : List Int32} {site : SwitchSite} {c c' : Code}
    (hlive : c.reachable = true) (hrun : writeTable keys c = .ok site c') :
    site.Written keys c' := by
  obtain ⟨c₁, hcur, hwritten⟩ := writeTable_ok hrun
  obtain ⟨hrests, hpc⟩ := curPc_at_rest hlive hcur
  obtain ⟨htable, hlo, hhi, hlayout, rfl⟩ := hwritten hrests
  obtain ⟨hcovers, hdense⟩ := bounds_of_chosen hlo hhi hlayout
  obtain ⟨hsize, hop, hwords⟩ :=
    encodes_table false site.layout site.lo site.hi keys.length c₁.bytes
  have hbytes : ((c₁.written (tableBytes site.layout site.lo site.hi keys.length c₁.pc)).applyEffect
      site.layout.opcode.effect).bytes = c₁.bytes ++ tableBytes site.layout site.lo site.hi
        keys.length c₁.bytes.size := by
    rw [Code.bytes_applyEffect]
    rfl
  have hword {i : ℕ} {v : Int32}
      (hv : (openWords site.layout site.lo site.hi keys.length)[i]? = some v) :
      intAt (c₁.bytes ++ tableBytes site.layout site.lo site.hi keys.length c₁.bytes.size)
        (site.table + 4 * i) =
        .ok v.toInt := by
    rw [htable]
    refine hwords i (v, v) ?_
    rw [openPairs, List.getElem?_map, hv]
    rfl
  have hend : (c₁.bytes ++ tableBytes site.layout site.lo site.hi keys.length c₁.bytes.size).size =
      site.tableEnd keys.length := by
    have hbase := lt_switchBase c₁.bytes.size
    rw [Array.size_append, hsize, Seg.size, openPairs, List.length_map, length_openWords,
      SwitchSite.tableEnd,
      htable, Code.pc]
    omega
  refine ⟨hpc ▸ htable, ?_, ?_, ?_, hcovers, fun hlayout' => ?_⟩
  · rw [hbytes]
    refine ⟨hend.ge, hpc ▸ hop, fun hlayout => ?_, fun hlayout => ?_, ?_,
      fun hlayout key hkey => ?_⟩
    · exact ⟨hword (i := 1) (by rw [hlayout]; rfl), hword (i := 2) (by rw [hlayout]; rfl)⟩
    · exact hword (i := 1) (by rw [hlayout]; rfl)
    · exact hword (i := 0) rfl
    · refine hword (v := openTarget) ?_
      obtain ⟨hlower, hupper⟩ := hkey
      have hindex : (key.toInt - site.lo.toInt + 3).toNat = (key.toInt - site.lo.toInt).toNat +
          3 := by omega
      rw [hindex, hlayout]
      simp only [openWords, List.getElem?_cons_succ, List.getElem?_replicate]
      rw [if_pos (by omega)]
  · rw [Code.pc, hbytes, hend]
  · rw [Code.pending_applyEffect]
    exact hrests.pending
  · cases keys with
    | nil =>
        rw [hlayout] at hlayout'
        cases hlayout'
    | cons key keys =>
        rw [hlo, hhi]
        exact bounds_mem (List.mem_cons_self ..)

/-! ### Cases -/

section

variable {z : Zone} {site : SwitchSite} {n : ℕ} {starts : List (Option Int32 × ℕ)}

/-- Settling a target only changes words of the code. -/
theorem settle_holds {key : Option Int32} {pc : ℕ} {targets targets' : Array KeyTarget}
    {s s' : MethodState} (hrun : settle site key pc targets s = .ok targets' s')
    (hs : z.Holds false s) : z.Holds false s' := by
  unfold settle at hrun
  cases key with
  | none =>
      cases hrun
      exact hs.withCode (hs.toClear.reword _ _) nofun
  | some k =>
      cases hlayout : site.layout with
      | dense =>
          rw [hlayout] at hrun
          cases hrun
          exact hs.withCode (hs.toClear.reword _ _) nofun
      | sparse =>
          rw [hlayout] at hrun
          cases hrun
          exact hs

/-- A case settles its own target. -/
theorem settle_run {key : Option Int32} {pc : ℕ} {targets targets' : Array KeyTarget}
    {s s' : MethodState} (hrun : settle site key pc targets s = .ok targets' s')
    (hpc : site.pc < site.table) (hcovers : ∀ k ∈ key, site.Covers k)
    (hnew : key ∉ starts.map Prod.fst) (h : site.Tabled n (site.startWord starts) s.asm.code.bytes)
    (hlisted : site.layout = .sparse → targets.toList = site.listed starts) :
    site.Tabled n (site.startWord (starts ++ [(key, pc)])) s'.asm.code.bytes ∧
      (site.layout = .sparse → targets'.toList = site.listed (starts ++ [(key, pc)])) := by
  rw [SwitchSite.startWord_concat hnew, SwitchSite.listed_concat]
  unfold settle at hrun
  cases key with
  | none =>
      cases hrun
      refine ⟨h.setDefault hpc _, fun hlayout => ?_⟩
      simpa using hlisted hlayout
  | some k =>
      cases hlayout : site.layout with
      | dense =>
          rw [hlayout] at hrun
          cases hrun
          exact ⟨h.setSlot hpc hlayout (hcovers k rfl) _, nofun⟩
      | sparse =>
          rw [hlayout] at hrun
          cases hrun
          refine ⟨h.congr (Function.update_of_ne (Option.some_ne_none _).symm ..) ?_, fun _ => ?_⟩
          · rw [hlayout]
            nofun
          · simp [hlisted hlayout]

/-- The cases settle their targets one by one, and their bodies leave the table alone. -/
theorem casesLogged_run {frame : Frame} {env : Env} (henv : env.Sparing z)
    {codes : List (CaseCode × Option Int32)}
    (hcodes : ∀ c ∈ codes, ∀ env : Env, env.Sparing z → Steady z false (c.1.gen env))
    (hlo : z.lo = site.pc) (hhi : z.hi = site.tableEnd n) (hpc : site.pc < site.table)
    {targets targets' : Array KeyTarget} {more : List (Option Int32 × ℕ)} {s s' : MethodState}
    (hrun : casesLogged site frame env codes targets s = .ok (targets', more) s')
    (hs : z.Holds false s) (hcovers : ∀ k, some k ∈ codes.map Prod.snd → site.Covers k)
    (hnodup : (starts.map Prod.fst ++ codes.map Prod.snd).Nodup)
    (h : site.Tabled n (site.startWord starts) s.asm.code.bytes)
    (hlisted : site.layout = .sparse → targets.toList = site.listed starts) :
    z.Holds false s' ∧ site.Tabled n (site.startWord (starts ++ more)) s'.asm.code.bytes ∧
      (site.layout = .sparse → targets'.toList = site.listed (starts ++ more)) ∧
      more.map Prod.fst = codes.map Prod.snd ∧ ∀ start ∈ more, z.hi ≤ start.2 := by
  have hkeep {s s' : MethodState} {starts : List (Option Int32 × ℕ)} (hs' : z.Holds false s')
      (hab : Agree s.asm.code.bytes s'.asm.code.bytes z.lo z.hi)
      (h : site.Tabled n (site.startWord starts) s.asm.code.bytes) :
      site.Tabled n (site.startWord starts) s'.asm.code.bytes := by
    rw [hlo, hhi] at hab
    exact h.of_agree (hhi ▸ hs'.behind) hpc hab
  induction codes generalizing starts targets more s with
  | nil =>
      cases hrun
      rw [List.append_nil]
      exact ⟨hs, h, hlisted, rfl, fun _ hstart => absurd hstart List.not_mem_nil⟩
  | cons c rest ih =>
      obtain ⟨c, key⟩ := c
      obtain ⟨pc, s₁, hentry, hrun⟩ := EStateM.bind_eq_ok.mp hrun
      obtain ⟨hs₁, hab₁, hpc₁⟩ := (Emit.spares_entryWith frame).forget.inGen s pc s₁ hentry hs
      obtain ⟨targets₁, s₂, hsettle, hrun⟩ := EStateM.bind_eq_ok.mp hrun
      have hnew : key ∉ starts.map Prod.fst := fun hmem =>
        (List.nodup_append.mp hnodup).2.2 key hmem key (List.mem_cons_self ..) rfl
      have hs₂ := settle_holds hsettle hs₁
      obtain ⟨h₂, hlisted₂⟩ := settle_run hsettle hpc
        (fun k hk => hcovers k (by rw [Option.mem_def.mp hk]; exact List.mem_cons_self ..)) hnew
        (hkeep hs₁ hab₁ h) hlisted
      obtain ⟨⟨⟩, s₃, hbody, hrun⟩ := EStateM.bind_eq_ok.mp hrun
      have hsteady := steady_rangedStats c.stats RangeFlag.flowTarget
        (hcodes _ (List.mem_cons_self ..) env henv)
      obtain ⟨hs₃, hab₃, -⟩ := hsteady s₂ ⟨⟩ s₃ hbody hs₂
      obtain ⟨⟨targets₄, more₄⟩, s₄, hrest, hrun⟩ := EStateM.bind_eq_ok.mp hrun
      cases hrun
      obtain ⟨hs', h', hlisted', hkeys, hstarts⟩ := ih
        (fun c hc => hcodes c (List.mem_cons_of_mem _ hc)) hrest hs₃
        (fun k hk => hcovers k (List.mem_cons_of_mem _ hk)) (by simpa using hnodup)
        (hkeep hs₃ hab₃ h₂) hlisted₂
      rw [List.append_assoc] at h' hlisted'
      refine ⟨hs', h', hlisted', ?_, ?_⟩
      · rw [List.map_cons, List.map_cons, hkeys]
      · exact List.forall_mem_cons.mpr ⟨hpc₁, hstarts⟩

/-- The cases keep what holds of a place that all bodies spare. -/
theorem casesLogged_holds {frame : Frame} {env : Env} (henv : env.Sparing z)
    {codes : List (CaseCode × Option Int32)}
    (hcodes : ∀ c ∈ codes, ∀ env : Env, env.Sparing z → Steady z false (c.1.gen env))
    {targets targets' : Array KeyTarget} {more : List (Option Int32 × ℕ)} {s s' : MethodState}
    (hrun : casesLogged site frame env codes targets s = .ok (targets', more) s')
    (hs : z.Holds false s) :
    z.Holds false s' := by
  induction codes generalizing targets more s with
  | nil =>
      cases hrun
      exact hs
  | cons c rest ih =>
      obtain ⟨c, key⟩ := c
      obtain ⟨pc, s₁, hentry, hrun⟩ := EStateM.bind_eq_ok.mp hrun
      obtain ⟨hs₁, -, -⟩ := (Emit.spares_entryWith frame).forget.inGen s pc s₁ hentry hs
      obtain ⟨targets₁, s₂, hsettle, hrun⟩ := EStateM.bind_eq_ok.mp hrun
      have hs₂ := settle_holds hsettle hs₁
      obtain ⟨⟨⟩, s₃, hbody, hrun⟩ := EStateM.bind_eq_ok.mp hrun
      obtain ⟨hs₃, -, -⟩ := steady_rangedStats c.stats RangeFlag.flowTarget
        (hcodes _ (List.mem_cons_self ..) env henv) s₂ ⟨⟩ s₃ hbody hs₂
      obtain ⟨⟨targets₄, more₄⟩, s₄, hrest, hrun⟩ := EStateM.bind_eq_ok.mp hrun
      cases hrun
      exact ih (fun c hc => hcodes c (List.mem_cons_of_mem _ hc)) hrest hs₃

/-- No case begins behind the code. -/
theorem casesLogged_within {frame : Frame} {env : Env} (henv : ∀ z, env.Sparing z)
    {codes : List (CaseCode × Option Int32)}
    (hcodes : ∀ z, ∀ c ∈ codes, ∀ env : Env, env.Sparing z → Steady z false (c.1.gen env))
    {targets targets' : Array KeyTarget} {more : List (Option Int32 × ℕ)} {s s' : MethodState}
    (hrun : casesLogged site frame env codes targets s = .ok (targets', more) s') :
    ∀ start ∈ more, start.2 ≤ s'.asm.code.pc := by
  induction codes generalizing targets more s with
  | nil =>
      cases hrun
      exact fun _ hstart => absurd hstart List.not_mem_nil
  | cons c rest ih =>
      obtain ⟨c, key⟩ := c
      obtain ⟨pc, s₁, hentry, hrun⟩ := EStateM.bind_eq_ok.mp hrun
      obtain ⟨c₁, hcode, rfl⟩ := emit_ok hentry
      obtain ⟨rfl, hpending⟩ := entryWith_here hcode
      obtain ⟨targets₁, s₂, hsettle, hrun⟩ := EStateM.bind_eq_ok.mp hrun
      -- the bytes before the case are none that a jump of its body could be
      let z : Zone := ⟨c₁.pc - 3, c₁.pc, by omega, c₁.wide, s.scopes.depth⟩
      have hs₁ : z.Holds false (Part.put c₁ s) :=
        ⟨⟨rfl, Nat.le_refl _, hpending ▸ .nil⟩, .fresh rfl, nofun⟩
      have hs₂ := settle_holds hsettle hs₁
      obtain ⟨⟨⟩, s₃, hbody, hrun⟩ := EStateM.bind_eq_ok.mp hrun
      obtain ⟨hs₃, -, -⟩ := steady_rangedStats c.stats RangeFlag.flowTarget
        (hcodes z _ (List.mem_cons_self ..) env (henv z)) s₂ ⟨⟩ s₃ hbody hs₂
      obtain ⟨⟨targets₄, more₄⟩, s₄, hrest, hrun⟩ := EStateM.bind_eq_ok.mp hrun
      cases hrun
      have hrest' (z : Zone) (c : CaseCode × Option Int32) (hc : c ∈ rest) :=
        hcodes z c (List.mem_cons_of_mem _ hc)
      exact List.forall_mem_cons.mpr ⟨(casesLogged_holds (henv z) (hrest' z) hrest hs₃).behind,
        ih hrest' hrest⟩

/-! ### Closing a table -/

/-- Every word that is still open becomes the one of the default. -/
theorem closeSlots_words {c : Code} {pc n : ℕ} {d : Int32} {word : ℕ → Int32}
    (hsize : pc + 4 * n ≤ c.bytes.size)
    (h : ∀ i < n, intAt c.bytes (pc + 4 * i) = .ok (word i).toInt) :
    Code.Rewords pc (pc + 4 * n) c (closeSlots d c pc n) ∧ ∀ i < n,
      intAt (closeSlots d c pc n).bytes (pc + 4 * i) = .ok
        (if word i = openTarget then d else word i).toInt := by
  induction n generalizing c pc word with
  | zero => exact ⟨.refl .., fun i hi => absurd hi (Nat.not_lt_zero i)⟩
  | succ n ih =>
      have hnext (i : ℕ) : pc + 4 * (i + 1) = pc + 4 + 4 * i := by omega
      have hfirst : ∃ c₁, closeSlots d c pc (n + 1) = closeSlots d c₁ (pc + 4) n ∧
          Code.Rewords pc (pc + 4) c c₁ ∧
          intAt c₁.bytes pc = .ok (if word 0 = openTarget then d else word 0).toInt := by
        have hword : c.get4 pc = word 0 := Code.get4_of_intAt (h 0 (Nat.succ_pos n))
        rw [closeSlots, hword]
        split
        · exact ⟨_, rfl, .set4 c _ (by omega), c.intAt_set4 _ _ (by omega)⟩
        · exact ⟨_, rfl, .refl .., h 0 (Nat.succ_pos n)⟩
      obtain ⟨c₁, hrun, hfirst, hword⟩ := hfirst
      obtain ⟨hrest, hwords⟩ := @ih c₁ (pc + 4) (fun i => word (i + 1)) (by rw [hfirst.size]; omega)
        fun i hi => by
          rw [intAt_congr (hfirst.agree (.inr (by omega))), ← hnext]
          exact h (i + 1) (Nat.succ_lt_succ hi)
      rw [hrun]
      refine ⟨(hfirst.mono (Nat.le_refl _) (by omega)).trans (hrest.mono (by omega) (by omega)), ?_⟩
      intro i hi
      cases i with
      | zero =>
          simp only [Nat.mul_zero, Nat.add_zero]
          rw [intAt_congr (hrest.agree (.inl (Nat.le_refl _)))]
          exact hword
      | succ i =>
          rw [hnext]
          exact hwords i (Nat.lt_of_succ_lt_succ hi)

/-- The pairs of a sparse table stand in the code. -/
def SwitchSite.ListsPairs (site : SwitchSite) (pairs : List KeyTarget) (bs : Array UInt8) : Prop :=
  ∀ i (h : i < pairs.length), intAt bs (site.table + 8 + 8 * i) = .ok pairs[i].1.toInt ∧
    intAt bs (site.table + 8 + 8 * i + 4) = .ok pairs[i].2.toInt

theorem writePairs_words {c : Code} {pc : ℕ} {pairs : List KeyTarget}
    (hsize : pc + 8 * pairs.length ≤ c.bytes.size) :
    Code.Rewords pc (pc + 8 * pairs.length) c (writePairs c pc pairs) ∧ ∀ i (h : i < pairs.length),
      intAt (writePairs c pc pairs).bytes (pc + 8 * i) = .ok pairs[i].1.toInt ∧
        intAt (writePairs c pc pairs).bytes (pc + 8 * i + 4) = .ok pairs[i].2.toInt := by
  induction pairs generalizing c pc with
  | nil => exact ⟨.refl .., fun i hi => absurd hi (Nat.not_lt_zero i)⟩
  | cons pair rest ih =>
      rw [List.length_cons] at hsize
      have hkey : Code.Rewords pc (pc + 4) c (c.set4 pc pair.1) := .set4 c _ (by omega)
      have htarget : Code.Rewords (pc + 4) (pc + 8) (c.set4 pc pair.1)
          ((c.set4 pc pair.1).set4 (pc + 4) pair.2) := .set4 _ _ (by rw [hkey.size]; omega)
      have hpair := (hkey.mono (Nat.le_refl _) (Nat.le_add_right (pc + 4) 4)).trans
        (htarget.mono (Nat.le_add_right pc 4) (Nat.le_refl _))
      obtain ⟨hrest, hwords⟩ := @ih ((c.set4 pc pair.1).set4 (pc + 4) pair.2) (pc + 8)
        (by rw [hpair.size]; omega)
      rw [writePairs_cons]
      have hlen : (pair :: rest).length = rest.length + 1 := rfl
      refine ⟨(hpair.mono (Nat.le_refl _) (by omega)).trans (hrest.mono (by omega) (by omega)), ?_⟩
      intro i hi
      cases i with
      | zero =>
          simp only [Nat.mul_zero, Nat.add_zero]
          rw [intAt_congr (hrest.agree (.inl (by omega))),
            intAt_congr (htarget.agree (.inl (Nat.le_refl _))),
            intAt_congr (hrest.agree (.inl (by omega)))]
          exact ⟨c.intAt_set4 _ _ (by omega), Code.intAt_set4 _ _ _ (by rw [hkey.size]; omega)⟩
      | succ i =>
          rw [show pc + 8 * (i + 1) = pc + 8 + 8 * i by omega]
          exact hwords i (Nat.lt_of_succ_lt_succ hi)

namespace SwitchSite

variable {word word' : Option Int32 → Int32} {c c' : Code} {key : Int32} {i : ℕ}

/-- The key that a dense table has at an index. -/
def keyAt (site : SwitchSite) (i : ℕ) : Int32 := .ofInt (site.lo.toInt + i)

theorem toInt_keyAt (h : i < site.width) : (site.keyAt i).toInt = site.lo.toInt + i := by
  have hlo := site.lo.le_toInt
  have hhi := site.hi.toInt_lt
  unfold width at h
  exact Int32.toInt_ofInt_of_le (by omega) (by omega)

theorem covers_keyAt (h : i < site.width) : site.Covers (site.keyAt i) := by
  rw [Covers, toInt_keyAt h]
  unfold width at h
  omega

theorem slot_keyAt (h : i < site.width) : site.slot (site.keyAt i) = site.table + 12 + 4 * i := by
  rw [slot, toInt_keyAt h]
  omega

/-- Every key that a dense table covers has an index. -/
theorem Covers.index (h : site.Covers key) : ∃ i < site.width, key = site.keyAt i := by
  obtain ⟨hlo, hhi⟩ := h
  have hi : (key.toInt - site.lo.toInt).toNat < site.width := by
    unfold width
    omega
  refine ⟨_, hi, Int32.toInt_inj.mp ?_⟩
  rw [toInt_keyAt hi]
  omega

/-- Words behind the head of a table are written anew. -/
theorem Tabled.rewords {lo hi : ℕ} (h : site.Tabled n word c.bytes) (hpc : site.pc < site.table)
    (hlo : site.table + (if site.layout = .dense then 12 else 8) ≤ lo)
    (hre : Code.Rewords lo hi c c') (hnone : word' none = word none)
    (hslots : site.layout = .dense → ∀ key, site.Covers key → intAt c'.bytes (site.slot key) = .ok
      (word' (some key)).toInt) :
    site.Tabled n word' c'.bytes := by
  have hword {p : ℕ} (hp : p + 4 ≤ lo) : intAt c'.bytes p = intAt c.bytes p :=
    intAt_congr (hre.agree (.inl hp))
  refine ⟨by rw [hre.size]; exact h.size, ?_, fun hlayout => ?_, fun hlayout => ?_, ?_, hslots⟩
  · rw [hre.same _ (.inl (by omega))]
    exact h.opcode
  · rw [if_pos hlayout] at hlo
    rw [hword (by omega), hword (by omega)]
    exact h.bounds hlayout
  · rw [if_neg (by rw [hlayout]; decide)] at hlo
    rw [hword (by omega)]
    exact h.count hlayout
  · rw [hword (by split at hlo <;> omega), hnone]
    exact h.default

/-- The words of a table in which the open ones have become the one of the default. -/
def closed (word : Option Int32 → Int32) : Option Int32 → Int32
  | none => word none
  | some key => if word (some key) = openTarget then word none else word (some key)

theorem Tabled.closeSlots (h : site.Tabled n word c.bytes) (hpc : site.pc < site.table)
    (hlayout : site.layout = .dense) :
    let c' := closeSlots (c.get4 site.table) c (site.slot site.lo) site.width
    site.Tabled n (closed word) c'.bytes ∧ ∃ lo hi, Code.Rewords lo hi c c' := by
  have hslot : site.slot site.lo = site.table + 12 := by
    unfold slot
    omega
  have hsize := h.size
  rw [tableEnd, words_dense hlayout] at hsize
  rw [Code.get4_of_intAt h.default, hslot]
  obtain ⟨hre, hwords⟩ := @closeSlots_words c (site.table + 12) site.width (word none)
    (fun i => word (some (site.keyAt i))) (by omega) fun i hi => by
      rw [← slot_keyAt hi]
      exact h.slots hlayout _ (covers_keyAt hi)
  refine ⟨h.rewords hpc (by rw [if_pos hlayout]) hre rfl fun _ key hkey => ?_, _, _, hre⟩
  obtain ⟨i, hi, rfl⟩ := hkey.index
  rw [slot_keyAt hi]
  exact hwords i hi

theorem Tabled.writePairs (h : site.Tabled n word c.bytes) (hpc : site.pc < site.table)
    (hlayout : site.layout = .sparse) {pairs : List KeyTarget} (hn : pairs.length = n) :
    let c' := writePairs c (site.table + 8) pairs
    site.Tabled n (closed word) c'.bytes ∧ site.ListsPairs pairs c'.bytes ∧
      ∃ lo hi, Code.Rewords lo hi c c' := by
  have hsize := h.size
  rw [tableEnd, words_sparse hlayout] at hsize
  obtain ⟨hre, hwords⟩ := @writePairs_words c (site.table + 8) pairs (by omega)
  refine ⟨h.rewords hpc (by rw [if_neg (by rw [hlayout]; decide)]) hre rfl ?_, hwords, _, _, hre⟩
  rw [hlayout]
  nofun

/-- What is still open is settled, and the words are those of the places that keys lead to. -/
theorem Tabled.fillTable {d join : ℕ}
    (h : site.Tabled n (Function.update (site.startWord starts) none (site.offset d)) c.bytes)
    (hpc : site.pc < site.table) {targets : Array KeyTarget}
    (hn : site.layout = .sparse → targets.size = n)
    (hstarts : ∀ start ∈ starts, site.offset start.2 ≠ openTarget)
    (hd : d = targetAmong starts join none) :
    let c' := fillTable site targets c
    site.Tabled n (fun key => site.offset (targetAmong starts join key)) c'.bytes ∧
      (site.layout = .sparse → site.ListsPairs (sortKeys targets).toList c'.bytes) ∧
      ∃ lo hi, Code.Rewords lo hi c c' := by
  have hclosed : closed (Function.update (site.startWord starts) none (site.offset d)) =
      fun key => site.offset (targetAmong starts join key) := by
    funext key
    subst hd
    cases key with
    | none => simp only [closed, Function.update_self]
    | some key =>
        simp only [closed, Function.update_self,
          Function.update_of_ne (Option.some_ne_none key), startWord,
          targetAmong]
        cases hlookup : starts.lookup (some key) with
        | none => simp
        | some pc => simp [hstarts _ (mem_of_lookup hlookup)]
  rw [← hclosed]
  unfold Gen.fillTable
  split
  · rename_i hlayout
    obtain ⟨hslots, hre⟩ := h.closeSlots hpc hlayout
    exact ⟨hslots, fun hsparse => absurd (hlayout.symm.trans hsparse) nofun, hre⟩
  · rename_i hlayout
    have hsparse : site.layout = .sparse := by
      cases hl : site.layout with
      | dense => exact absurd hl hlayout
      | sparse => rfl
    have hlen : (sortKeys targets).toList.length = n := by
      rw [(sortKeys_perm targets).length_eq, Array.length_toList, hn hsparse]
    obtain ⟨hslots, hpairs, hre⟩ := h.writePairs hpc hsparse hlen
    exact ⟨hslots, fun _ => hpairs, hre⟩

end SwitchSite

/-- The word of the default tells whether the switch has one. -/
theorem startWord_none_eq (hstarts : ∀ start ∈ starts, site.offset start.2 ≠ openTarget) :
    site.startWord starts none = openTarget ↔ starts.lookup none = none := by
  unfold SwitchSite.startWord
  cases hlookup : starts.lookup none with
  | none => simp
  | some pc => simp [hstarts _ (mem_of_lookup hlookup)]

/-- The table that a switch leaves. -/
structure Closed (site : SwitchSite) (n : ℕ) (starts : List (Option Int32 × ℕ))
    (targets : Array KeyTarget) (c : Code) : Prop where
  tabled : site.Tabled n (fun key => site.offset (targetAmong starts c.pc key)) c.bytes
  lists : site.layout = .sparse → site.ListsPairs (sortKeys targets).toList c.bytes
  /-- without a default, keys lead to the end of the code, and nothing waits there any more -/
  pending : starts.lookup none = none → c.pending = []

theorem targetAmong_congr {join join' : ℕ} (h : starts.lookup none = none → join' = join) :
    targetAmong starts join' = targetAmong starts join := by
  funext key
  unfold targetAmong
  cases hnone : starts.lookup none with
  | none => rw [h hnone]
  | some pc => rfl

theorem SwitchSite.ListsPairs.of_agree {pairs : List KeyTarget} {bs bs' : Array UInt8}
    (h : site.ListsPairs pairs bs)
    (hab : Agree bs bs' site.table (site.table + 8 + 8 * pairs.length)) :
    site.ListsPairs pairs bs' := by
  intro i hi
  rw [intAt_congr (hab.mono (by omega) (by omega)), intAt_congr (hab.mono (by omega) (by omega))]
  exact h i hi

variable {targets : Array KeyTarget} {c c' : Code}

theorem Closed.keep (h : Closed site n starts targets c) (hpc : site.pc < site.table)
    (hn : site.layout = .sparse → targets.size = n) (hsize : site.tableEnd n ≤ c'.pc)
    (hab : Agree c.bytes c'.bytes site.pc (site.tableEnd n))
    (hsame : starts.lookup none = none → c'.pc = c.pc ∧ c'.pending = []) :
    Closed site n starts targets c' where
  tabled := by
    rw [targetAmong_congr fun hnone => (hsame hnone).1]
    exact h.tabled.of_agree hsize hpc hab
  lists hlayout := by
    refine (h.lists hlayout).of_agree (hab.mono (Nat.le_of_lt hpc) ?_)
    rw [(sortKeys_perm targets).length_eq, Array.length_toList, hn hlayout, SwitchSite.tableEnd,
      SwitchSite.words_sparse hlayout]
    omega
  pending hnone := (hsame hnone).2

/-- The last open words are settled once the default is. -/
theorem fillTable_closed {d : ℕ} (hc : z.Clear c)
    (h : site.Tabled n (Function.update (site.startWord starts) none (site.offset d)) c.bytes)
    (hpc : site.pc < site.table) (hn : site.layout = .sparse → targets.size = n)
    (hstarts : ∀ start ∈ starts, site.offset start.2 ≠ openTarget)
    (hd : d = targetAmong starts c.pc none)
    (hpending : starts.lookup none = none → c.pending = []) :
    z.Clear (fillTable site targets c) ∧ Closed site n starts targets
      (fillTable site targets c) := by
  obtain ⟨hwords, hpairs, lo, hi, hre⟩ := h.fillTable hpc hn hstarts hd
  have hend : (fillTable site targets c).pc = c.pc := hre.size
  have hwide : (fillTable site targets c).wide = c.wide := by
    rw [hre.rest]
    rfl
  have hwait : (fillTable site targets c).pending = c.pending := by
    rw [hre.rest]
    rfl
  refine ⟨⟨hwide.trans hc.wide, hend ▸ hc.behind, hwait ▸ hc.pending⟩, ?_, hpairs,
    fun hnone => hwait.trans (hpending hnone)⟩
  rw [hend]
  exact hwords

theorem touch_ok {f : Code → Code} {s s' : MethodState} (hrun : touch f s = .ok () s') :
    s' = Part.put (f s.asm.code) s := by
  cases hrun
  rfl

/-- Without a default, keys without a case lead to the end of the code. -/
theorem fillTable_closed_here (hc : z.Clear c) (h : site.Tabled n (site.startWord starts) c.bytes)
    (hpc : site.pc < site.table) (hn : site.layout = .sparse → targets.size = n)
    (hstarts : ∀ start ∈ starts, site.offset start.2 ≠ openTarget)
    (hnone : starts.lookup none = none) (hpending : c.pending = []) :
    let c' := fillTable site targets (c.set4 site.table (site.offset c.pc))
    z.Clear c' ∧ Closed site n starts targets c' := by
  have hset : (c.set4 site.table (site.offset c.pc)).pc = c.pc ∧
      (c.set4 site.table (site.offset c.pc)).pending = c.pending := by
    obtain ⟨bs, hbs⟩ := c.set4_eq site.table (site.offset c.pc)
    have hsize := c.size_set4 site.table (site.offset c.pc)
    rw [hbs] at hsize ⊢
    exact ⟨hsize, rfl⟩
  refine fillTable_closed (hc.reword _ _) (h.setDefault hpc _) hpc hn hstarts ?_ fun _ => ?_
  · rw [targetAmong, hnone, hset.1]
    rfl
  · rw [hset.2, hpending]

theorem closeTable_run {frame : Frame} {s s' : MethodState} (hlo : z.lo = site.pc)
    (hhi : z.hi = site.tableEnd n) (hpc : site.pc < site.table)
    (hrun : closeTable site frame targets s = .ok () s') (hs : z.Holds false s)
    (h : site.Tabled n (site.startWord starts) s.asm.code.bytes)
    (hn : site.layout = .sparse → targets.size = n)
    (hstarts : ∀ start ∈ starts, site.offset start.2 ≠ openTarget) :
    z.Holds false s' ∧ Closed site n starts targets s'.asm.code := by
  have hword := Code.get4_of_intAt h.default
  rw [closeTable_eq] at hrun
  obtain ⟨word, s₀, hpeek, hrun⟩ := EStateM.bind_eq_ok.mp hrun
  cases hpeek
  split at hrun
  · rename_i hopen
    have hnone := (startWord_none_eq hstarts).mp (hword.symm.trans hopen)
    obtain ⟨pc, s₁, hentry, hrun⟩ := EStateM.bind_eq_ok.mp hrun
    obtain ⟨hs₁, hab, -⟩ := (Emit.spares_entryWith frame).forget.inGen s pc s₁ hentry hs
    obtain ⟨c₁, hcode, rfl⟩ := emit_ok hentry
    obtain ⟨rfl, hpending⟩ := entryWith_here hcode
    have hc₁ : z.Clear c₁ := hs₁.toClear
    have h₁ : site.Tabled n (site.startWord starts) c₁.bytes :=
      h.of_agree (hhi ▸ hc₁.behind) hpc (hlo ▸ hhi ▸ hab)
    obtain ⟨⟨⟩, s₂, hset, hrun⟩ := EStateM.bind_eq_ok.mp hrun
    have hs' : s' = Part.put (fillTable site targets (c₁.set4 site.table (site.offset c₁.pc)))
        s := by
      rw [touch_ok hrun, touch_ok hset]
      rfl
    obtain ⟨hclear, hclosed⟩ := fillTable_closed_here hc₁ h₁ hpc hn hstarts hnone hpending
    rw [hs']
    exact ⟨hs.withCode hclear nofun, hclosed⟩
  · rename_i hset
    cases hnone : starts.lookup none with
    | none => exact absurd (hword.trans ((startWord_none_eq hstarts).mpr hnone)) hset
    | some d =>
        have hdefault : site.Tabled n (Function.update (site.startWord starts) none (site.offset d))
            s.asm.code.bytes :=
          h.congr (by simp [SwitchSite.startWord, hnone]) fun _ key _ =>
            Function.update_of_ne (Option.some_ne_none key) ..
        obtain ⟨hclear, hclosed⟩ := fillTable_closed hs.toClear hdefault hpc hn hstarts
          (by simp [targetAmong, hnone]) fun h => absurd (hnone.symm.trans h) nofun
        rw [touch_ok hrun]
        exact ⟨hs.withCode hclear nofun, hclosed⟩

end

/-! ### Reading a table back -/

namespace SwitchSite

variable {site : SwitchSite} {n join : ℕ} {word : Option Int32 → Int32} {bs : Array UInt8}
  {starts : List (Option Int32 × ℕ)}

theorem Tabled.headed (h : site.Tabled n word bs) (hn : site.layout = .sparse → n < 0x80000000) :
    site.Headed n bs :=
  ⟨h.size, h.opcode, h.bounds,
    fun hlayout => by rw [h.count hlayout, Int32.toInt_ofNat_of_lt (hn hlayout)]⟩

/-- Places are positions of 32 bits. -/
theorem offsetTarget_targetAmong (hjoin : join < 0xffffffff)
    (hstarts : ∀ start ∈ starts, start.2 < 0xffffffff) (key : Option Int32) :
    offsetTarget site.pc (site.offset (targetAmong starts join key)).toInt =
      targetAmong starts join key := by
  have hlookup (key : Option Int32) {d : ℕ} (hd : d < 0xffffffff) :
      (starts.lookup key).getD d < 0xffffffff := by
    cases hlookup : starts.lookup key with
    | none => exact hd
    | some pc => exact hstarts _ (mem_of_lookup hlookup)
  rw [offsetTarget_offset, Nat.mod_eq_of_lt]
  refine Nat.lt_trans (m := 0xffffffff) ?_ (by decide)
  cases key with
  | none => exact hlookup none hjoin
  | some key => exact hlookup (some key) (hlookup none hjoin)

theorem targetAmong_of_not_mem {key : Int32} (h : some key ∉ starts.map Prod.fst) :
    targetAmong starts join (some key) = targetAmong starts join none := by
  simp only [targetAmong, lookup_eq_none_of_not_mem h, Option.getD_none]

/-- A dense table has a case for every key between its bounds. -/
theorem Tabled.dense_dispatch
    (h : site.Tabled n (fun key => site.offset (targetAmong starts join key)) bs)
    (hbase : site.table = switchBase site.pc) (hlayout : site.layout = .dense)
    (hcovers : ∀ key, some key ∈ starts.map Prod.fst → site.Covers key) (hjoin : join < 0xffffffff)
    (hstarts : ∀ start ∈ starts, start.2 < 0xffffffff) :
    ∃ t, (site.instruction n).switchTable? bs = .ok (some t) ∧
      (∀ key, t.dispatch key = targetAmong starts join (some key)) ∧
      t.cases.map Prod.fst = (List.range site.width).map fun i : ℕ => site.lo.toInt + i := by
  obtain ⟨hlo, hhi⟩ := h.bounds hlayout
  have hcases := @tableCases_eq bs site.pc site.width (site.table + 12) site.lo.toInt
    (fun i => (site.offset (targetAmong starts join (some (site.keyAt i)))).toInt) fun i hi => by
      rw [← slot_keyAt hi]
      exact h.slots hlayout _ (covers_keyAt hi)
  simp only [offsetTarget_targetAmong hjoin hstarts] at hcases
  refine ⟨⟨targetAmong starts join none, (List.range site.width).map fun i : ℕ =>
    (site.lo.toInt + i, targetAmong starts join (some (site.keyAt i)))⟩, ?_, fun key => ?_, ?_⟩
  · rw [width] at hcases
    simp only [switchTable?, instruction, hlayout, Layout.opcode, ← hbase, h.default, hlo, hhi]
    rw [if_pos trivial]
    simp only [bind, Except.bind, hcases, offsetTarget_targetAmong hjoin hstarts]
    rfl
  · rw [SwitchTable.dispatch, lookup_consecutive]
    split
    · rename_i hin
      have hkey : site.Covers key := by
        unfold width at hin
        unfold Covers
        omega
      obtain ⟨i, hi, rfl⟩ := hkey.index
      have hindex : ((site.keyAt i).toInt - site.lo.toInt).toNat = i := by
        rw [toInt_keyAt hi]
        omega
      rw [hindex]
      rfl
    · rename_i hout
      refine (targetAmong_of_not_mem fun hmem => hout ?_).symm
      obtain ⟨hlower, hupper⟩ := hcovers key hmem
      unfold width
      omega
  · rw [List.map_map]
    rfl

theorem mem_listed {key off : Int32} :
    (key, off) ∈ site.listed starts ↔ ∃ pc, (some key, pc) ∈ starts ∧ site.offset pc = off := by
  simp only [listed, List.mem_filterMap, Option.map_eq_some_iff, Prod.mk.injEq, Prod.exists]
  constructor
  · rintro ⟨_, pc, hmem, _, rfl, rfl, rfl⟩
    exact ⟨pc, hmem, rfl⟩
  · rintro ⟨pc, hmem, rfl⟩
    exact ⟨some key, pc, hmem, key, rfl, rfl, rfl⟩

theorem map_fst_listed (site : SwitchSite) (starts : List (Option Int32 × ℕ)) :
    (site.listed starts).map Prod.fst = (starts.map Prod.fst).filterMap id := by
  induction starts with
  | nil => rfl
  | cons start starts ih =>
      obtain ⟨key, pc⟩ := start
      cases key with
      | none => exact ih
      | some key => exact congrArg (key :: ·) ih

theorem nodup_listed (h : (starts.map Prod.fst).Nodup) :
    ((site.listed starts).map Prod.fst).Nodup := by
  rw [map_fst_listed]
  refine h.filterMap fun a a' b hb hb' => ?_
  exact (Option.mem_def.mp hb).trans (Option.mem_def.mp hb').symm

/-- A sparse table has a case for every label, in ascending order. -/
theorem Tabled.sparse_dispatch
    (h : site.Tabled n (fun key => site.offset (targetAmong starts join key)) bs)
    (hbase : site.table = switchBase site.pc) (hlayout : site.layout = .sparse)
    {targets : Array KeyTarget} (hlists : site.ListsPairs (sortKeys targets).toList bs)
    (hlisted : targets.toList = site.listed starts) (hsize : targets.size = n) (hn : n < 0x80000000)
    (hnodup : (starts.map Prod.fst).Nodup) (hjoin : join < 0xffffffff)
    (hstarts : ∀ start ∈ starts, start.2 < 0xffffffff) :
    ∃ t, (site.instruction n).switchTable? bs = .ok (some t) ∧
      (∀ key, t.dispatch key = targetAmong starts join (some key)) ∧
      (t.cases.map Prod.fst).Pairwise (· < ·) ∧ t.cases.length = n := by
  have hlen : (sortKeys targets).toList.length = n := by
    rw [(sortKeys_perm targets).length_eq, Array.length_toList, hsize]
  have hmem (key off : Int32) : (key, off) ∈ (sortKeys targets).toList ↔
      ∃ pc, (some key, pc) ∈ starts ∧ site.offset pc = off := by
    rw [(sortKeys_perm targets).mem_iff, hlisted, mem_listed]
  have hstrict : ((sortKeys targets).toList.map Prod.fst).Pairwise (· < ·) :=
    sortKeys_strict (hlisted ▸ nodup_listed hnodup)
  generalize (sortKeys targets).toList = pairs at hlists hlen hmem hstrict
  let row (kt : KeyTarget) : Int × ℕ := (kt.1.toInt, offsetTarget site.pc kt.2.toInt)
  have hcases : lookupCases bs site.pc n (site.table + 8) = .ok (pairs.map row) := by
    subst hlen
    have hget (i : ℕ) (hi : i < pairs.length) : pairs.getD i (0, 0) = pairs[i] := by simp [hi]
    rw [@lookupCases_eq bs site.pc pairs.length (site.table + 8)
      (fun i => (pairs.getD i (0, 0)).1.toInt)
      (fun i => (pairs.getD i (0, 0)).2.toInt) (fun i hi => hget i hi ▸ (hlists i hi).1)
      fun i hi => hget i hi ▸ (hlists i hi).2]
    refine congrArg Except.ok (List.ext_getElem (by simp) fun i hi hi' => ?_)
    rw [List.length_map] at hi'
    simp [row, hi']
  have hascending : ((pairs.map row).map Prod.fst).Pairwise (· < ·) := by
    rw [List.map_map, List.pairwise_map]
    exact (List.pairwise_map.mp hstrict).imp fun h => Int32.lt_iff_toInt_lt.mp h
  refine ⟨⟨targetAmong starts join none, pairs.map row⟩, ?_, fun key => ?_,
    hascending, by simpa using hlen⟩
  · have hcount := (h.headed fun _ => hn).count hlayout
    simp only [switchTable?, instruction, hlayout, Layout.opcode, ← hbase, h.default, hcount]
    rw [if_neg (by decide), if_pos trivial]
    simp only [bind, Except.bind, Int.toNat_natCast, hcases, offsetTarget_targetAmong hjoin hstarts]
    rfl
  · rw [SwitchTable.dispatch]
    cases hlookup : starts.lookup (some key) with
    | none =>
        have hnot : key.toInt ∉ (pairs.map row).map Prod.fst := by
          rw [List.map_map, List.mem_map]
          rintro ⟨⟨key', off⟩, hpair, heq⟩
          obtain rfl : key' = key := Int32.toInt_inj.mp heq
          obtain ⟨pc, hpc, -⟩ := (hmem key' off).mp hpair
          exact absurd (hlookup.symm.trans (lookup_of_mem hnodup hpc)) (Option.some_ne_none pc).symm
        simp only [lookup_eq_none_of_not_mem hnot, targetAmong, hlookup, Option.getD_none]
    | some pc =>
        have hpair : (key, site.offset pc) ∈ pairs :=
          (hmem _ _).mpr ⟨pc, mem_of_lookup hlookup, rfl⟩
        have htarget : targetAmong starts join (some key) = pc := by
          simp only [targetAmong, hlookup, Option.getD_some]
        have hrow := @offsetTarget_targetAmong site _ _ hjoin hstarts (some key)
        rw [htarget] at hrow ⊢
        rw [lookup_of_mem (hascending.imp fun h => Int.ne_of_lt h)
          (List.mem_map.mpr ⟨_, hpair, rfl⟩)]
        exact hrow

end SwitchSite

end Gen

end StackCode
