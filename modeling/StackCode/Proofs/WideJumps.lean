import StackCode.Proofs.Decoding
import StackCode.Proofs.LockstepMethods

/-!
# Wide jumps leave a program what it is

A method that does not fit narrow jumps is generated once more with wide ones. Apart from its
branches it is the same program then (`Gen.methodBody_straightLine`): reading back either code
gives the same instructions in the same order, and the runs need the same stack, the same
registers and the same pool.

Both codes are laid out as the same segments, so it is enough to read a segment back in either
of them. A branch is one instruction or two and shows in neither list; a switch shows by its
keys, which stand at the same words of its table.
-/

namespace StackCode

namespace Instruction

/-- What an instruction says apart from where it stands. The targets of a switch are places,
so that only its keys count. -/
inductive Content where
  | plain (op : Opcode) (wide : Bool) (operands : Array UInt8)
  | switch (op : Opcode) (keys : List Int)
deriving DecidableEq, Repr

/-- The bytes behind the opcode. -/
def operands (i : Instruction) (code : Array UInt8) : Array UInt8 :=
  code.extract (i.pc + if i.wide then 2 else 1) (i.pc + i.length)

def content (i : Instruction) (code : Array UInt8) : Except Error Content := do
  match ← i.switchTable? code with
  | some table => return .switch i.op (table.cases.map Prod.fst)
  | none => return .plain i.op i.wide (i.operands code)

/-- What the instructions of a code say, its branches left out. -/
def straightLine (code : Array UInt8) : Except Error (List Content) := do
  ((← decode code).filter fun i => !i.op.isBranch).mapM (·.content code)

end Instruction

open Instruction

/-! ### Reading a segment back -/

/-- From `lo` to `hi` the bytes read as instructions which, apart from branches, say `cs`. -/
def Says (bs : Array UInt8) (lo : Nat) (cs : List Content) (hi : Nat) : Prop :=
  ∃ fs, Reads bs lo fs hi ∧
    ((Form.row lo fs).filter fun i => !i.op.isBranch).mapM (·.content bs) = .ok cs

theorem Form.row_append (lo : Nat) (fs gs : List Form) :
    Form.row lo (fs ++ gs) = Form.row lo fs ++ Form.row (Form.stop lo fs) gs := by
  induction fs generalizing lo with
  | nil => rfl
  | cons f fs ih => simp only [List.cons_append, Form.row, Form.stop, ih]

namespace Says

variable {bs : Array UInt8} {lo mid hi : Nat} {cs ds : List Content}

theorem append (h : Says bs lo cs mid) (h' : Says bs mid ds hi) : Says bs lo (cs ++ ds) hi := by
  obtain ⟨fs, hfs, hcs⟩ := h
  obtain ⟨gs, hgs, hds⟩ := h'
  refine ⟨fs ++ gs, hfs.append hgs, ?_⟩
  rw [Form.row_append, hfs.stop_eq, List.filter_append, List.mapM_append, hcs, hds]
  rfl

theorem nil (bs : Array UInt8) (lo : Nat) : Says bs lo [] lo := ⟨[], rfl, rfl⟩

/-- One instruction that is no branch. -/
theorem one {op : Opcode} {n : Nat} {wide : Bool} {c : Content}
    (hshape : shapeAt bs lo = .ok (op, n, wide)) (hsize : lo + n ≤ bs.size)
    (hop : op.isBranch = false) (hc : content ⟨lo, op, n, wide⟩ bs = .ok c) :
    Says bs lo [c] (lo + n) := by
  refine ⟨[⟨op, n, wide, none⟩],
    ⟨⟨decodeAt_eq_ok.mpr ⟨op, n, wide, hshape, hsize, rfl⟩, nofun⟩, rfl⟩, ?_⟩
  simp only [Form.row, Form.ins, List.filter_cons, hop, Bool.not_false, if_true, List.filter_nil,
    List.mapM_cons, hc, List.mapM_nil]
  rfl

/-- A branch. -/
theorem branch {op : Opcode} {n : Nat} (hbyte : bs[lo]? = some op) (hn : op.length? = some (n + 1))
    (hop : op.isBranch = true) (hsize : lo + (n + 1) ≤ bs.size) : Says bs lo [] (lo + (n + 1)) := by
  refine ⟨[⟨op, n + 1, false, none⟩], ⟨⟨decodeAt_eq_ok.mpr ?_, nofun⟩, rfl⟩, ?_⟩
  · exact ⟨op, n + 1, false, shapeAt_of_length hbyte hn, hsize, rfl⟩
  · simp only [Form.row, Form.ins, List.filter_cons, hop, Bool.not_true, Bool.false_eq_true,
      if_false, List.filter_nil, List.mapM_nil]
    rfl

theorem straightLine (h : Says bs 0 cs bs.size) : straightLine bs = .ok cs := by
  obtain ⟨fs, hfs, hcs⟩ := h
  rw [Instruction.straightLine, hfs.decode_eq]
  exact hcs

end Says

/-! ### Reading segments back -/

namespace Seg

variable {far : Bool} {bs : Array UInt8} {pc : Nat}

theorem says_code {op : Opcode} {wide : Bool} {operands : Array UInt8}
    (hsound : (code op wide operands).Sound) (h : (code op wide operands).StandsAt far bs pc)
    (hsize : pc + (code op wide operands).size far pc ≤ bs.size) :
    Says bs pc [.plain op wide operands] (pc + (code op wide operands).size far pc) := by
  obtain ⟨hbranch, htable, hlookup, hlen⟩ := hsound
  have hno (n : Nat) : switchTable? ⟨pc, op, n, wide⟩ bs = .ok none := by
    simp [switchTable?, htable, hlookup]
    rfl
  have hextract (lead : Array UInt8) (hlead : plainBytes op wide operands = lead ++ operands) :
      bs.extract (pc + lead.size) (pc + (plainBytes op wide operands).size) = operands := by
    rw [size] at hsize
    rw [StandsAt] at h
    rw [hlead] at h hsize ⊢
    refine Array.ext_getElem? fun i => ?_
    rw [Array.getElem?_extract]
    rw [Array.size_append] at hsize h ⊢
    by_cases hi : i < operands.size
    · have hbyte := h (lead.size + i) (by omega)
      rw [if_pos (by omega), show pc + lead.size + i = pc + (lead.size + i) by omega, hbyte,
        Array.getElem?_append_right (by omega)]
      simp
    · rw [if_neg (by omega), Array.getElem?_eq_none (by omega)]
  cases wide with
  | false =>
      have hbytes : (plainBytes op false operands).size = operands.size + 1 := by
        simp [plainBytes, Nat.add_comm]
      have hop : bs[pc]? = some op := by
        have hbyte := h 0 (by omega)
        simpa [plainBytes] using hbyte
      have hshape := shapeAt_of_length hop (show op.length? = _ by simpa using hlen)
      rw [← hbytes] at hshape
      refine .one hshape hsize hbranch ?_
      rw [content, hno]
      exact congrArg (fun ops => Except.ok (Content.plain op false ops)) (hextract #[op] rfl)
  | true =>
      have hbytes : (plainBytes op true operands).size = operands.size + 2 := by
        simp [plainBytes]
        omega
      have hwide : bs[pc]? = some Opcode.wide := by
        have hbyte := h 0 (by omega)
        simpa [plainBytes] using hbyte
      have hop : bs[pc + 1]? = some op := by
        have hbyte := h 1 (by omega)
        simpa [plainBytes, Array.getElem?_append] using hbyte
      have hshape := shapeAt_of_wide hwide hop
      rw [← show operands.size + 2 = if op = .iinc then 6
        else 4 by simpa using hlen, ← hbytes] at hshape
      refine .one hshape hsize hbranch ?_
      rw [content, hno]
      exact congrArg (fun ops => Except.ok (Content.plain op true ops))
        (hextract (#[Opcode.wide] ++ #[op]) (by simp [plainBytes]))

theorem says_jump {op : Opcode} {frame : Frame} (hsound : (jump op frame).Sound)
    (h : (jump op frame).StandsAt far bs pc) (hsize : pc + (jump op frame).size far pc ≤ bs.size) :
    Says bs pc [] (pc + (jump op frame).size far pc) := by
  have hcond : ∀ op ∈ Opcode.conditionals, (op.length? = some 3 ∧ op.isBranch = true) ∧
      op.negate.length? = some 3 ∧ op.negate.isBranch = true := by
    decide +kernel
  have hwidened : op.widened.length? = some 5 ∧ op.widened.isBranch = true := by
    unfold Opcode.widened
    split <;> decide +kernel
  cases far with
  | false =>
      have hop : op.length? = some 3 ∧ op.isBranch = true := by
        rcases hsound with hop | rfl | rfl
        · exact (hcond op (Opcode.mem_conditionals hop)).1
        · decide +kernel
        · decide +kernel
      exact .branch h hop.1 hop.2 hsize
  | true =>
      obtain ⟨hbyte, hlead⟩ := h
      simp only [size, Opcode.lead, if_true] at hsize hbyte ⊢
      cases hop : op.isConditional with
      | false =>
          simp only [hop, Bool.false_eq_true, if_false, Nat.zero_add, Nat.add_zero] at hsize hbyte ⊢
          exact .branch hbyte hwidened.1 hwidened.2 hsize
      | true =>
          simp only [hop, if_true] at hsize hbyte ⊢
          have hneg := (hcond op (Opcode.mem_conditionals hop)).2
          have haround : Says bs pc [] (pc + 3) := .branch (hlead hop) hneg.1 hneg.2 (by omega)
          have hgoto : Says bs (pc + 3) [] (pc + 3 + 5) :=
            .branch hbyte hwidened.1 hwidened.2 (by omega)
          exact haround.append hgoto

theorem says_gone (h : gone.StandsAt far bs pc) (hsize : pc + gone.size far pc ≤ bs.size) :
    Says bs pc [] (pc + gone.size far pc) := by
  cases far with
  | false => exact .nil bs pc
  | true =>
      exact .branch (h rfl) (show Opcode.gotoW.length? = some 5 by decide +kernel) (by decide) hsize

/-- The words of a table, one behind the other. -/
theorem StandsAt.word {op : Opcode} {words : List (Int32 × Int32)}
    (h : (table op words).StandsAt far bs pc) {i : Nat} (hi : i < words.length) :
    intAt bs (switchBase pc + 4 * i) = .ok (wordOf far (words.getD i default)).toInt := by
  refine h.2 i _ ?_
  rw [List.getD_eq_getElem?_getD, List.getElem?_eq_getElem hi, Option.getD_some]

theorem wordOf_self (far : Bool) (w : Int32) : wordOf far (w, w) = w := by
  cases far <;> rfl

/-- The keys of a dense table are those between its bounds. -/
theorem says_dense {words : List (Int32 × Int32)} {lo hi : Int32} {n : Nat}
    (hkeyed : Keyed .dense lo hi n words) (h : (table Layout.dense.opcode words).StandsAt far bs pc)
    (hsize : pc + (table Layout.dense.opcode words).size far pc ≤ bs.size) :
    Says bs pc
      [.switch Layout.dense.opcode
        ((List.range (hi.toInt - lo.toInt + 1).toNat).map fun i : Nat => lo.toInt + i)]
      (pc + (table Layout.dense.opcode words).size far pc) := by
  obtain ⟨hlo, hhi, hle, hlen⟩ := hkeyed
  have hbase := lt_switchBase pc
  have hlo : intAt bs (switchBase pc + 4) = .ok lo.toInt := by
    rw [← wordOf_self far lo]
    exact h.2 1 _ hlo
  have hhi : intAt bs (switchBase pc + 8) = .ok hi.toInt := by
    rw [← wordOf_self far hi]
    exact h.2 2 _ hhi
  have hdefault := h.word (i := 0) (by omega)
  have hcases : tableCases bs pc (words.length - 3) lo.toInt (switchBase pc + 12) = .ok _ :=
    tableCases_eq fun i hi => by
      rw [show switchBase pc + 12 + 4 * i = switchBase pc + 4 * (3 + i) by omega]
      exact h.word (by omega)
  have hlength : switchBase pc - pc + 12 + 4 * (hi.toInt - lo.toInt + 1).toNat =
      (table Layout.dense.opcode words).size far pc := by
    simp only [size]
    omega
  have hshape := shapeAt_of_table h.1 hlo hhi hle
  rw [hlength] at hshape
  rw [show words.length - 3 = (hi.toInt - lo.toInt + 1).toNat by omega] at hcases
  refine .one hshape hsize (by decide) ?_
  simp only [Nat.mul_zero, Nat.add_zero] at hdefault
  simp only [content, switchTable?, if_true, hdefault, hlo, hhi, bind, Except.bind, hcases]
  simp [pure, Except.pure, Function.comp_def, Layout.opcode]

/-- The keys of a sparse table stand at every other word. -/
theorem says_sparse {words : List (Int32 × Int32)} {lo hi : Int32} {n : Nat}
    (hkeyed : Keyed .sparse lo hi n words)
    (h : (table Layout.sparse.opcode words).StandsAt far bs pc)
    (hsize : pc + (table Layout.sparse.opcode words).size far pc ≤ bs.size)
    (hshort : bs.size < 0xFFFFFFFF) :
    Says bs pc
      [.switch Layout.sparse.opcode
        ((List.range n).map fun i => (words.getD (2 + 2 * i) default).1.toInt)]
      (pc + (table Layout.sparse.opcode words).size far pc) := by
  obtain ⟨hcount, hlen, hkeys⟩ := hkeyed
  have hbase := lt_switchBase pc
  have hlength : switchBase pc - pc + 8 + 8 * n =
      (table Layout.sparse.opcode words).size far pc := by
    simp only [size]
    omega
  have hcount : intAt bs (switchBase pc + 4) = .ok (n : Int) := by
    have hn : (Int32.ofNat n).toInt = n := by
      rw [← hlength] at hsize
      exact Int32.toInt_ofNat_of_lt (by omega)
    rw [← hn, ← wordOf_self far (.ofNat n)]
    exact h.2 1 _ hcount
  have hdefault := h.word (i := 0) (by omega)
  have hkey (i : Nat) (hi : i < n) : intAt bs (switchBase pc + 8 + 8 * i) =
      .ok (words.getD (2 + 2 * i) default).1.toInt := by
    have hget := List.getElem?_eq_getElem (l := words) (i := 2 + 2 * i) (by omega)
    have hsame := hkeys i _ hget
    rw [show switchBase pc + 8 + 8 * i = switchBase pc + 4 * (2 + 2 * i) by omega, h.2 _ _ hget,
      List.getD_eq_getElem?_getD, hget]
    cases far with
    | false => rfl
    | true => exact congrArg (fun w => Except.ok w.toInt) hsame.symm
  have hcases : lookupCases bs pc n (switchBase pc + 8) = .ok _ :=
    lookupCases_eq hkey fun i hi => by
      rw [show switchBase pc + 8 + 8 * i + 4 = switchBase pc + 4 * (3 + 2 * i) by omega]
      exact h.word (by omega)
  have hshape := shapeAt_of_pairs h.1 hcount (Int.natCast_nonneg n)
  rw [Int.toNat_natCast, hlength] at hshape
  refine .one hshape hsize (by decide) ?_
  simp only [Nat.mul_zero, Nat.add_zero] at hdefault
  simp only [content, switchTable?, hdefault, hcount, Int.toNat_natCast, hcases, bind, Except.bind,
    show Opcode.lookupswitch ≠ Opcode.tableswitch by decide, if_true, if_false]
  simp [pure, Except.pure, Function.comp_def, Layout.opcode]

/-- A segment says the same in either code. -/
theorem Sound.content {s : Seg} (hs : s.Sound) : ∃ cs, ∀ far bs pc, s.StandsAt far bs pc →
    pc + s.size far pc ≤ bs.size → bs.size < 0xFFFFFFFF → Says bs pc cs (pc + s.size far pc) := by
  cases s with
  | code op wide operands => exact ⟨_, fun _ _ _ h hsize _ => says_code hs h hsize⟩
  | table op words =>
      obtain ⟨layout, lo, hi, n, rfl, hkeyed⟩ := hs
      cases layout with
      | dense => exact ⟨_, fun _ _ _ h hsize _ => says_dense hkeyed h hsize⟩
      | sparse => exact ⟨_, fun _ _ _ h hsize hshort => says_sparse hkeyed h hsize hshort⟩
  | jump op frame => exact ⟨_, fun _ _ _ h hsize _ => says_jump hs h hsize⟩
  | gone => exact ⟨_, fun _ _ _ h hsize _ => says_gone h hsize⟩

end Seg

/-- Segments say the same in either code, from any of them on. -/
theorem says_drop {segs : List Seg} (hs : ∀ s ∈ segs, s.Sound) (k : Nat) (hk : k ≤ segs.length) :
    ∃ cs, ∀ far bs, Laid far segs bs → bs.size < 0xFFFFFFFF →
      Says bs (startAt far segs k) cs bs.size := by
  induction hk using Nat.decreasingInduction with
  | self =>
      refine ⟨[], fun far bs h _ => ?_⟩
      rw [startAt_length, h.size]
      exact .nil bs _
  | of_succ k hk ih =>
      obtain ⟨cs, hcs⟩ := ih
      have hget := List.getElem?_eq_getElem hk
      obtain ⟨ds, hds⟩ := (hs _ (List.getElem_mem hk)).content
      refine ⟨ds ++ cs, fun far bs h hshort => ?_⟩
      have hfirst := hds far bs _ (h.stands k _ hget) (h.end_le hget) hshort
      rw [← startAt_succ hget] at hfirst
      exact hfirst.append (hcs far bs h hshort)

/-- Two codes that are laid out as the same segments differ in branches only. -/
theorem straightLine_of_laid {segs : List Seg} (hs : ∀ s ∈ segs, s.Sound) {bs bs' : Array UInt8}
    (hnear : Laid false segs bs) (hfar : Laid true segs bs') (hshort : bs'.size < 0xFFFFFFFF) :
    ∃ cs, straightLine bs = .ok cs ∧ straightLine bs' = .ok cs := by
  obtain ⟨cs, hcs⟩ := says_drop hs 0 (Nat.zero_le _)
  have hle : bs.size ≤ bs'.size := by
    rw [hnear.size, hfar.size]
    exact extent_le segs
  exact ⟨cs, (hcs false bs hnear (by omega)).straightLine, (hcs true bs' hfar hshort).straightLine⟩

/-- Generating a method once more with wide jumps gives the same program. If a body without
`letIn` and without handlers can be generated both ways, from the same state of its class and with
the same choice of subroutines, then the two codes hold, apart from their branches, the same
instructions in the same order, with the same operands and the same keys of switches; and both
need the same stack and the same registers and leave the same pool. The wide code is taken to be
so short that its positions are told by 32 bits, the greatest of which marks an open target. -/
theorem Gen.methodBody_straightLine (ctx : Context) (body : Stmt) (hlet : body.letFree = true)
    (hcatch : body.catchFree = true) (s : ClassState) (subroutines : Bool) (near far : MethodState)
    (hnear : methodBody ctx body (ClassGen.firstState ctx false subroutines s) = .ok () near)
    (hfar : methodBody ctx body (ClassGen.firstState ctx true subroutines s) = .ok () far)
    (hshort : far.asm.code.bytes.size < 0xFFFFFFFF) :
    (∃ cs, straightLine near.asm.code.bytes = .ok cs ∧ straightLine far.asm.code.bytes = .ok cs) ∧
      near.asm.code.maxStack = far.asm.code.maxStack ∧
      near.asm.code.maxLocals = far.asm.code.maxLocals ∧ near.asm.pool = far.asm.pool := by
  obtain ⟨g, htied⟩ := methodBody_tied hlet hcatch hnear hfar hshort
  have hcode := htied.code
  exact ⟨straightLine_of_laid hcode.sound hcode.near hcode.far hshort, hcode.maxStack,
    hcode.maxLocals, htied.pool⟩

/-- `while (b) switch (i) { case 1: break; default: i = 2; }` in a method with these parameters. -/
def Stmt.loopingSwitch (b i : LocalVar) : Stmt :=
  let info (id : NodeId) : StmtInfo := ⟨id, default⟩
  let change : Stmt := .exec (info 5) (.assignTo default (.ofVar default i) (.ofInt default 2))
  let choice : Stmt := .switch (info 3) (.ofVar default i)
    [.mk default (some (.ofInt default 1)) [.breakTo (info 4) 3], .mk default none [change]]
  .block (info 1) [.whileLoop (info 2) (.ofVar default b) choice]

/-- The test of the loop is one branch in the narrow code and two in the wide code. -/
theorem Gen.methodBody_loopingSwitch :
    let b : LocalVar := ⟨0, "b", .boolean, none⟩
    let i : LocalVar := ⟨1, "i", .int, none⟩
    let body := Stmt.loopingSwitch b i
    let ctx : Context :=
      ⟨{}, Hierarchy.resolver {}, "C", .ofParams default "m" Access.staticBit [b, i] .void
      (some body)⟩
    ∃ near far, methodBody ctx body (ClassGen.firstState ctx false false {}) = .ok () near ∧
      methodBody ctx body (ClassGen.firstState ctx true false {}) = .ok () far ∧
      near.asm.code.bytes.size = 33 ∧ far.asm.code.bytes.size = 41 ∧
      ∃ cs, straightLine near.asm.code.bytes = .ok cs ∧
        straightLine far.asm.code.bytes = .ok cs := by
  intro b i body ctx
  have hends (wide : Bool) (n : Nat)
      (h : (match methodBody ctx body (ClassGen.firstState ctx wide false {}) with
        | .ok _ s => some s.asm.code.bytes.size
        | .error _ _ => none) = some n) :
      ∃ s, methodBody ctx body (ClassGen.firstState ctx wide false {}) = .ok () s ∧
        s.asm.code.bytes.size = n := by
    split at h
    · rename_i hrun
      exact ⟨_, hrun, Option.some.inj h⟩
    · cases h
  obtain ⟨near, hnear, hsize⟩ := hends false 33 (by decide +kernel)
  obtain ⟨far, hfar, hsize'⟩ := hends true 41 (by decide +kernel)
  exact ⟨near, far, hnear, hfar, hsize, hsize',
    (methodBody_straightLine ctx body (by decide) (by decide)
    {} false near far hnear hfar (by omega)).1⟩

end StackCode
