import StackCode.Proofs.Sessions

/-!
# Positions that have been seen

A trailing `goto` is taken back if nothing depends on the place behind it. Places that something
depends on are those that the buffer has given out and those that it has led branches to. None of
them may come to lie behind the end of the code.

The buffer marks its end as seen for this purpose. While the end is not marked, an open branch
that ends there is the one that was written last, and every place that has been seen is at or
before its start (`Code.Firm`).

There is one gap: if a chain is resolved to the end of the code and its only branch is taken back,
the end stays unmarked, though it may have been seen before that branch was written. The places
that have been seen are safe as long as this does not happen (`Session.seen_le_pc`), and can be
lost where it does (`Session.seen_lost`).
-/

namespace StackCode

open Instruction

theorem le_size_of_shortAt {a : Array UInt8} {p : ℕ} {o : Int} (h : shortAt a p = .ok o) :
    p + 2 ≤ a.size := by
  obtain ⟨hi, -, h⟩ := Except.bind_eq_ok.mp h
  obtain ⟨lo, hlo, -⟩ := Except.bind_eq_ok.mp h
  have := (Array.getElem?_eq_some_iff.mp (byteAt_eq_ok.mp hlo)).1
  omega

namespace Code

/-- The places `Q` are within the code, and the branches `O` are open. -/
structure Bounds (c : Code) (O : List Link) (Q : List Int) : Prop extends c.Tidy O where
  narrow : c.wide = false
  blank : ∀ l ∈ O, shortAt c.bytes (l.pc + 1) = .ok 0
  seen : ∀ q ∈ Q, q ≤ c.pc

/-- No place of `Q` is lost if one of the branches `O` is taken back. -/
def Firm (c : Code) (O : List Link) (Q : List Int) : Prop :=
  c.fixed = false → ∀ l ∈ O, l.pc + 3 = c.pc → ∀ q ∈ Q, q ≤ l.pc

/-- The branch of a link has been taken back just now, or it leads to a place within the code. -/
def Landed (c : Code) (l : Link) : Prop :=
  c.pc = l.pc ∨ ∃ o, shortAt c.bytes (l.pc + 1) = .ok o ∧ l.pc + o ≤ c.pc

variable {c c' : Code} {O O' : List Link} {Q : List Int} {chain : Chain} {l : Link} {target : ℕ}

theorem Bounds.end_le (h : c.Bounds O Q) (hl : l ∈ O) : l.pc + 3 ≤ c.pc := by
  have hend := h.within l hl
  rwa [h.narrow] at hend

theorem Bounds.perm (h : c.Bounds O Q) (hperm : O.Perm O') : c.Bounds O' Q :=
  ⟨h.toTidy.perm hperm, h.narrow, fun l hl => h.blank l (hperm.mem_iff.mpr hl), h.seen⟩

theorem Bounds.append (h : c.Bounds O Q) {Q' : List Int} (hQ' : ∀ q ∈ Q', q ≤ c.pc) :
    c.Bounds O (Q' ++ Q) :=
  { h with seen := fun q hq => (List.mem_append.mp hq).elim (hQ' q) (h.seen q) }

theorem Firm.perm (h : c.Firm O Q) (hperm : O.Perm O') : c.Firm O' Q :=
  fun hfixed l hl => h hfixed l (hperm.mem_iff.mpr hl)

theorem Firm.of_fixed (hfixed : c.fixed = true) : c.Firm O Q := by
  intro hloose
  rw [hfixed] at hloose
  cases hloose

/-- More code is written. -/
theorem Bounds.grown (h : c.Bounds O Q) (htidy : c'.Tidy O) {bs : Array UInt8}
    (hbytes : c'.bytes = c.bytes ++ bs) (hwide : c'.wide = c.wide) : c'.Bounds O Q := by
  have hpc := le_pc_of_append hbytes
  refine ⟨htidy, hwide.trans h.narrow, fun l hl => ?_, fun q hq => ?_⟩
  · have hagree : Agree c.bytes c'.bytes (l.pc + 1) (l.pc + 1 + 2) := by
      rw [hbytes]
      exact (Agree.append c.bytes bs 0).mono (Nat.zero_le _) (h.end_le hl)
    rw [shortAt_congr hagree, h.blank l hl]
  · have := h.seen q hq
    omega

/-- Open branches end where the code has ended before. -/
theorem Bounds.firm_of_lt (h : c.Bounds O Q) {Q' : List Int} (hlt : c.pc < c'.pc) :
    c'.Firm O Q' := by
  intro _ l hl hend
  have := h.end_le hl
  omega

/-! ### Branches that have got their target -/

theorem leads_le_pc (h : ∀ l ∈ chain, c.Landed l) : ∀ q ∈ c.leads chain, q ≤ c.pc := by
  intro q hq
  obtain ⟨l, hl, hq⟩ := List.mem_filterMap.mp hq
  cases ho : shortAt c.bytes (l.pc + 1) with
  | error e =>
      rw [ho] at hq
      cases hq
  | ok o =>
      rw [ho] at hq
      obtain rfl := Option.some.inj hq
      rcases h l hl with hgone | ⟨o', ho', hle⟩
      · -- nothing can be read where the branch was
        have := le_size_of_shortAt ho
        unfold pc at hgone
        omega
      · rw [ho] at ho'
        cases ho'
        exact hle

/-- Resolving a chain keeps the other branches open and the places that have been seen within the
code. -/
theorem Bounds.resolved (h : c.Bounds (chain ++ O) Q) (hfirm : c.Firm (chain ++ O) Q)
    (hne : chain ≠ []) (htarget : target ≤ c.pc)
    (hrun : Emit.resolveTo chain target c = .ok () c') :
    c'.Bounds O (c'.leads chain ++ Q) := by
  have hresolved := h.toTidy.left.chainResolved hne htarget hrun
  have hbefore := h.toTidy.before hresolved
  obtain ⟨kept, t, hkept, hsub, ht, hcut⟩ := hresolved.kept
  have hblank : ∀ m ∈ O, shortAt c'.bytes (m.pc + 1) = .ok 0 := by
    intro m hm
    have hend := hbefore m hm
    rw [h.narrow] at hend
    rw [← h.blank m (List.mem_append_right _ hm)]
    refine shortAt_congr fun k hlo hhi => hkept.others k (Nat.lt_of_lt_of_le hhi hend)
      fun l hl => ?_
    have hapart := (List.pairwise_append.mp h.apart).2.2 l (hsub hl) m hm
    rw [h.narrow] at hapart ⊢
    unfold Link.Apart branchSize at *
    simp only [Bool.false_eq_true, if_false] at hapart ⊢
    omega
  have hseen : ∀ q ∈ Q, q ≤ c'.pc := by
    intro q hq
    rcases hcut with ⟨-, hpc⟩ | ⟨l, rfl, hpc, hend, hfixed, -⟩
    · exact hpc ▸ h.seen q hq
    · exact hpc ▸ hfirm hfixed l List.mem_cons_self hend q hq
  have hlanded : ∀ m ∈ chain, c'.Landed m := by
    intro m hm
    have hgone : m ∈ kept ∨ c'.pc = m.pc := by
      rcases hcut with ⟨rfl, -⟩ | ⟨l, rfl, hpc, -⟩
      · exact .inl hm
      · rcases List.mem_cons.mp hm with rfl | hm
        · exact .inr hpc
        · exact .inl hm
    rcases hgone with hm' | hgone
    · by_cases hnear : Near m.pc t
      · exact .inr ⟨_, hkept.near h.narrow m hm' hnear, by omega⟩
      · -- an offset that does not fit is left as it was
        have hread : shortAt c'.bytes (m.pc + 1) = .ok 0 := by
          rw [shortAt_congr (hkept.far h.narrow m hm' hnear), h.blank m (List.mem_append_left _ hm)]
        have := le_size_of_shortAt hread
        exact .inr ⟨0, hread, by unfold pc; omega⟩
    · exact .inl hgone
  exact (Bounds.mk (h.toTidy.settled hne htarget hrun)
    (hresolved.wide.trans h.narrow) hblank hseen).append
    (leads_le_pc hlanded)

/-- So does resolving the branches that wait. -/
theorem Bounds.flushed (h : c.Bounds (c.pending ++ O) Q) (hfirm : c.Firm (c.pending ++ O) Q)
    (hrun : Emit.resolvePending c = .ok () c') : c'.Bounds O (c'.leads c.pending ++ Q) := by
  obtain ⟨htidy, -, ⟨hnil, rfl⟩ | ⟨hne, hrun, -⟩⟩ := h.toTidy.flushed hrun
  · rw [hnil] at h ⊢
    exact h
  · have h₀ : Bounds { c with pending := [] } (c.pending ++ O) Q :=
      ⟨h.toTidy.of_eq rfl rfl id, h.narrow, h.blank, h.seen⟩
    exact h₀.resolved hfirm hne (Nat.le_refl _) hrun

/-- A branch is written with its offset open. -/
theorem shortAt_branch {op : UInt8} (hbytes : c'.bytes = c.bytes ++ (#[op] ++ wordBytes 0)) :
    shortAt c'.bytes (c.pc + 1) = .ok 0 := by
  have hat (k : ℕ) : c'.bytes[c.pc + k]? = (#[op] ++ wordBytes 0)[k]? := by
    rw [hbytes, Array.getElem?_append_right
      (show c.bytes.size ≤ c.pc + k from Nat.le_add_right _ _)]
    exact congrArg _ (Nat.add_sub_cancel_left _ _)
  rw [shortAt_wordBytes (w := 0) (hat 1) (hat 2)]
  decide

/-- It begins where the code has ended, so nothing behind its start has been seen. -/
theorem Bounds.branched (h : c.Bounds O Q) (htidy : c'.Tidy (l :: O)) {op : UInt8}
    (hbytes : c'.bytes = c.bytes ++ (#[op] ++ wordBytes 0)) (hwide : c'.wide = c.wide)
    (hl : l.pc = c.pc) :
    c'.Bounds (l :: O) Q ∧ c'.Firm (l :: O) Q := by
  have hpc : c'.pc = c.pc + 3 := by
    unfold pc
    rw [hbytes, Array.size_append]
    rfl
  have hrest : c'.Tidy O := ⟨fun m hm => htidy.within m (List.mem_cons_of_mem _ hm),
    (List.pairwise_cons.mp htidy.apart).2, fun hw _ => htidy.shut hw (List.cons_ne_nil _ _)⟩
  have hold := h.grown hrest hbytes hwide
  refine ⟨⟨htidy, hold.narrow, ?_, hold.seen⟩, fun hfixed m hm hend q hq => ?_⟩
  · refine List.forall_mem_cons.mpr ⟨?_, hold.blank⟩
    rw [hl, shortAt_branch hbytes]
  · rcases List.mem_cons.mp hm with rfl | hm
    · exact hl ▸ h.seen q hq
    · have := h.end_le hm
      omega

end Code

/-! ### Runs -/

namespace Session

/-- A chain may be resolved to any place up to the end of the code, but its only branch is not taken
back. -/
def Marking (c : Code) (chain : Chain) (target : ℕ) : Prop :=
  target ≤ c.pc ∧ (c.takesBack chain target = true → chain.length ≠ 1)

variable {c c' : Code} {O O' : List Link} {Q Q' : List Int} {s : Session}

theorem bounds_turn (h : c.Bounds O Q) (hfirm : c.Firm O Q) (hturn : Turn Marking c O Q c' O' Q') :
    c'.Bounds O' Q' ∧ c'.Firm O' Q' := by
  have htidy := h.toTidy.turn (fun _ _ _ hto => hto.1) hturn
  cases hturn with
  | rest pending line alive hopen =>
      have h := h.perm hopen
      exact ⟨⟨htidy, h.narrow, h.blank, h.seen⟩, hfirm.perm hopen⟩
  | mark =>
      refine ⟨h.grown htidy (c.bytes_markLine.trans Array.append_empty.symm) c.wide_markLine, ?_⟩
      intro hfixed l hl hend
      exact hfirm (c.fixed_markLine ▸ hfixed) l hl (hend.trans c.pc_markLine)
  | @settle chain _ _ _ hopen hne hto hrun =>
      refine ⟨(h.perm hopen).resolved (hfirm.perm hopen) hne hto.1 hrun, .of_fixed ?_⟩
      obtain ⟨l, rest, rfl⟩ := List.exists_cons_of_ne_nil hne
      obtain ⟨alive, fixed, frame, maxStack, -, ⟨-, rfl, rfl⟩ | ⟨hback, hlone | rfl, rfl⟩⟩ :=
        Emit.resolveTo_cases hto.1 hrun
      · rfl
      · exact absurd (congrArg (List.length <| l :: ·) hlone) (hto.2 hback)
      · rfl
  | @write c₁ _ bs _ _ _ hopen hflush hbs =>
      subst hopen
      have hflushed := h.flushed hfirm hflush
      refine ⟨hflushed.grown htidy rfl c₁.wide_markLine, hflushed.firm_of_lt ?_⟩
      show c₁.bytes.size < (c₁.bytes ++ bs).size
      rw [Array.size_append]
      omega
  | @ask c₁ _ alive hopen hflush =>
      subst hopen
      have hflushed := (h.flushed hfirm hflush).append
        (fun q hq => Int.le_of_eq (List.mem_singleton.mp hq) : ∀ q ∈ [(c₁.pc : Int)], q ≤ c₁.pc)
      exact ⟨hflushed.grown htidy (c₁.bytes_markLine.trans Array.append_empty.symm)
        c₁.wide_markLine, .of_fixed rfl⟩
  | @branch c₀ c₁ H _ bs _ _ _ hstart hopen hflush hlink hend hbs =>
      subst hopen
      have h₀ : c₀.Bounds (c₀.pending ++ H) Q ∧ c₀.Firm (c₀.pending ++ H) Q := by
        rcases hstart with rfl | rfl
        · exact ⟨h, hfirm⟩
        · exact ⟨⟨h.toTidy.of_eq rfl rfl id, h.narrow, h.blank, h.seen⟩, hfirm⟩
      obtain ⟨op, rfl⟩ := hbs h.narrow
      rw [h.narrow] at hend
      exact (h₀.1.flushed h₀.2 hflush).branched htidy rfl c₁.wide_markLine
        (Nat.add_right_cancel hend)

/-- The places that have been seen stay within the code, as long as no chain loses its only
branch. A `goto` that may still be taken back starts behind all of them. -/
theorem seen_le_pc {config : Config} (h : Reaches Marking false config s) :
    (∀ q ∈ s.seen, q ≤ s.code.pc) ∧
      ∀ l ∈ s.unsettled, s.code.Dangling l.pc → ∀ q ∈ s.seen, q ≤ l.pc := by
  have hsound : s.code.Bounds s.unsettled s.seen ∧ s.code.Firm s.unsettled s.seen := by
    induction h with
    | refl =>
        have hnone {P : Link → Prop} : ∀ l ∈ (fresh false config).unsettled, P l :=
          fun _ hl => absurd hl List.not_mem_nil
        exact ⟨⟨⟨hnone, .nil, nofun⟩, rfl, hnone, fun _ hq => absurd hq List.not_mem_nil⟩,
          fun _ => hnone⟩
    | tail _ hstep ih => exact bounds_turn ih.1 ih.2 hstep.turn
  exact ⟨hsound.1.seen, fun l hl hloose => hsound.2 hloose.unseen l hl hloose.ends⟩

/-- A buffer after some calls. -/
def buffer (bytes : Array UInt8) (alive fixed : Bool) : Code :=
  { Code.new false {} with bytes, alive, fixed }

set_option maxRecDepth 4000 in
/-- A `goto` to itself behind a position that was given out. -/
theorem seen_le_pc_loop : ∃ s, Reaches Marking false {} s ∧ s.code.pc = 4 ∧ s.seen = [1, 0] ∧
    ∀ q ∈ s.seen, q ≤ s.code.pc := by
  have hentry : Reaches Marking false {} ⟨buffer #[] true true, [], [0]⟩ := .single (.entry rfl)
  have hnop : Reaches Marking false {} ⟨buffer #[Opcode.nop] true true, [], [0]⟩ :=
    hentry.tail (.write (Emit.writes_plain .nop) Nat.zero_lt_one rfl)
  have hgoto : Reaches Marking false {} ⟨buffer #[Opcode.nop, Opcode.goto, 0, 0] false false,
      [[⟨1, {}⟩]], [0]⟩ :=
    hnop.tail (.branch (fun _ => .inr (.inl rfl)) (show Emit.branch .goto _ = _ from rfl))
  have hloop : Reaches Marking false {} ⟨buffer #[Opcode.nop, Opcode.goto, 0, 0] false true, [],
      [1, 0]⟩ := by
    have hleads : (buffer #[Opcode.nop, Opcode.goto, 0, 0] false true).leads [⟨1, {}⟩] = [1] := by
      decide +kernel
    have hstep := hgoto.tail (.resolveTo (show _ = [] ++ [⟨1, {}⟩] :: [] from rfl)
      (show Marking _ _ 1 from ⟨show 1 ≤ 4 by decide, by decide⟩)
      (show Emit.resolveTo _ _ _ = .ok ()
        (buffer #[Opcode.nop, Opcode.goto, 0, 0] false true) from rfl))
    rwa [hleads] at hstep
  exact ⟨_, hloop, rfl, rfl, (seen_le_pc hloop).1⟩

/-- The same code without a `goto` at its end, and with control here. -/
def back (c : Code) : Code := { c.dropTail 3 with alive := true }

set_option maxRecDepth 4000 in
/-- Two `goto`s, with a position given out between them, are both taken back. -/
theorem seen_lost : ∃ s, Reaches Backward false {} s ∧ ∃ q ∈ s.seen, s.code.pc < q := by
  have hgoto : Reaches Backward false {} ⟨buffer #[Opcode.goto, 0, 0] false false,
      [[⟨0, {}⟩]], []⟩ :=
    .single (.branch (fun _ => .inr (.inl rfl)) (show Emit.branch .goto _ = _ from rfl))
  have hentry : Reaches Backward false {}
      ⟨buffer #[Opcode.goto, 0, 0] true true, [[⟨0, {}⟩]], [3]⟩ :=
    hgoto.tail (.entry rfl)
  have hnext : Reaches Backward false {}
      ⟨buffer #[Opcode.goto, 0, 0, Opcode.goto, 0, 0] false false, [[⟨3, {}⟩], [⟨0, {}⟩]], [3]⟩ :=
    hentry.tail (.branch (fun _ => .inr (.inl rfl)) (show Emit.branch .goto _ = _ from rfl))
  have hback : Reaches Backward false {}
      ⟨back (buffer #[Opcode.goto, 0, 0, Opcode.goto, 0, 0] false false), [[⟨0, {}⟩]], [3]⟩ :=
    hnext.tail (.resolveTo (show _ = [] ++ [⟨3, {}⟩] :: _ from rfl)
      (show Backward _ _ 6 from Nat.le_refl 6) rfl)
  have hlost : Reaches Backward false {}
      ⟨back (back (buffer #[Opcode.goto, 0, 0, Opcode.goto, 0, 0] false false)), [], [3]⟩ :=
    hback.tail (.resolveTo (show _ = [] ++ [⟨0, {}⟩] :: [] from rfl)
      (show Backward _ _ 3 from Nat.le_refl 3) rfl)
  exact ⟨_, hlost, 3, List.mem_singleton_self 3, by decide⟩

end Session

end StackCode
