import StackCode.Proofs.SwitchWords
import StackCode.Tree.Build

/-!
# Switches send every key to its case

A switch is followed from the table that it opens to the table that it leaves. The bodies of its
cases may be anything: they leave the table alone, because it is a zone off which all jumps lie
that are settled within the switch. What comes behind the switch leaves it alone as well, so the
instruction that is read back from the final code is the one that was written
(`Stmt.switch_dispatches`).
-/

set_option maxRecDepth 4000

namespace StackCode

open Instruction

namespace Gen

/-! ### Keys of cases -/

theorem caseKeys_cons_ok {c : CaseCode} {codes : List CaseCode} {seen : Bool}
    {keys : List (Option Int32)} (h : caseKeys (c :: codes) seen = .ok keys) :
    (∃ rest, c.label = none ∧ seen = false ∧ caseKeys codes true = .ok rest ∧ keys = none :: rest) ∨
      ∃ info v rest, c.label = some info ∧ info.const = some v ∧ caseKeys codes seen = .ok rest ∧
        keys = some v.toInt32 :: rest := by
  rw [caseKeys] at h
  cases hlabel : c.label with
  | none =>
      rw [hlabel] at h
      cases seen with
      | true => cases h
      | false =>
          change (caseKeys codes true >>= fun rest => pure (none :: rest)) = .ok keys at h
          cases hrest : caseKeys codes true with
          | error e =>
              rw [hrest] at h
              cases h
          | ok rest =>
              rw [hrest] at h
              cases h
              exact .inl ⟨rest, rfl, rfl, rfl, rfl⟩
  | some info =>
      rw [hlabel] at h
      cases hconst : info.const with
      | none =>
          simp only [hconst] at h
          cases h
      | some v =>
          simp only [hconst] at h
          change (caseKeys codes (seen || false) >>= fun rest => pure (some v.toInt32 :: rest)) =
            .ok keys at h
          rw [Bool.or_false] at h
          cases hrest : caseKeys codes seen with
          | error e =>
              rw [hrest] at h
              cases h
          | ok rest =>
              rw [hrest] at h
              cases h
              exact .inr ⟨info, v, rest, rfl, hconst, rfl, rfl⟩

/-- Every label is a constant, and at most one case has none. -/
theorem caseKeys_codes {ctx : Context} {cs : List Case} {seen : Bool} {keys : List (Option Int32)}
    (h : caseKeys (Case.codes ctx cs) seen = .ok keys) :
    keys = cs.map Case.key ∧ (seen = true → none ∉ keys) ∧
      ((keys.filterMap id).Nodup → keys.Nodup) := by
  induction cs generalizing seen keys with
  | nil =>
      rw [Case.codes] at h
      cases h
      exact ⟨rfl, fun _ => List.not_mem_nil, fun _ => List.nodup_nil⟩
  | cons c cs ih =>
      obtain ⟨span, label, ss⟩ := c
      rw [Case.codes] at h
      rcases caseKeys_cons_ok h with ⟨rest, hlabel, rfl, hrest, rfl⟩ | ⟨info, v, rest, hlabel,
        hconst, hrest, rfl⟩
      · obtain ⟨hkeys, hnone, hnodup⟩ := ih hrest
        obtain rfl := Option.map_eq_none_iff.mp hlabel
        exact ⟨by rw [hkeys]; rfl, nofun, fun h => List.nodup_cons.mpr ⟨hnone rfl, hnodup h⟩⟩
      · obtain ⟨hkeys, hnone, hnodup⟩ := ih hrest
        obtain ⟨e, rfl, rfl⟩ := Option.map_eq_some_iff.mp hlabel
        refine ⟨?_, fun hseen => ?_, fun h => ?_⟩
        · rw [List.map_cons, hkeys, Case.key, Option.bind_some, hconst]
          rfl
        · exact List.not_mem_cons_of_ne_of_not_mem nofun (hnone hseen)
        · obtain ⟨hhead, htail⟩ := List.nodup_cons.mp (h : (v.toInt32 :: rest.filterMap id).Nodup)
          refine List.nodup_cons.mpr ⟨fun hmem => hhead ?_, hnodup htail⟩
          exact List.mem_filterMap.mpr ⟨_, hmem, rfl⟩

/-! ### Running a switch -/

/-- A branch that lands fixes the end of the code where it is. -/
theorem land_fixes (c : Code) (link : Link) (target : ℕ) (joined : Option Frame) :
    (c.land link target joined).1.fixed = true ∧ (c.land link target joined).1.pc = c.pc := by
  unfold Code.land
  dsimp only
  split
  · split <;> exact ⟨rfl, rfl⟩
  · exact ⟨rfl, rfl⟩

/-- Once the end of the code is fixed, resolving branches leaves it where it is. -/
theorem resolveLinks_fixed {c c' : Code} {chain : Chain} {target : ℕ}
    {joined joined' : Option Frame} (hfixed : c.fixed = true)
    (hrun : Emit.resolveLinks chain target joined c = .ok joined' c') : c'.pc = c.pc := by
  induction chain generalizing c target joined with
  | nil =>
      cases hrun
      rfl
  | cons link rest ih =>
      rcases Emit.resolveLinks_cons_ok hrun with ⟨hends, -⟩ | ⟨-, -, hrun⟩
      · simp [Code.endsWithGoto, hfixed] at hends
      · rw [ih (land_fixes _ _ _ _).1 hrun, (land_fixes _ _ _ _).2, Code.pc,
          Code.size_patch, Code.pc]

/-- Resolving branches takes back one trailing `goto` at most. -/
theorem resolveLinks_sinks {c c' : Code} {chain : Chain} {target : ℕ}
    {joined joined' : Option Frame}
    (hrun : Emit.resolveLinks chain target joined c = .ok joined' c') : c.pc ≤ c'.pc + 3 := by
  have hdrop : (c.dropTail 3).pc = c.pc - 3 := c.size_dropTail 3
  have hpatch (p t : ℕ) : (c.patch p t).pc = c.pc := c.size_patch p t
  cases chain with
  | nil =>
      cases hrun
      exact Nat.le_add_right _ _
  | cons link rest =>
      rcases Emit.resolveLinks_cons_ok hrun with ⟨-, ⟨-, -, rfl⟩ | hrun⟩ | ⟨-, -, hrun⟩
      · change c.pc ≤ (c.dropTail 3).pc + 3
        omega
      · rw [resolveLinks_fixed (land_fixes _ _ _ _).1 hrun, (land_fixes _ _ _ _).2]
        omega
      · rw [resolveLinks_fixed (land_fixes _ _ _ _).1 hrun, (land_fixes _ _ _ _).2, hpatch]
        omega

theorem resolvePending_sinks {c c' : Code} (hrun : Emit.resolvePending c = .ok () c') :
    c.pc ≤ c'.pc + 3 := by
  obtain ⟨_, _, hget, hrun⟩ := EStateM.bind_eq_ok.mp hrun
  cases hget
  split at hrun
  · cases hrun
    exact Nat.le_add_right _ _
  · obtain ⟨⟨⟩, c₁, hmod, hrun⟩ := EStateM.bind_eq_ok.mp hrun
    cases hmod
    obtain ⟨joined, c₂, hlinks, hrun⟩ := EStateM.bind_eq_ok.mp hrun
    have hsinks := resolveLinks_sinks hlinks
    cases joined with
    | none =>
        cases hrun
        exact hsinks
    | some frame =>
        cases hrun
        exact hsinks

theorem curPc_sinks {c c' : Code} {p : ℕ} (hrun : Emit.curPc c = .ok p c') :
    c.pc ≤ c'.pc + 3 ∧ c'.pending = [] := by
  obtain ⟨c₁, hpending, rfl, -⟩ := Emit.curPc_ok hrun
  obtain ⟨line, lines, hline, -⟩ := c₁.markLine_eq
  have hsinks := resolvePending_sinks hpending
  rw [hline]
  exact ⟨hsinks, (Emit.pending_resolvePending hpending).1⟩

/-- Where nothing waits, asking for the position changes neither the bytes nor that. -/
theorem curPc_still {c c' : Code} {p : ℕ} (h : c.pending = []) (hrun : Emit.curPc c = .ok p c') :
    c'.bytes = c.bytes ∧ c'.pending = [] := by
  obtain ⟨c₁, hpending, rfl, -⟩ := Emit.curPc_ok hrun
  obtain rfl := Emit.resolvePending_nil h hpending
  obtain ⟨line, lines, hline, -⟩ := c₁.markLine_eq
  rw [hline]
  exact ⟨rfl, h⟩

theorem endVar_still {c c' : Code} {reg : ℕ} (h : c.pending = [])
    (hrun : Emit.endVar reg c = .ok () c') :
    c'.bytes = c.bytes ∧ c'.pending = [] := by
  obtain ⟨slot, c₁, htake, hrun⟩ := EStateM.bind_eq_ok.mp hrun
  have htaken : c₁.bytes = c.bytes ∧ c₁.pending = c.pending := by
    have htake : EStateM.Result.ok (c.takeSlot reg).1 (c.takeSlot reg).2 = .ok slot c₁ := htake
    unfold Code.takeSlot at htake
    split at htake <;> cases htake <;> exact ⟨rfl, rfl⟩
  rw [h] at htaken
  split at hrun
  · obtain ⟨p, c₂, hcur, hrun⟩ := EStateM.bind_eq_ok.mp hrun
    obtain ⟨hbytes, hpending⟩ := curPc_still htaken.2 hcur
    split at hrun
    · cases hrun
      exact ⟨hbytes.trans htaken.1, hpending⟩
    · cases hrun
      exact ⟨hbytes.trans htaken.1, hpending⟩
  · cases hrun
    exact htaken

theorem endVars_still {c c' : Code} {reg n : ℕ} (h : c.pending = [])
    (hrun : Emit.endVars reg n c = .ok () c') :
    c'.bytes = c.bytes ∧ c'.pending = [] := by
  induction n generalizing c reg with
  | zero =>
      cases hrun
      exact ⟨rfl, h⟩
  | succ n ih =>
      obtain ⟨⟨⟩, c₁, hvar, hrun⟩ := EStateM.bind_eq_ok.mp hrun
      obtain ⟨hbytes, hpending⟩ := endVar_still h hvar
      obtain ⟨hbytes', hpending'⟩ := ih hpending hrun
      exact ⟨hbytes'.trans hbytes, hpending'⟩

theorem endScopes_still {c c' : Code} {first : ℕ} (h : c.pending = [])
    (hrun : Emit.endScopes first c = .ok () c') : c'.bytes = c.bytes ∧ c'.pending = [] := by
  obtain ⟨_, _, hget, hrun⟩ := EStateM.bind_eq_ok.mp hrun
  cases hget
  obtain ⟨⟨⟩, c₁, hmod, hrun⟩ := EStateM.bind_eq_ok.mp hrun
  cases hmod
  exact @endVars_still { c with nextReg := first } c' _ _ h hrun

theorem endVar_sinks {c c' : Code} {reg : ℕ} (hrun : Emit.endVar reg c = .ok () c') :
    c'.pc = c.pc ∨ c.pc ≤ c'.pc + 3 ∧ c'.pending = [] := by
  obtain ⟨slot, c₁, htake, hrun⟩ := EStateM.bind_eq_ok.mp hrun
  have htaken : c₁.pc = c.pc := by
    have htake : EStateM.Result.ok (c.takeSlot reg).1 (c.takeSlot reg).2 = .ok slot c₁ := htake
    unfold Code.takeSlot at htake
    split at htake <;> cases htake <;> rfl
  split at hrun
  · obtain ⟨p, c₂, hcur, hrun⟩ := EStateM.bind_eq_ok.mp hrun
    have hsinks := curPc_sinks hcur
    rw [htaken] at hsinks
    split at hrun <;> cases hrun <;> exact .inr hsinks
  · cases hrun
    exact .inl htaken

/-- Only the first position that is asked for can take code back. -/
theorem endVars_sinks {c c' : Code} {reg n : ℕ} (hrun : Emit.endVars reg n c = .ok () c') :
    c.pc ≤ c'.pc + 3 := by
  induction n generalizing c reg with
  | zero =>
      cases hrun
      exact Nat.le_add_right _ _
  | succ n ih =>
      obtain ⟨⟨⟩, c₁, hvar, hrun⟩ := EStateM.bind_eq_ok.mp hrun
      rcases endVar_sinks hvar with hpc | ⟨hpc, hpending⟩
      · exact hpc ▸ ih hrun
      · have hstill : c'.pc = c₁.pc := congrArg Array.size (endVars_still hpending hrun).1
        rw [hstill]
        exact hpc

theorem endScopes_sinks {c c' : Code} {first : ℕ} (hrun : Emit.endScopes first c = .ok () c') :
    c.pc ≤ c'.pc + 3 := by
  obtain ⟨_, _, hget, hrun⟩ := EStateM.bind_eq_ok.mp hrun
  cases hget
  obtain ⟨⟨⟩, c₁, hmod, hrun⟩ := EStateM.bind_eq_ok.mp hrun
  cases hmod
  exact @endVars_sinks { c with nextReg := first } c' _ _ hrun

theorem pc_fillTable (site : SwitchSite) (targets : Array KeyTarget) (c : Code) :
    (fillTable site targets c).pc = c.pc := by
  have hslots (d : Int32) (n : ℕ) : ∀ c pc, (closeSlots d c pc n).pc = c.pc := by
    induction n with
    | zero => exact fun _ _ => rfl
    | succ n ih =>
        intro c pc
        unfold closeSlots
        dsimp only
        split
        · exact (ih _ _).trans (c.size_set4 pc d)
        · exact ih _ _
  have hpairs (pairs : List KeyTarget) : ∀ c pc, (writePairs c pc pairs).pc = c.pc := by
    induction pairs with
    | nil => exact fun _ _ => rfl
    | cons pair rest ih =>
        intro c pc
        rw [writePairs_cons, ih]
        exact (Code.size_set4 _ _ _).trans (c.size_set4 _ _)
  unfold fillTable
  split
  · exact hslots ..
  · exact hpairs ..

theorem closeTable_sinks {site : SwitchSite} {frame : Frame} {targets : Array KeyTarget}
    {s s' : MethodState} (hrun : closeTable site frame targets s = .ok () s') :
    s.asm.code.pc ≤ s'.asm.code.pc + 3 := by
  rw [closeTable_eq] at hrun
  obtain ⟨word, _, hpeek, hrun⟩ := EStateM.bind_eq_ok.mp hrun
  cases hpeek
  split at hrun
  · obtain ⟨pc, s₁, hentry, hrun⟩ := EStateM.bind_eq_ok.mp hrun
    obtain ⟨c₁, hcode, rfl⟩ := emit_ok hentry
    obtain ⟨c₂, hcur, rfl⟩ := Emit.entryWith_ok hcode
    obtain ⟨⟨⟩, s₂, hset, hrun⟩ := EStateM.bind_eq_ok.mp hrun
    have hpc : s'.asm.code.pc = c₂.pc := by
      rw [touch_ok hrun, touch_ok hset]
      exact (pc_fillTable ..).trans (Code.size_set4 ..)
    rw [hpc]
    exact (curPc_sinks hcur).1
  · rw [touch_ok hrun]
    exact Nat.le_trans (Nat.le_of_eq (pc_fillTable _ _ _).symm) (Nat.le_add_right _ _)

/-- A table that has just been written is a zone off all jumps of the scope of its switch. -/
theorem SwitchSite.Written.zone {site : SwitchSite} {keys : List Int32} {c : Code} {s : MethodState}
    {σ : Scopes} {kind : ScopeKind} {tree : Option NodeId} {parent : ScopeId}
    (h : site.Written keys c) (hcode : s.asm.code = c.kill)
    (hscopes : s.scopes = (σ.push kind tree parent).2) :
    ∃ z : Zone, z.lo = site.pc ∧ z.hi = site.tableEnd keys.length ∧ z.base = σ.depth ∧
      z.Holds false s := by
  have hpc : site.pc < site.table := h.base ▸ lt_switchBase site.pc
  refine ⟨⟨site.pc, site.tableEnd keys.length,
    .inl (Nat.lt_of_lt_of_le hpc (Nat.le_add_right _ _)), c.wide,
    σ.depth⟩, rfl, rfl, rfl, ⟨?_, ?_, ?_⟩, ⟨?_, fun i hi => ?_⟩, nofun⟩
  · rw [hcode]
    rfl
  · rw [hcode]
    exact h.ends.ge
  · rw [hcode]
    show Zone.Avoids _ c.pending
    rw [h.pending]
    exact .nil
  · rw [hscopes, Scopes.depth_push]
    exact Nat.le_succ _
  · rw [hscopes]
    rcases Nat.eq_or_lt_of_le hi with heq | hlt
    · obtain rfl : σ.depth = i := heq
      rw [Scopes.get_push_self]
      exact ⟨.nil, .nil⟩
    · rw [Scopes.get_of_depth_le (by rw [Scopes.depth_push]; exact hlt)]
      exact ⟨.nil, .nil⟩

/-- What a switch with the keys `keys` leaves, as long as positions have 32 bits. -/
structure Switched (site : SwitchSite) (keys : List (Option Int32))
    (starts : List (Option Int32 × ℕ)) (targets : Array KeyTarget) (z : Zone) (slack : ℕ)
    (s : MethodState) : Prop where
  base : site.table = switchBase site.pc
  covers : ∀ key, some key ∈ keys → site.Covers key
  bounds : site.layout = .dense → some site.lo ∈ keys ∧ some site.hi ∈ keys
  keyed : starts.map Prod.fst = keys
  listed : site.layout = .sparse → targets.toList = site.listed starts
  lo : z.lo = site.pc
  hi : z.hi = site.tableEnd (keys.filterMap id).length
  above : ∀ start ∈ starts, z.hi ≤ start.2
  within : ∀ start ∈ starts, start.2 ≤ s.asm.code.pc + slack
  closed : (∀ start ∈ starts, start.2 < 0xffffffff) →
    z.Holds false s ∧ Closed site (keys.filterMap id).length starts targets s.asm.code

theorem liftExcept_ok {α : Type} {x : Except Error α} {a : α} {s s' : MethodState}
    (hrun : (liftM x : Gen α) s = .ok a s') : x = .ok a ∧ s' = s := by
  cases x with
  | ok b =>
      cases hrun
      exact ⟨rfl, rfl⟩
  | error e => cases hrun

/-- A step on the scopes leaves the code alone. -/
theorem scoping_ok {α : Type} {x : Scoping α} {a : α} {s s' : MethodState}
    (hrun : (liftM x : Gen α) s = .ok a s') : s'.asm = s.asm := by
  change Gen.onScopes x s = .ok a s' at hrun
  rw [Part.lift_onScopes, Part.lift] at hrun
  split at hrun
  · cases hrun
    rfl
  · cases hrun

theorem resolveExit_still {id : ScopeId} {s s' : MethodState}
    (hrun : resolveExit id s = .ok () s') :
    s'.asm.code.pc = s.asm.code.pc := by
  obtain ⟨chain, s₁, htake, hrun⟩ := EStateM.bind_eq_ok.mp hrun
  obtain ⟨c', hresolve, rfl⟩ := emit_ok hrun
  rw [← scoping_ok htake]
  obtain ⟨waiting, -, rfl⟩ := Emit.resolve_ok hresolve
  rfl

/-- From the open table on: the cases, the jumps behind the switch, and what is still open. -/
theorem switched_of_cases {site : SwitchSite} {keys : List (Option Int32)} {c : Code} {z : Zone}
    {env : Env} {frame : Frame} {codes : List CaseCode} {starts : List (Option Int32 × ℕ)}
    {targets : Array KeyTarget} {s s₁ s₂ s₃ s' : MethodState}
    (hwritten : site.Written (keys.filterMap id) c) (hlo : z.lo = site.pc)
    (hhi : z.hi = site.tableEnd (keys.filterMap id).length) (hscope : z.base ≤ env.scope)
    (hs : z.Holds false s) (hbytes : s.asm.code.bytes = c.bytes) (henv : env.Sparing z)
    (hcodes : ∀ c ∈ codes, ∀ env : Env, env.Sparing z → Steady z false (c.gen env))
    (hnodup : keys.Nodup) (hlen : keys.length = codes.length)
    (hcases : casesLogged site frame env (codes.zip keys) #[] s = .ok (targets, starts) s₁)
    (hexit : resolveExit env.scope s₁ = .ok () s₂)
    (hclose : closeTable site frame targets s₂ = .ok () s₃)
    (hend : (Scoping.closeScope env.scope : Gen Unit) s₃ = .ok () s')
    (hwithin : ∀ start ∈ starts, start.2 ≤ s₁.asm.code.pc) :
    Switched site keys starts targets z 3 s' := by
  have hpc : site.pc < site.table := hwritten.base ▸ lt_switchBase site.pc
  have hzip : (codes.zip keys).map Prod.snd = keys := List.map_snd_zip hlen.le
  have hcovers (key : Int32) (hkey : some key ∈ keys) : site.Covers key :=
    hwritten.covers key (List.mem_filterMap.mpr ⟨_, hkey, rfl⟩)
  obtain ⟨hs₁, h₁, hlisted, hkeyed, habove⟩ := casesLogged_run henv
    (fun c hc => hcodes c.1 (List.of_mem_zip hc).1) hlo hhi hpc hcases hs
    (by rw [hzip]; exact hcovers) (by rw [hzip]; exact hnodup) (hbytes ▸ hwritten.tabled)
    fun _ => rfl
  rw [List.nil_append] at h₁ hlisted
  rw [hzip] at hkeyed
  obtain ⟨hs₂, hab, -⟩ := steady_resolveExit hscope s₁ ⟨⟩ s₂ hexit hs₁
  rw [hlo, hhi] at hab
  have h₂ := h₁.of_agree (hhi ▸ hs₂.behind) hpc hab
  have hsize (hlayout : site.layout = .sparse) : targets.size = (keys.filterMap id).length := by
    rw [← Array.length_toList, hlisted hlayout, ← List.length_map (f := Prod.fst),
      SwitchSite.map_fst_listed, hkeyed]
  refine ⟨hwritten.base, hcovers, fun hlayout => ?_, hkeyed, hlisted, hlo, hhi, habove,
    fun start hstart => ?_,
    fun hshort => ?_⟩
  · obtain ⟨hlower, hupper⟩ := hwritten.bounds hlayout
    simpa using And.intro hlower hupper
  · have hsinks := closeTable_sinks hclose
    rw [resolveExit_still hexit, ← scoping_ok hend] at hsinks
    exact Nat.le_trans (hwithin start hstart) hsinks
  · have hbehind (start : Option Int32 × ℕ) (hstart : start ∈ starts) : site.pc < start.2 := by
      have hstart := habove start hstart
      have hlt := site.table_lt_tableEnd (keys.filterMap id).length
      omega
    obtain ⟨hs₃, hclosed⟩ := closeTable_run hlo hhi hpc hclose hs₂ h₂ hsize fun start hstart =>
      SwitchSite.offset_ne (hbehind start hstart) (hshort start hstart)
    obtain ⟨hs', -, -⟩ := (Scoping.steady_closeScope hscope).scopesInGen s₃ ⟨⟩ s' hend hs₃
    exact ⟨hs', by rw [scoping_ok hend]; exact hclosed⟩

theorem tableLogged_run {info : StmtInfo} {codes : List CaseCode} {env : Env} {log : SwitchLog}
    {s s' : MethodState} (hrun : tableLogged info codes env s = .ok log s')
    (hlive : s.asm.code.reachable = true)
    (hcodes : ∀ z, ∀ c ∈ codes, ∀ env : Env, env.Sparing z → Steady z false (c.gen env))
    (henv : ∀ z, env.Sparing z)
    (hkeys : ∀ keys, caseKeys codes false = .ok keys → keys.Nodup ∧ keys.length = codes.length) :
    ∃ keys site starts targets z, caseKeys codes false = .ok keys ∧
      log = ⟨SwitchSite.pc site, starts⟩ ∧
      Switched site keys starts targets z 3 s' := by
  obtain ⟨scope, s₁, hopen, hrun⟩ := EStateM.bind_eq_ok.mp hrun
  obtain ⟨keys, s₂, hcase, hrun⟩ := EStateM.bind_eq_ok.mp hrun
  obtain ⟨site, s₃, htable, hrun⟩ := EStateM.bind_eq_ok.mp hrun
  obtain ⟨frame, _, hpeek, hrun⟩ := EStateM.bind_eq_ok.mp hrun
  cases hpeek
  obtain ⟨⟨⟩, s₄, hkill, hrun⟩ := EStateM.bind_eq_ok.mp hrun
  obtain ⟨⟨targets, starts⟩, s₅, hcases, hrun⟩ := EStateM.bind_eq_ok.mp hrun
  obtain ⟨⟨⟩, s₆, hexit, hrun⟩ := EStateM.bind_eq_ok.mp hrun
  obtain ⟨⟨⟩, s₇, hclose, hrun⟩ := EStateM.bind_eq_ok.mp hrun
  obtain ⟨⟨⟩, s₈, hscope, hrun⟩ := EStateM.bind_eq_ok.mp hrun
  cases hrun
  obtain ⟨rfl, rfl⟩ : scope = s.scopes.depth ∧
      s₁ = { s with scopes := (s.scopes.push .switch (some info.id) env.scope).2 } := by
    cases hopen
    exact ⟨rfl, rfl⟩
  obtain ⟨hcased, rfl⟩ := liftExcept_ok hcase
  obtain ⟨hnodup, hlen⟩ := hkeys keys hcased
  rw [openTable_eq] at htable
  obtain ⟨c₃, hwrite, rfl⟩ := emit_ok htable
  have hwritten : site.Written (keys.filterMap id) c₃ := writeTable_written hlive hwrite
  have hpc : site.pc < site.table := hwritten.base ▸ lt_switchBase site.pc
  have hs₄ := touch_ok hkill
  obtain ⟨z, hlo, hhi, hbase, hholds⟩ :=
    hwritten.zone (s := s₄) (by rw [hs₄]; rfl) (by rw [hs₄]; rfl)
  have hwithin := casesLogged_within (fun z => (henv z).inside s.scopes.depth)
    (fun z c hc => hcodes z c.1 (List.of_mem_zip hc).1) hcases
  exact ⟨keys, site, starts, targets, z, hcased, rfl, switched_of_cases hwritten hlo hhi
    (hbase.le : z.base ≤ (env.inside s.scopes.depth).scope) hholds (by rw [hs₄]; rfl)
    ((henv z).inside _) (hcodes z)
    hnodup hlen hcases hexit hclose hscope hwithin⟩

theorem Switched.short {site : SwitchSite} {keys : List (Option Int32)}
    {starts : List (Option Int32 × ℕ)} {targets : Array KeyTarget} {z : Zone} {slack : ℕ}
    {s : MethodState} (h : Switched site keys starts targets z slack s)
    (hend : s.asm.code.pc + slack < 0xffffffff) : ∀ start ∈ starts, start.2 < 0xffffffff :=
  fun start hstart => Nat.lt_of_le_of_lt (h.within start hstart) hend

/-- Giving back registers leaves the table as it is. -/
theorem Switched.endScopes {site : SwitchSite} {keys : List (Option Int32)}
    {starts : List (Option Int32 × ℕ)} {targets : Array KeyTarget} {z : Zone} {first slack : ℕ}
    {s s' : MethodState} (h : Switched site keys starts targets z slack s)
    (hrun : (Emit.endScopes first : Gen Unit) s = .ok () s') :
    Switched site keys starts targets z (slack + 3) s' := by
  refine { h with within := fun start hstart => ?_, closed := fun hshort => ?_ }
  · obtain ⟨c', hend, rfl⟩ := emit_ok hrun
    have hsinks := endScopes_sinks hend
    have hwithin := h.within start hstart
    change start.2 ≤ c'.pc + (slack + 3)
    omega
  obtain ⟨hs, hclosed⟩ := h.closed hshort
  obtain ⟨hs', hab, -⟩ := (Emit.steady_endScopes first).inGen s ⟨⟩ s' hrun hs
  rw [h.lo, h.hi] at hab
  refine ⟨hs', hclosed.keep (h.base ▸ lt_switchBase site.pc) (fun hlayout => ?_)
    (h.hi ▸ hs'.behind) hab
    fun hnone => ?_⟩
  · rw [← Array.length_toList, h.listed hlayout, ← List.length_map (f := Prod.fst),
      SwitchSite.map_fst_listed, h.keyed]
  · obtain ⟨c', hend, rfl⟩ := emit_ok hrun
    obtain ⟨hbytes, hpending⟩ := endScopes_still (hclosed.pending hnone) hend
    exact ⟨congrArg Array.size hbytes, hpending⟩

theorem switchLogged_run {info : StmtInfo} {selector : ExprCode} {codes : List CaseCode} {env : Env}
    {log : Option SwitchLog} {s s' : MethodState}
    (hrun : switchLogged info selector codes env s = .ok log s')
    (hlive : s.asm.code.reachable = true) (hsel : ∀ z, selector.Sparing z true)
    (hcodes : ∀ z, ∀ c ∈ codes, ∀ env : Env, env.Sparing z → Steady z false (c.gen env))
    (henv : ∀ z, env.Sparing z)
    (hkeys : ∀ keys, caseKeys codes false = .ok keys → keys.Nodup ∧ keys.length = codes.length) :
    (codes = [] ∧ log = none) ∨ codes ≠ [] ∧
      ∃ keys site starts targets z, caseKeys codes false = .ok keys ∧
      log = some ⟨SwitchSite.pc site, starts⟩ ∧ Switched site keys starts targets z 6 s' := by
  obtain ⟨first, _, hpeek, hrun⟩ := EStateM.bind_eq_ok.mp hrun
  cases hpeek
  obtain ⟨answer, s₁, hbody, hrun⟩ := EStateM.bind_eq_ok.mp hrun
  obtain ⟨⟨⟩, s₂, hend, hrun⟩ := EStateM.bind_eq_ok.mp hrun
  cases hrun
  split at hbody
  · cases hbody
  · obtain ⟨key, s₃, hkey, hbody⟩ := EStateM.bind_eq_ok.mp hbody
    -- only that control is still here matters of the selector
    let z : Zone := ⟨0, 0, .inr rfl, s.asm.code.wide, s.scopes.depth⟩
    have hs : z.Holds true s :=
      ⟨⟨rfl, Nat.zero_le _, fun _ _ => .inr (Nat.zero_le _)⟩, .fresh rfl, fun _ => hlive⟩
    obtain ⟨hs₃, -, -⟩ := spares_ranged _ _ ((hsel z).push _) s key s₃ hkey hs
    have hlive₃ : s₃.asm.code.reachable = true := hs₃.live rfl
    split at hbody
    · rename_i hempty
      obtain ⟨⟨⟩, s₄, hdiscard, hbody⟩ := EStateM.bind_eq_ok.mp hbody
      cases hbody
      exact .inl ⟨List.isEmpty_iff.mp hempty, rfl⟩
    · rename_i hsome
      obtain ⟨log, s₄, htable, hbody⟩ := EStateM.bind_eq_ok.mp hbody
      cases hbody
      obtain ⟨keys, site, starts, targets, z, hcase, rfl, hswitched⟩ :=
        tableLogged_run htable hlive₃ hcodes henv hkeys
      exact .inr ⟨fun hnil => hsome (List.isEmpty_iff.mpr hnil), keys, site, starts, targets, z,
        hcase, rfl, hswitched.endScopes hend⟩

end Gen

/-- The surroundings in which the statements of a method are generated. -/
inductive Env.Arises (ctx : Context) : Env → Prop
  | outermost : Arises ctx .outermost
  | inside {env : Env} (h : Arises ctx env) (scope : ScopeId) : Arises ctx (env.inside scope)
  | insideTry {env : Env} (h : Arises ctx env) (scope : ScopeId) (final : Stmt) :
      Arises ctx (env.insideTry scope (Gen.rangedStat (final.code ctx) env RangeFlag.block))

theorem Env.Arises.sparing {ctx : Context} {env : Env} (h : env.Arises ctx) (z : Zone) :
    env.Sparing z := by
  induction h with
  | outermost => exact .outermost
  | inside _ scope ih => exact ih.inside scope
  | insideTry _ scope final ih =>
      exact ih.insideTry scope (Gen.steady_rangedStat final.sparing_code ih _)

/-- The instruction of a switch, read back from bytes that are still those of its table. -/
theorem Gen.Switched.dispatches {site : Gen.SwitchSite} {keys : List (Option Int32)}
    {starts : List (Option Int32 × ℕ)} {targets : Array KeyTarget} {z : Zone} {s : MethodState}
    {bs : Array UInt8} {slack : ℕ} (h : Gen.Switched site keys starts targets z slack s)
    (hnodup : keys.Nodup) (hsize : z.hi ≤ bs.size) (hab : Agree s.asm.code.bytes bs z.lo z.hi)
    (hend : s.asm.code.pc + slack < 0xffffffff) :
    ∃ i t, decodeAt bs site.pc = .ok i ∧ i.switchTable? bs = .ok (some t) ∧
      (∀ key, t.dispatch key = targetAmong starts s.asm.code.pc (some key)) ∧
      t.LaidOut i.op (keys.filterMap id) := by
  have hstarts : ∀ start ∈ starts, start.2 < 0xffffffff := h.short hend
  replace hend := Nat.lt_of_le_of_lt (Nat.le_add_right _ slack) hend
  obtain ⟨hs, hclosed⟩ := h.closed hstarts
  have hpc : site.pc < site.table := h.base ▸ lt_switchBase site.pc
  have hbehind := hs.behind
  have hn (hlayout : site.layout = .sparse) : (keys.filterMap id).length < 0x80000000 := by
    rw [h.hi, Gen.SwitchSite.tableEnd, Gen.SwitchSite.words_sparse hlayout] at hbehind
    omega
  rw [h.lo, h.hi] at hab
  have htabled := hclosed.tabled.of_agree (h.hi ▸ hsize) hpc hab
  have hsized : site.Sized (keys.filterMap id).length := by
    refine ⟨h.base, fun hlayout => ?_, hn⟩
    obtain ⟨hle, hle'⟩ := h.covers _ (h.bounds hlayout).1
    exact Int.le_trans hle hle'
  have hdecode := (htabled.headed hn).decodeAt hsized
  cases hlayout : site.layout with
  | dense =>
      obtain ⟨t, htable, hdispatch, hcases⟩ := htabled.dense_dispatch h.base hlayout
        (fun key hkey => h.covers key (h.keyed ▸ hkey)) hend hstarts
      refine ⟨_, t, hdecode, htable, hdispatch, .inr ⟨?_, ?_⟩⟩
      · simp only [Gen.SwitchSite.instruction, hlayout]
        rfl
      · have hmem {key : Int32} : key ∈ keys.filterMap id ↔ some key ∈ keys := by simp
        obtain ⟨hlo, hhi⟩ := h.bounds hlayout
        refine ⟨site.lo, hmem.mpr hlo, site.hi, hmem.mpr hhi, fun label hlabel => ?_, hcases⟩
        rw [Int32.le_iff_toInt_le, Int32.le_iff_toInt_le]
        exact h.covers label (hmem.mp hlabel)
  | sparse =>
      have htargets : targets.size = (keys.filterMap id).length := by
        rw [← Array.length_toList, h.listed hlayout, ← List.length_map (f := Prod.fst),
          Gen.SwitchSite.map_fst_listed, h.keyed]
      have hlists := (hclosed.lists hlayout).of_agree (hab.mono (Nat.le_of_lt hpc) (by
        rw [(sortKeys_perm targets).length_eq, Array.length_toList, htargets,
          Gen.SwitchSite.tableEnd,
          Gen.SwitchSite.words_sparse hlayout]
        omega))
      obtain ⟨t, htable, hdispatch, hstrict, hlen⟩ := htabled.sparse_dispatch h.base hlayout hlists
        (h.listed hlayout) htargets (hn hlayout) (h.keyed ▸ hnodup) hend hstarts
      refine ⟨_, t, hdecode, htable, hdispatch, .inl ⟨?_, hstrict, hlen⟩⟩
      simp only [Gen.SwitchSite.instruction, hlayout]
      rfl

theorem Case.filterMap_key (cs : List Case) :
    (cs.map Case.key).filterMap id = cs.filterMap Case.key := by
  rw [List.filterMap_map, Function.id_comp]

theorem Case.length_codes (ctx : Context) (cs : List Case) :
    (Case.codes ctx cs).length = cs.length := by
  induction cs with
  | nil => rw [Case.codes]; rfl
  | cons c cs ih =>
      obtain ⟨span, label, ss⟩ := c
      rw [Case.codes, List.length_cons, ih, List.length_cons]

theorem Code.reachable_beginLine (c : Code) (line : ℕ) :
    (c.beginLine line).reachable = c.reachable := by
  unfold Code.beginLine
  split <;> rfl

theorem Gen.statement_ok {info : StmtInfo} {declared : Option LocalVar} {env : Env}
    {body : Gen Unit} {s s' : MethodState} (hlive : s.asm.code.reachable = true)
    (hrun : statement info declared env body s = .ok () s') :
    body { s with asm := { s.asm with code := s.asm.code.beginLine info.span.firstLine } } =
      .ok () s' := by
  obtain ⟨live, _, hpeek, hrun⟩ := EStateM.bind_eq_ok.mp hrun
  cases hpeek
  rw [if_pos hlive] at hrun
  obtain ⟨before, _, hpeek, hrun⟩ := EStateM.bind_eq_ok.mp hrun
  cases hpeek
  obtain ⟨⟨⟩, _, htouch, hrun⟩ := EStateM.bind_eq_ok.mp hrun
  cases htouch
  obtain ⟨⟨⟩, s₁, hbody, hrun⟩ := EStateM.bind_eq_ok.mp hrun
  obtain ⟨after, _, hpeek, hrun⟩ := EStateM.bind_eq_ok.mp hrun
  cases hpeek
  obtain ⟨_, _, hget, hrun⟩ := EStateM.bind_eq_ok.mp hrun
  cases hget
  dsimp only at hrun
  generalize (if s₁.letDepth = 0 then 0 else s.asm.code.frame.depth) = expected at hrun
  split at hrun
  · cases hrun
  · cases hrun
    exact hbody

/-- Every key of a switch leads where it should. The labels are distinct; the statement may be
followed by others, which leave its instruction alone. -/
theorem Stmt.switch_dispatches {ctx : Context} {env : Env} {info : StmtInfo} {selector : Expr}
    {cs : List Case} {rest : List Stmt} {s s₁ s' : MethodState} (henv : env.Arises ctx)
    (hselector : selector.letFree = true) (hlabels : (cs.filterMap Case.key).Nodup)
    (hlive : s.asm.code.reachable = true)
    (hrun : ((Stmt.switch info selector cs).code ctx).gen env s = .ok () s₁)
    (hrest : Stmt.gens ctx rest env s₁ = .ok () s') (hend : s₁.asm.code.pc < 0x7fffffff) :
    ∃ log, Gen.switchLogged info (selector.code ctx env) (Case.codes ctx cs) env
        { s with asm := { s.asm with code := s.asm.code.beginLine info.span.firstLine } } =
          .ok log s₁ ∧
      log.isSome = !cs.isEmpty ∧ ∀ l ∈ log, l.starts.map Prod.fst = cs.map Case.key ∧
        ∃ i t, decodeAt s'.asm.code.bytes l.pc = .ok i ∧
          i.switchTable? s'.asm.code.bytes = .ok (some t) ∧
          (∀ key, t.dispatch key = targetAmong l.starts s₁.asm.code.pc (some key)) ∧
          t.LaidOut i.op (cs.filterMap Case.key) := by
  rw [Stmt.code] at hrun
  change Gen.statement info none env
    (Gen.switch info (selector.code ctx env) (Case.codes ctx cs) env) s = _ at hrun
  have hswitch := Gen.statement_ok hlive hrun
  rw [Gen.switch_eq] at hswitch
  obtain ⟨log, _, hlogged, hswitch⟩ := EStateM.bind_eq_ok.mp hswitch
  cases hswitch
  have hkeys (keys : List (Option Int32))
      (hcase : Gen.caseKeys (Case.codes ctx cs) false = .ok keys) :
      keys.Nodup ∧ keys.length = (Case.codes ctx cs).length := by
    obtain ⟨rfl, -, hnodup⟩ := Gen.caseKeys_codes hcase
    exact ⟨hnodup (Case.filterMap_key cs ▸ hlabels), by rw [List.length_map, Case.length_codes]⟩
  have hreached : (s.asm.code.beginLine info.span.firstLine).reachable = true := by
    rw [Code.reachable_beginLine, hlive]
  refine ⟨log, hlogged, ?_⟩
  rcases Gen.switchLogged_run hlogged hreached (fun z => selector.sparing_code env (.inl hselector))
    (fun z => Case.steady_codes cs) henv.sparing hkeys with
    ⟨hnil, rfl⟩ | ⟨hsome, keys, site, starts, targets, z, hcase, rfl, hswitched⟩
  · have hempty : cs = [] := by
      rw [← List.length_eq_zero_iff, ← Case.length_codes ctx, hnil, List.length_nil]
    subst hempty
    exact ⟨rfl, fun l hl => absurd hl (Option.not_mem_none l)⟩
  · obtain ⟨rfl, -, -⟩ := Gen.caseKeys_codes hcase
    have hne : cs ≠ [] := by
      rintro rfl
      exact hsome (by rw [Case.codes])
    refine ⟨by simp [hne], ?_⟩
    rintro _ ⟨⟩
    refine ⟨hswitched.keyed, ?_⟩
    have hshort : s₁.asm.code.pc + 6 < 0xffffffff := by omega
    obtain ⟨hs, -⟩ := hswitched.closed (hswitched.short hshort)
    obtain ⟨hs', hab, -⟩ := Stmt.steady_gens rest (henv.sparing z) s₁ ⟨⟩ s' hrest hs
    rw [← Case.filterMap_key]
    exact hswitched.dispatches (hkeys _ hcase).1 hs'.behind hab hshort

/-- A run that is seen to end. -/
theorem Gen.ends_of_run' {x : Gen Unit} {s : MethodState} {n : ℕ}
    (h : EStateM.run' (do x; peek (·.pc) : Gen ℕ) s = some n) :
    ∃ s', x s = .ok () s' ∧ s'.asm.code.pc = n := by
  unfold EStateM.run' at h
  split at h
  · rename_i hrun
    obtain ⟨⟨⟩, s', hx, hpeek⟩ := EStateM.bind_eq_ok.mp hrun
    cases hpeek
    exact ⟨_, hx, Option.some.inj h⟩
  · cases h

/-- `switch (i) { case 7: break; default: case -1000: }` -/
theorem Stmt.sparseSwitch_dispatches :
    let i : LocalVar := ⟨0, "i", .int, none⟩
    let info : StmtInfo := ⟨1, default⟩
    let cs : List Case := [.mk default (some (.ofInt default 7)) [.breakTo ⟨2, default⟩ 1],
      .mk default none [],
      .mk default (some (.ofInt default (-1000))) []]
    let ctx : Context :=
      ⟨{}, Hierarchy.resolver {}, "C", .ofParams default "m" Access.staticBit [i] .void none⟩
    let s : MethodState := { ClassGen.firstState ctx false false {} with
      locals := (∅ : Std.TreeMap VarId UInt16).insert 0 0 }
    ∃ s₁, ∃ log : SwitchLog, ((Stmt.switch info (.ofVar default i) cs).code ctx).gen
      .outermost s = .ok () s₁ ∧
      s₁.asm.code.pc = 31 ∧ log.starts.map Prod.fst = [some 7, none, some (-1000)] ∧
      ∃ i t, decodeAt s₁.asm.code.bytes log.pc = .ok i ∧
        i.switchTable? s₁.asm.code.bytes = .ok (some t) ∧
        ∀ key, t.dispatch key = targetAmong log.starts s₁.asm.code.pc (some key) := by
  intro i info cs ctx s
  obtain ⟨s₁, hrun, hpc⟩ : ∃ s₁, ((Stmt.switch info (.ofVar default i) cs).code ctx).gen
      .outermost s = .ok () s₁ ∧
      s₁.asm.code.pc = 31 := Gen.ends_of_run' (by decide +kernel)
  have hrest : Stmt.gens ctx [] .outermost s₁ = .ok () s₁ := by
    rw [Stmt.gens]
    rfl
  obtain ⟨log, -, hsome, hlog⟩ := Stmt.switch_dispatches .outermost (by decide) (by decide)
    (by decide) hrun hrest
    (by omega)
  obtain ⟨l, rfl⟩ := Option.isSome_iff_exists.mp hsome
  obtain ⟨hkeys, i, t, hdecode, htable, hdispatch, -⟩ := hlog l rfl
  exact ⟨s₁, l, hrun, hpc, hkeys, i, t, hdecode, htable, hdispatch⟩

end StackCode
