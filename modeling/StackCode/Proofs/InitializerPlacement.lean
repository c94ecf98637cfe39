import Mathlib.Data.List.Forall2
import Mathlib.Data.List.TakeWhile
import StackCode.Tree.Initializers

/-!
# Where the initialization of instances is put

A constructor is initial if the first constructor call among its statements, wherever it stands,
is one of the superclass. The initialization of the instance, however, is put behind the head of
the body: synthetic stores, one statement, and more synthetic stores. The two fit together only if
the one statement is the call.

`ClassDecl.Distributes` says how the initialization of a class and of its instances should be
distributed over its methods, and `ClassDecl.distributes_iff` that this is done exactly if every
initial constructor opens with its call. Otherwise instances are initialized before the call, or,
in a body that is no block, not at all.
-/

namespace StackCode

namespace Stmt

theorem constructorCall?_of_isSyntheticStore {s : Stmt} (h : s.isSyntheticStore = true) :
    s.constructorCall? = none := by
  unfold isSyntheticStore at h
  split at h
  · rfl
  · cases h

theorem isSyntheticStore_of_constructorCall? {s : Stmt} {isSuper : Bool}
    (h : s.constructorCall? = some isSuper) : s.isSyntheticStore = false := by
  cases hstore : s.isSyntheticStore with
  | false => rfl
  | true =>
      rw [constructorCall?_of_isSyntheticStore hstore] at h
      cases h

/-- How many statements come before the first constructor call. -/
def callIndex (ss : List Stmt) : ℕ := (ss.takeWhile (·.constructorCall?.isNone)).length

theorem callIndex_append {before : List Stmt} (h : ∀ s ∈ before, s.constructorCall? = none)
    (ss : List Stmt) : callIndex (before ++ ss) = before.length + callIndex ss := by
  have hall : ∀ s ∈ before, s.constructorCall?.isNone = true := fun s hs => by rw [h s hs]; rfl
  rw [callIndex, List.takeWhile_append_of_pos hall, List.length_append, callIndex]

theorem callIndex_cons_call {call : Stmt} {isSuper : Bool}
    (h : call.constructorCall? = some isSuper) (ss : List Stmt) : callIndex (call :: ss) = 0 := by
  simp [callIndex, h]

/-- Behind stores and one statement that is no store, the initialization follows the next stores. -/
theorem insertInit_stores {stores : List Stmt} {s : Stmt}
    (hstores : ∀ t ∈ stores, t.isSyntheticStore = true) (hs : s.isSyntheticStore = false)
    (init rest : List Stmt) :
    insertInit init (stores ++ s :: rest) =
      stores ++ s :: (rest.takeWhile isSyntheticStore ++
        (init ++ rest.dropWhile isSyntheticStore)) := by
  have hfirst : (stores ++ s :: rest).takeWhile isSyntheticStore = stores := by
    rw [List.takeWhile_append_of_pos hstores, List.takeWhile_cons_of_neg (by simp [hs]),
      List.append_nil]
  have hdrop : (stores ++ s :: rest).drop (stores.length + 1) = rest := by
    rw [← List.drop_drop, List.drop_left, List.drop_one, List.tail_cons]
  have hhead : stores ++ s :: rest =
      (stores ++ s :: rest.takeWhile isSyntheticStore) ++ rest.dropWhile isSyntheticStore := by
    rw [List.append_assoc, List.cons_append, List.takeWhile_append_dropWhile]
  have hlength : preambleLength (stores ++ s :: rest) =
      (stores ++ s :: rest.takeWhile isSyntheticStore).length := by
    unfold preambleLength
    dsimp only
    rw [hfirst, hdrop, List.length_append, List.length_cons]
    omega
  unfold insertInit
  dsimp only
  rw [hlength]
  rw [hhead, List.take_left, List.drop_left]
  simp only [List.append_assoc, List.cons_append]

/-- A list with a statement that is no store has a first one. -/
theorem exists_first_not_store {s : Stmt} {ss : List Stmt} (hmem : s ∈ ss)
    (hs : s.isSyntheticStore = false) : ∃ stores t tail, ss = stores ++ t :: tail ∧
      (∀ r ∈ stores, r.isSyntheticStore = true) ∧ t.isSyntheticStore = false := by
  cases hdrop : ss.dropWhile isSyntheticStore with
  | nil =>
      have := List.dropWhile_eq_nil_iff.mp hdrop s hmem
      rw [hs] at this
      cases this
  | cons t tail =>
      have hhead := List.head?_dropWhile_not isSyntheticStore ss
      rw [hdrop] at hhead
      refine ⟨ss.takeWhile isSyntheticStore, t, tail, ?_, fun r hr =>
        List.mem_takeWhile_imp hr, hhead⟩
      rw [← hdrop, List.takeWhile_append_dropWhile]

/-- If the first statement that is no store is no call either, the initialization comes before every
call. -/
theorem callIndex_insertInit {stores : List Stmt} {s : Stmt}
    (hstores : ∀ t ∈ stores, t.isSyntheticStore = true) (hs : s.isSyntheticStore = false)
    (hcall : s.constructorCall? = none) {init : List Stmt}
    (hinit : ∀ t ∈ init, t.constructorCall? = none) (rest : List Stmt) :
    callIndex (insertInit init (stores ++ s :: rest)) =
      init.length + callIndex (stores ++ s :: rest) := by
  have hhead : ∀ t ∈ stores ++ s :: rest.takeWhile isSyntheticStore, t.constructorCall? = none := by
    intro t ht
    rcases List.mem_append.mp ht with ht | ht
    · exact constructorCall?_of_isSyntheticStore (hstores t ht)
    · rcases List.mem_cons.mp ht with rfl | ht
      · exact hcall
      · exact constructorCall?_of_isSyntheticStore (List.mem_takeWhile_imp ht)
  have hsplit : stores ++ s :: rest =
      (stores ++ s :: rest.takeWhile isSyntheticStore) ++ rest.dropWhile isSyntheticStore := by
    rw [List.append_assoc, List.cons_append, List.takeWhile_append_dropWhile]
  have hplaced : insertInit init (stores ++ s :: rest) =
      (stores ++ s :: rest.takeWhile isSyntheticStore) ++
      (init ++ rest.dropWhile isSyntheticStore) := by
    rw [insertInit_stores hstores hs, List.append_assoc, List.cons_append]
  rw [hplaced, callIndex_append hhead, callIndex_append hinit, hsplit, callIndex_append hhead]
  omega

end Stmt

/-! ### Constructors -/

namespace MethodDecl

/-- Nothing but synthetic stores comes before the call of a superclass constructor. -/
def OpensWithCall (m : MethodDecl) : Prop :=
  ∃ i stores call rest, m.body = some (.block i (stores ++ call :: rest)) ∧
    (∀ s ∈ stores, s.isSyntheticStore = true) ∧ call.constructorCall? = some true

/-- `m'` is `m` with `init` put among its statements in one place: behind the constructor call that
makes `m` initial, and behind the synthetic stores next to this call. -/
def RunsInit (m : MethodDecl) (init : List Stmt) (m' : MethodDecl) : Prop :=
  ∃ i before call after rest, m.body = some (.block i (before ++ call :: (after ++ rest))) ∧
    m' = { m with body := some (.block i (before ++ call :: (after ++ (init ++ rest)))) } ∧
    (∀ s ∈ before, s.constructorCall? = none) ∧ call.constructorCall? = some true ∧
    (after ++ rest).takeWhile Stmt.isSyntheticStore <+: after

variable {m : MethodDecl} {init : List Stmt}

theorem withInit_of_not_initial (h : m.isInitial = false) (init : List Stmt) :
    m.withInit init = m := by
  unfold withInit
  rw [h]

/-- An initial constructor whose body is a block has statements. -/
theorem withInit_of_block (hinitial : m.isInitial = true) {i : StmtInfo} {ss : List Stmt}
    (hbody : m.body = some (.block i ss)) (init : List Stmt) :
    m.withInit init = { m with body := some (.block i (Stmt.insertInit init ss)) } := by
  cases ss with
  | nil => simp [isInitial, hbody, Stmt.stats] at hinitial
  | cons s ss =>
      unfold withInit
      rw [hinitial, hbody]

/-- The first constructor call of an initial constructor is one of the superclass. -/
theorem findSome?_of_isInitial (hinitial : m.isInitial = true) {i : StmtInfo} {ss : List Stmt}
    (hbody : m.body = some (.block i ss)) : ss.findSome? Stmt.constructorCall? = some true := by
  unfold isInitial at hinitial
  rw [hbody] at hinitial
  have hfound : (ss.findSome? Stmt.constructorCall?).getD false = true :=
    (Bool.and_eq_true_iff.mp hinitial).2
  cases hcall : ss.findSome? Stmt.constructorCall? with
  | none =>
      rw [hcall] at hfound
      cases hfound
  | some isSuper =>
      rw [hcall] at hfound
      exact congrArg some hfound

/-- A constructor that opens with its call runs the initialization right behind it. -/
theorem OpensWithCall.runsInit (hopens : m.OpensWithCall) (hinitial : m.isInitial = true)
    (init : List Stmt) : m.RunsInit init (m.withInit init) := by
  obtain ⟨i, stores, call, rest, hbody, hstores, hcall⟩ := hopens
  refine ⟨i, stores, call, rest.takeWhile Stmt.isSyntheticStore,
    rest.dropWhile Stmt.isSyntheticStore, ?_, ?_,
    fun s hs => Stmt.constructorCall?_of_isSyntheticStore (hstores s hs), hcall, ?_⟩
  · rw [List.takeWhile_append_dropWhile]
    exact hbody
  · rw [withInit_of_block hinitial hbody,
      Stmt.insertInit_stores hstores (Stmt.isSyntheticStore_of_constructorCall? hcall)]
  · exact List.takeWhile_append_dropWhile.symm ▸ List.prefix_rfl

/-- A constructor that runs the initialization behind its call opens with it. -/
theorem RunsInit.opensWithCall (hruns : m.RunsInit init (m.withInit init))
    (hinitial : m.isInitial = true) (hne : init ≠ [])
    (hinit : ∀ s ∈ init, s.constructorCall? = none) : m.OpensWithCall := by
  obtain ⟨i, before, call, after, rest, hbody, hwith, hbefore, hcall, -⟩ := hruns
  rw [withInit_of_block hinitial hbody] at hwith
  have hstats : Stmt.insertInit init (before ++ call :: (after ++ rest)) =
      before ++ call :: (after ++ (init ++ rest)) := by
    injection hwith with _ _ _ _ _ hbodies
    injection hbodies with hblocks
    injection hblocks
  have hindex : Stmt.callIndex (Stmt.insertInit init (before ++ call :: (after ++ rest))) =
      Stmt.callIndex (before ++ call :: (after ++ rest)) := by
    rw [hstats, Stmt.callIndex_append hbefore, Stmt.callIndex_append hbefore,
      Stmt.callIndex_cons_call hcall, Stmt.callIndex_cons_call hcall]
  -- the statement that is taken for the call: the first one that is no store
  obtain ⟨stores, s, tail, hss, hstores, hs⟩ := Stmt.exists_first_not_store
    (show call ∈ before ++ call :: (after ++ rest) by simp)
    (Stmt.isSyntheticStore_of_constructorCall? hcall)
  rw [hss] at hbody hindex
  refine ⟨i, stores, s, tail, hbody, hstores, ?_⟩
  have hfound := findSome?_of_isInitial hinitial hbody
  cases hcalls : s.constructorCall? with
  | none =>
      rw [Stmt.callIndex_insertInit hstores hs hcalls hinit] at hindex
      exact absurd (List.eq_nil_of_length_eq_zero (by omega)) hne
  | some isSuper =>
      rw [List.findSome?_append, List.findSome?_eq_none_iff.mpr
        fun t ht => Stmt.constructorCall?_of_isSyntheticStore (hstores t ht), Option.none_or,
        List.findSome?_cons, hcalls] at hfound
      exact hfound

end MethodDecl

/-! ### Classes -/

namespace ClassDecl

/-- The methods of a class that initialize the class: one static method that runs all that its
members add, in their order, or none if they add nothing. -/
def InitializesClass (c : ClassDecl) (methods : List MethodDecl) : Prop :=
  if ∃ member ∈ c.members, member.classInit?.isSome = true then
    ∃ m i, methods = [m] ∧ m.name = classInitName ∧ m.isStatic = true ∧ m.params = [] ∧
      m.ty = ⟨[], .void⟩ ∧
      m.body = some (.block i (c.members.filterMap Member.classInit?))
  else methods = []

/-- The initialization of a class and of its instances is distributed over these methods: they are
the methods of the class, in order and otherwise unchanged, where every initial constructor runs
the initialization of an instance behind its call, and behind them comes the initialization of the
class. -/
def Distributes (c : ClassDecl) (methods : List MethodDecl) : Prop :=
  ∃ own last, methods = own ++ last ∧ c.InitializesClass last ∧
    List.Forall₂ (fun m m' => if m.isInitial = true ∧ c.instanceInit ≠ []
      then m.RunsInit c.instanceInit m'
      else m' = m) c.methods own

/-- The method that runs the initialization of the class, if there is any. -/
def classInitMethods (c : ClassDecl) : List MethodDecl :=
  match c.classInit with
  | [] => []
  | s :: ss => [.ofClassInit s ss]

theorem initializesClass (c : ClassDecl) : c.InitializesClass c.classInitMethods := by
  have hsome : (∃ member ∈ c.members, member.classInit?.isSome = true) ↔ c.classInit ≠ [] := by
    rw [classInit, Ne, List.filterMap_eq_nil_iff]
    push Not
    simp only [Option.isSome_iff_ne_none]
  unfold InitializesClass classInitMethods
  cases hinit : c.classInit with
  | nil => rw [if_neg (by rw [hsome]; exact fun h => h hinit)]
  | cons s ss =>
      rw [if_pos (by rw [hsome, hinit]; exact List.cons_ne_nil s ss)]
      exact ⟨_, _, rfl, rfl, by simp [MethodDecl.isStatic, MethodDecl.ofClassInit,
        Access.has], rfl, rfl,
        by rw [← classInit, hinit]; rfl⟩

/-- The initialization of the class is no constructor, so nothing is put into it. -/
theorem withInit_ofClassInit (s : Stmt) (ss init : List Stmt) :
    (MethodDecl.ofClassInit s ss).withInit init = .ofClassInit s ss := by
  apply MethodDecl.withInit_of_not_initial
  simp [MethodDecl.isInitial, MethodDecl.isConstructor, MethodDecl.ofClassInit, classInitName,
    constructorName]

theorem completeMethods_eq (c : ClassDecl) : c.completeMethods =
    c.methods.map (fun m => if c.instanceInit = [] then m else m.withInit c.instanceInit) ++
      c.classInitMethods := by
  unfold completeMethods classInitMethods
  cases hclass : c.classInit with
  | nil => cases hinit : c.instanceInit <;> simp
  | cons s ss => cases hinit : c.instanceInit <;> simp [withInit_ofClassInit]

theorem Distributes.opensWithCall {c : ClassDecl} (h : c.Distributes c.completeMethods)
    (hinit : ∀ s ∈ c.instanceInit, s.constructorCall? = none) (hne : c.instanceInit ≠ [])
    {m : MethodDecl} (hm : m ∈ c.methods) (hinitial : m.isInitial = true) : m.OpensWithCall := by
  obtain ⟨own, last, hsplit, -, hown⟩ := h
  rw [completeMethods_eq] at hsplit
  obtain ⟨rfl, -⟩ := List.append_inj hsplit (by rw [List.length_map]; exact hown.length_eq)
  rw [List.forall₂_map_right_iff, List.forall₂_same] at hown
  have hruns := hown m hm
  rw [if_pos ⟨hinitial, hne⟩, if_neg hne] at hruns
  exact hruns.opensWithCall hinitial hne hinit

theorem distributes_completeMethods {c : ClassDecl}
    (hopens : c.instanceInit ≠ [] → ∀ m ∈ c.methods, m.isInitial = true → m.OpensWithCall) :
    c.Distributes c.completeMethods := by
  refine ⟨_, _, c.completeMethods_eq, c.initializesClass, ?_⟩
  rw [List.forall₂_map_right_iff, List.forall₂_same]
  intro m hm
  by_cases hne : c.instanceInit = []
  · rw [if_neg (fun h => h.2 hne), if_pos hne]
  · rw [if_neg hne]
    cases hinitial : m.isInitial with
    | true =>
        rw [if_pos ⟨rfl, hne⟩]
        exact (hopens hne m hm hinitial).runsInit hinitial _
    | false => rw [if_neg (by simp), MethodDecl.withInit_of_not_initial hinitial]

/-- The initialization is distributed as it should be exactly if every initial constructor opens
with its call, unless instances have no initialization. -/
theorem distributes_iff (c : ClassDecl) (hinit : ∀ s ∈ c.instanceInit, s.constructorCall? = none) :
    c.Distributes c.completeMethods ↔
      (c.instanceInit ≠ [] → ∀ m ∈ c.methods, m.isInitial = true → m.OpensWithCall) :=
  ⟨fun h hne _ hm => h.opensWithCall hinit hne hm, distributes_completeMethods⟩

/-- A class with a field that starts at 4 and a constructor with one parameter and these
statements. -/
def ofConstructor (stats : List Stmt) : ClassDecl where
  span := .ofLine 1
  name := "C"
  flags := Access.publicBit
  members :=
    [.field ⟨.ofLine 1, ⟨"C", "f", .int, 0, none⟩, some (.ofInt (.ofLine 1) 4)⟩,
      .method
        { span := .ofLine 1, name := constructorName, flags := Access.publicBit
          ty := ⟨[.int], .void⟩
          params := [⟨0, "i", .int, none⟩], body := some (.block ⟨1, .ofLine 1⟩ stats) }]

/-- The call of the constructor of the superclass. -/
def superCall : Stmt :=
  .exec ⟨NodeId.synthetic, .ofLine 1⟩
    (.constructorCall (.ofLine 1) true ⟨"java/lang/Object", constructorName, ⟨[], .void⟩,
      Access.publicBit, false⟩ [])

/-- An assignment to the parameter. -/
def parameterStore : Stmt :=
  .exec ⟨NodeId.synthetic, .ofLine 1⟩
    (.assign (Expr.plainInfo (.ofLine 1) .int) (.ofVar (.ofLine 1) ⟨0, "i", .int, none⟩)
      (.ofInt (.ofLine 1) 1))

theorem instanceInit_ofConstructor (stats : List Stmt) : (ofConstructor stats).instanceInit =
    [FieldDecl.assignment ⟨.ofLine 1, ⟨"C", "f", .int, 0, none⟩, some (.ofInt (.ofLine 1) 4)⟩
      (.ofInt (.ofLine 1) 4)] := rfl

theorem constructorCall?_ofConstructor (stats : List Stmt) :
    ∀ s ∈ (ofConstructor stats).instanceInit, s.constructorCall? = none := by
  rw [instanceInit_ofConstructor]
  simp [FieldDecl.assignment, Stmt.constructorCall?]

theorem distributes_superCall :
    (ofConstructor [superCall]).Distributes (ofConstructor [superCall]).completeMethods := by
  refine (distributes_iff _ (constructorCall?_ofConstructor _)).mpr fun _ m hm _ => ?_
  obtain rfl := List.mem_singleton.mp hm
  exact ⟨_, [], superCall, [], rfl, by simp, rfl⟩

/-- Behind an assignment the call comes too late: the field is initialized before it. -/
theorem not_distributes_lateCall : ¬ (ofConstructor [parameterStore, superCall]).Distributes
    (ofConstructor [parameterStore, superCall]).completeMethods := by
  intro h
  obtain ⟨i, stores, call, rest, hbody, hstores, hcall⟩ := h.opensWithCall
    (constructorCall?_ofConstructor _) (by rw [instanceInit_ofConstructor]; simp)
    (List.mem_singleton.mpr rfl) rfl
  injection hbody with hblock
  injection hblock with _ hstats
  cases stores with
  | nil =>
      injection hstats with hfirst
      rw [← hfirst] at hcall
      cases hcall
  | cons s stores =>
      injection hstats with hfirst
      have hstore := hstores s List.mem_cons_self
      rw [← hfirst] at hstore
      cases hstore

end ClassDecl

end StackCode
