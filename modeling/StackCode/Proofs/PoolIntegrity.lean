import Mathlib.Algebra.Order.Ring.Nat
import Mathlib.Data.List.Forall2
import Mathlib.Data.List.Nodup
import StackCode.Proofs.Pool

/-!
# The integrity of a pool

A pool is filled by requests for constants, one after the other. `Pool.serve` is one of them,
`Pool.serveAll` a sequence, and `Pool.ListsEntries` is the invariant of every pool that comes
about in this way: the slots hold a list of different entries, each in the cells that it takes,
behind the empty slot 0, and exactly these entries have an index.

The main statement, `Pool.serveAll_integrity`, is about any sequence of requests to a pool that
is new or was reset, such as every class starts with: as long as its indices fit 16 bits, every
answer stands for the constant asked for and goes on doing so, different constants have
different indices, and the slots are those of the entries.
-/

namespace StackCode

/-- The cells that an entry takes: a long or double leaves the second one empty. -/
def Entry.cells (e : Entry) : List (Option Entry) :=
  if e.slots = 2 then [some e, none] else [some e]

theorem Entry.slots_eq (e : Entry) : e.slots = 1 ∨ e.slots = 2 := by
  cases e <;> simp [slots]

theorem Entry.length_cells (e : Entry) : e.cells.length = e.slots := by
  unfold cells
  split
  · rename_i h
    rw [h]
    rfl
  · rename_i h
    exact (e.slots_eq.resolve_right h).symm

theorem Entry.filterMap_cells (e : Entry) : e.cells.filterMap id = [e] := by
  unfold cells
  split <;> rfl

/-- Behind an entry of two slots comes the empty one of them. -/
theorem Entry.cells_next {es : List Entry} {e : Entry} {n : Nat}
    (h : (es.flatMap cells)[n]? = some (some e)) (he : e.slots = 2) :
    (es.flatMap cells)[n + 1]? = some none := by
  induction es generalizing n with
  | nil => simp at h
  | cons a es ih =>
      rw [List.flatMap_cons] at h ⊢
      unfold cells at h ⊢
      split at h
      · rename_i ha
        rw [if_pos ha]
        obtain _ | _ | n := n
        · rfl
        · simp at h
        · exact ih h
      · rename_i ha
        rw [if_neg ha]
        obtain _ | n := n
        · cases h
          exact absurd he ha
        · exact ih h

namespace Pool

/-- The pool holds the entries `es`, in this order and each once. -/
structure ListsEntries (p : Pool) (es : List Entry) : Prop where
  slots : p.slots.toList = none :: es.flatMap Entry.cells
  nodup : es.Nodup
  index : ∀ e, p.index[e]?.isSome ↔ e ∈ es

theorem listsEntries_empty : empty.ListsEntries [] :=
  ⟨rfl, .nil, fun e => by simp [empty]⟩

/-- An entry that is put joins the list unless it is there. -/
theorem ListsEntries.put {p : Pool} {es : List Entry} (h : p.ListsEntries es) (e : Entry) :
    ∃ es, (p.put e).2.ListsEntries es := by
  cases hi : p.index[e]? with
  | some i =>
      have hput : p.put e = (i, p) := by simp [Pool.put, hi]
      rw [hput]
      exact ⟨es, h⟩
  | none =>
      obtain ⟨hslots, hindex, -⟩ := slots_put hi
      have hnew : e ∉ es := by
        rw [← h.index, hi]
        simp
      refine ⟨es ++ [e], ?_, ?_, ?_⟩
      · rw [hslots, Array.toList_append, h.slots, List.flatMap_append, List.flatMap_singleton]
        unfold Entry.cells
        split <;> rfl
      · rw [List.nodup_append]
        refine ⟨h.nodup, List.nodup_singleton e, fun a ha b hb => ?_⟩
        rw [List.mem_singleton.mp hb]
        exact fun hae => hnew (hae ▸ ha)
      · intro a
        rw [hindex, Std.TreeMap.getElem?_insert, List.mem_append, List.mem_singleton, ← h.index]
        split
        · rename_i heq
          rw [Entry.order_eq_iff] at heq
          simp [heq]
        · rename_i heq
          rw [Entry.order_eq_iff] at heq
          simp [Ne.symm heq]

section

variable {p : Pool} {es : List Entry}

theorem slot_of_get? {i : UInt16} {e : Entry} (h : p.get? i = some e) :
    p.slots.toList[i.toNat]? = some (some e) := by
  unfold get? at h
  rw [Array.getElem?_toList]
  exact Option.join_eq_some_iff.mp h

/-- No two slots hold the same entry. -/
theorem ListsEntries.pairwise (h : p.ListsEntries es) :
    p.slots.toList.Pairwise fun a b => a ≠ none → a ≠ b := by
  rw [h.slots, List.pairwise_cons]
  refine ⟨fun _ _ hnone => absurd rfl hnone, List.pairwise_flatMap.mpr ⟨fun e _ => ?_, ?_⟩⟩
  · unfold Entry.cells
    split <;> simp
  · refine h.nodup.imp fun {a b} hne x hx y hy hsome hxy => ?_
    have hcell (e : Entry) (z : Option Entry) (hz : z ∈ e.cells) (hsome : z ≠ none) :
        z = some e := by
      unfold Entry.cells at hz
      split at hz <;> simpa [hsome] using hz
    have ha := hcell a x hx hsome
    have hb := hcell b y hy (hxy ▸ hsome)
    exact hne (Option.some.inj (ha.symm.trans (hxy.trans hb)))

/-- An entry stands at one index only. -/
theorem ListsEntries.get?_inj (h : p.ListsEntries es) {i j : UInt16} {e : Entry}
    (hi : p.get? i = some e) (hj : p.get? j = some e) : i = j := by
  have hlt (i j : UInt16) (hi : p.get? i = some e) (hj : p.get? j = some e) :
      ¬ i.toNat < j.toNat := by
    intro hlt
    obtain ⟨hisize, hi⟩ := List.getElem?_eq_some_iff.mp (slot_of_get? hi)
    obtain ⟨hjsize, hj⟩ := List.getElem?_eq_some_iff.mp (slot_of_get? hj)
    refine List.pairwise_iff_getElem.mp h.pairwise _ _ hisize hjsize hlt ?_ (hi.trans hj.symm)
    rw [hi]
    exact Option.some_ne_none e
  have hle := hlt i j hi hj
  have hge := hlt j i hj hi
  exact UInt16.toNat_inj.mp (by omega)

theorem ListsEntries.size_eq (h : p.ListsEntries es) : p.size = 1 + (es.map Entry.slots).sum := by
  unfold size
  rw [← Array.length_toList, h.slots, List.length_cons, List.length_flatMap, Nat.add_comm]
  simp only [Entry.length_cells]

theorem map_snd_filterMap (l : List (Option Entry)) :
    (l.zipIdx.filterMap fun (e, i) => e.map fun e => (i, e)).map Prod.snd = l.filterMap id := by
  rw [List.map_filterMap]
  conv_rhs => rw [← List.zipIdx_map_fst 0 l, List.filterMap_map]
  refine List.filterMap_congr fun x _ => ?_
  simp [Function.comp_def]

theorem ListsEntries.entries_eq (h : p.ListsEntries es) : p.entries.map Prod.snd = es := by
  unfold entries
  rw [map_snd_filterMap, h.slots, List.filterMap_cons_none rfl, List.filterMap_flatMap]
  simp only [Entry.filterMap_cells]
  exact List.flatMap_singleton' es

/-- The second slot of a long or double is empty. -/
theorem ListsEntries.second_vacant (h : p.ListsEntries es) {i : UInt16} {e : Entry}
    (hi : p.get? i = some e) (he : e.slots = 2) : p.slots[i.toNat + 1]? = some none := by
  have hslot := slot_of_get? hi
  rw [← Array.getElem?_toList]
  rw [h.slots] at hslot ⊢
  generalize i.toNat = n at hslot ⊢
  obtain _ | n := n
  · cases hslot
  · exact Entry.cells_next hslot he

/-! ### Constants by their indices -/

/-- A constant stands at one index only. -/
theorem ListsEntries.reads_inj (h : p.ListsEntries es) {i j : UInt16} {c : Constant}
    (hi : p.Reads i c) (hj : p.Reads j c) : i = j := by
  have hclass {i j : UInt16} {name : String} :
      p.ReadsClass i name → p.ReadsClass j name → i = j := by
    rintro ⟨n, hi, hn⟩ ⟨n', hj, hn'⟩
    cases h.get?_inj hn hn'
    exact h.get?_inj hi hj
  have hpair {i j : UInt16} {name descriptor : String} :
      p.ReadsPair i name descriptor → p.ReadsPair j name descriptor → i = j := by
    rintro ⟨n, d, hi, hn, hd⟩ ⟨n', d', hj, hn', hd'⟩
    cases h.get?_inj hn hn'
    cases h.get?_inj hd hd'
    exact h.get?_inj hi hj
  cases c with
  | cls name => exact hclass hi hj
  | nameAndType name descriptor => exact hpair hi hj
  | string text =>
      obtain ⟨n, hi, hn⟩ := hi
      obtain ⟨n', hj, hn'⟩ := hj
      cases h.get?_inj hn hn'
      exact h.get?_inj hi hj
  | member kind owner name descriptor =>
      obtain ⟨o, n, hi, ho, hn⟩ := hi
      obtain ⟨o', n', hj, ho', hn'⟩ := hj
      cases hclass ho ho'
      cases hpair hn hn'
      exact h.get?_inj hi hj
  | _ => exact h.get?_inj hi hj

/-- The name of the class at an index. -/
def className? (p : Pool) (i : UInt16) : Option String :=
  match p.get? i with
  | some (.cls n) => p.text? n
  | _ => none

/-- The name and the descriptor at an index. -/
def pair? (p : Pool) (i : UInt16) : Option (String × String) :=
  match p.get? i with
  | some (.nameAndType n d) => do return (← p.text? n, ← p.text? d)
  | _ => none

/-- Looks the constant at an index up. -/
def read? (p : Pool) (i : UInt16) : Option Constant :=
  let member (kind : MemberKind) (o n : UInt16) : Option Constant := do
    let (name, descriptor) ← p.pair? n
    return .member kind (← p.className? o) name descriptor
  match p.get? i with
  | none => none
  | some (.utf8 text) => some (.utf8 text)
  | some (.int value) => some (.int value)
  | some (.float bits) => some (.float bits)
  | some (.long value) => some (.long value)
  | some (.double bits) => some (.double bits)
  | some (.cls _) => (p.className? i).map .cls
  | some (.string n) => (p.text? n).map .string
  | some (.nameAndType _ _) =>
    (p.pair? i).map fun (name, descriptor) => .nameAndType name descriptor
  | some (.field o n) => member .field o n
  | some (.method o n) => member .method o n
  | some (.interfaceMethod o n) => member .interfaceMethod o n

/-- What is read is what the look-up finds, so an index stands for one constant only. -/
theorem Reads.read?_eq {i : UInt16} {c : Constant} (h : p.Reads i c) : p.read? i = some c := by
  have htext {n : UInt16} {text : String} (hn : p.get? n = some (.utf8 text)) :
      p.text? n = some text := by
    simp [text?, hn]
  have hclass {i : UInt16} {name : String} : p.ReadsClass i name → p.className? i = some name := by
    rintro ⟨n, hi, hn⟩
    simp [className?, hi, htext hn]
  have hpair {i : UInt16} {name descriptor : String} :
      p.ReadsPair i name descriptor → p.pair? i = some (name, descriptor) := by
    rintro ⟨n, d, hi, hn, hd⟩
    simp [pair?, hi, htext hn, htext hd]
  unfold read?
  cases c with
  | cls name =>
      have hname := hclass h
      obtain ⟨n, hi, -⟩ := h
      simp [hi, hname]
  | nameAndType name descriptor =>
      have hboth := hpair h
      obtain ⟨n, d, hi, -⟩ := h
      simp [hi, hboth]
  | string text =>
      obtain ⟨n, hi, hn⟩ := h
      simp [hi, htext hn]
  | member kind owner name descriptor =>
      obtain ⟨o, n, hi, ho, hn⟩ := h
      cases kind <;> simp [hi, MemberKind.entry, hclass ho, hpair hn]
  | _ =>
      unfold Reads at h
      simp [h]

end

/-! ### Requests -/

/-- A call that puts a constant into a pool; an entry may also be put as it is. -/
inductive Request where
  | entry (e : Entry)
  | utf8 (text : String)
  | string (text : String)
  | cls (name : String)
  | type (t : Ty)
  | nameAndType (name descriptor : String)
  | field (owner name descriptor : String)
  | method (owner name descriptor : String) (isInterface : Bool)
  | const (c : Const)

/-- The answer to a request, and the pool after it. -/
def serve (p : Pool) : Request → UInt16 × Pool
  | .entry e => p.put e
  | .utf8 text => p.putUtf8 text
  | .string text => p.putString text
  | .cls name => p.putClass name
  | .type t => p.putType t
  | .nameAndType name descriptor => p.putNameAndType name descriptor
  | .field owner name descriptor => p.putField owner name descriptor
  | .method owner name descriptor isInterface => p.putMethod owner name descriptor isInterface
  | .const c => p.putConst c

/-- The answers to a sequence of requests, and the pool after them. -/
def serveAll (p : Pool) : List Request → List UInt16 × Pool
  | [] => ([], p)
  | r :: rest =>
    let (i, p) := p.serve r
    let (is, p) := p.serveAll rest
    (i :: is, p)

/-- The constant that a request asks for; an entry that refers to others by index names none. -/
def Request.constant? : Request → Option Constant
  | .entry (.utf8 text) => some (.utf8 text)
  | .entry (.int value) => some (.int value)
  | .entry (.float bits) => some (.float bits)
  | .entry (.long value) => some (.long value)
  | .entry (.double bits) => some (.double bits)
  | .entry _ => none
  | .utf8 text => some (.utf8 text)
  | .string text => some (.string text)
  | .cls name => some (.cls name)
  | .type t => some (.cls t.constantName)
  | .nameAndType name descriptor => some (.nameAndType name descriptor)
  | .field owner name descriptor => some (.member .field owner name descriptor)
  | .method owner name descriptor isInterface =>
    some (.member (if isInterface then .interfaceMethod else .method) owner name descriptor)
  | .const c => some (.ofConst c)

/-- The index stands for what was asked for. -/
def StandsFor (p : Pool) (r : Request) (i : UInt16) : Prop :=
  (∀ e, r = .entry e → p.get? i = some e) ∧ ∀ c ∈ r.constant?, p.Reads i c

theorem StandsFor.extends {p q : Pool} {r : Request} {i : UInt16} (h : p.StandsFor r i)
    (hpq : p.Extends q) :
    q.StandsFor r i :=
  ⟨fun e he => hpq.2 i e (h.1 e he), fun c hc => hpq.reads (h.2 c hc)⟩

/-- There is an entry at an index that stands for something. -/
theorem StandsFor.exists_entry {p : Pool} {r : Request} {i : UInt16} (h : p.StandsFor r i) :
    ∃ e, p.get? i = some e := by
  by_cases hr : ∃ e, r = .entry e
  · obtain ⟨e, he⟩ := hr
    exact ⟨e, h.1 e he⟩
  · cases hc : r.constant? with
    | some c =>
        have hread := (h.2 c hc).read?_eq
        cases hi : p.get? i with
        | some e => exact ⟨e, rfl⟩
        | none => simp [read?, hi] at hread
    | none => cases r <;> simp [Request.constant?] at hr hc

theorem Reads.stands {p : Pool} {r : Request} {c : Constant} {i : UInt16}
    (hr : r.constant? = some c) (hentry : ∀ e, r ≠ .entry e) (h : p.Reads i c) :
    p.StandsFor r i := by
  refine ⟨fun e he => absurd he (hentry e), fun d hd => ?_⟩
  rw [hr] at hd
  cases hd
  exact h

/-- A request is answered with an index of what it asks for. -/
theorem puts_serve (r : Request) : Puts (·.serve r) fun i p => p.StandsFor r i := by
  cases r with
  | entry e =>
      refine (puts_put e).mono fun i p h => ⟨?_, ?_⟩
      · rintro _ ⟨⟩
        exact h
      · intro c hc
        cases e <;> cases hc <;> exact h
  | utf8 text => exact (puts_utf8 text).mono fun _ _ => Reads.stands rfl nofun
  | string text => exact (puts_string text).mono fun _ _ => Reads.stands rfl nofun
  | cls name => exact (puts_class name).mono fun _ _ => Reads.stands rfl nofun
  | type t => exact (puts_class t.constantName).mono fun _ _ => Reads.stands rfl nofun
  | nameAndType name descriptor =>
      exact (puts_nameAndType name descriptor).mono fun _ _ => Reads.stands rfl nofun
  | field owner name descriptor =>
      exact (puts_field owner name descriptor).mono fun _ _ => Reads.stands rfl nofun
  | method owner name descriptor isInterface =>
      exact (puts_method owner name descriptor isInterface).mono fun _ _ => Reads.stands rfl nofun
  | const c => exact (puts_const c).mono fun _ _ => Reads.stands rfl nofun

/-- What every entry that is put preserves, a request preserves. -/
theorem serve_preserves {P : Pool → Prop} (hput : ∀ p e, P p → P (p.put e).2) (r : Request)
    {p : Pool} (h : P p) : P (p.serve r).2 := by
  have hclass {p : Pool} (name : String) (h : P p) : P (p.putClass name).2 := hput _ _ (hput _ _ h)
  have hstring {p : Pool} (text : String) (h : P p) : P (p.putString text).2 :=
    hput _ _ (hput _ _ h)
  have hpair {p : Pool} (name descriptor : String) (h : P p) :
      P (p.putNameAndType name descriptor).2 :=
    hput _ _ (hput _ _ (hput _ _ h))
  cases r with
  | entry e => exact hput _ _ h
  | utf8 text => exact hput _ _ h
  | string text => exact hstring _ h
  | cls name => exact hclass _ h
  | type t => exact hclass _ h
  | nameAndType name descriptor => exact hpair _ _ h
  | field owner name descriptor => exact hput _ _ (hpair _ _ (hclass _ h))
  | method owner name descriptor isInterface => exact hput _ _ (hpair _ _ (hclass _ h))
  | const c =>
      cases c with
      | str text => exact hstring _ h
      | _ => exact hput _ _ h

/-! ### Sequences of requests -/

theorem extends_serveAll (p : Pool) (rs : List Request) : p.Extends (p.serveAll rs).2 := by
  induction rs generalizing p with
  | nil => exact .refl p
  | cons r rs ih => exact (puts_serve r p).1.trans (ih _)

/-- The first answers to a sequence do not depend on what is asked later, and the pool that gave
them only grows. -/
theorem serveAll_take (p : Pool) (rs : List Request) (n : ℕ) :
    (p.serveAll (rs.take n)).1 = (p.serveAll rs).1.take n ∧
      (p.serveAll (rs.take n)).2.Extends (p.serveAll rs).2 := by
  induction rs generalizing p n with
  | nil =>
      rw [List.take_nil]
      exact ⟨List.take_nil.symm, .refl p⟩
  | cons r rs ih =>
      cases n with
      | zero => exact ⟨rfl, extends_serveAll p (r :: rs)⟩
      | succ n =>
          obtain ⟨hfirst, hext⟩ := ih (p.serve r).2 n
          exact ⟨congrArg (_ :: ·) hfirst, hext⟩

/-- Every answer of a sequence stands in the pool after it. -/
theorem Indexed.serveAll {p : Pool} (h : p.Indexed) (rs : List Request)
    (hsize : (p.serveAll rs).2.size ≤ 0x10000) :
    List.Forall₂ (p.serveAll rs).2.StandsFor rs (p.serveAll rs).1 := by
  induction rs generalizing p with
  | nil => exact .nil
  | cons r rs ih =>
      have hext := extends_serveAll (p.serve r).2 rs
      obtain ⟨hindexed, hstands⟩ := (puts_serve r p).2 h
      exact .cons ((hstands (Nat.le_trans hext.1 hsize)).extends hext) (ih hindexed hsize)

theorem ListsEntries.serveAll {p : Pool} {es : List Entry} (h : p.ListsEntries es)
    (rs : List Request) :
    ∃ es, (p.serveAll rs).2.ListsEntries es := by
  induction rs generalizing p es with
  | nil => exact ⟨es, h⟩
  | cons r rs ih =>
      obtain ⟨es', h'⟩ := serve_preserves (P := fun p => ∃ es, p.ListsEntries es)
        (fun p e ⟨_, h⟩ => h.put e) r ⟨es, h⟩
      exact ih h'

/-- Two answers are one index exactly if they stand for the same entry, and for the same constant
where the requests name one. -/
theorem ListsEntries.answers_iff {p : Pool} {es : List Entry} (h : p.ListsEntries es)
    {r r' : Request} {i i' : UInt16} (hi : p.StandsFor r i) (hi' : p.StandsFor r' i') :
    (i = i' ↔ p.get? i = p.get? i') ∧
      ∀ c ∈ r.constant?, ∀ c' ∈ r'.constant?, (i = i' ↔ c = c') := by
  constructor
  · obtain ⟨e, he⟩ := hi.exists_entry
    refine ⟨congrArg p.get?, fun hget => ?_⟩
    exact h.get?_inj he (hget.symm.trans he)
  · intro c hc c' hc'
    have hreads := hi.2 c hc
    have hreads' := hi'.2 c' hc'
    constructor
    · rintro rfl
      exact Option.some.inj (hreads.read?_eq.symm.trans hreads'.read?_eq)
    · rintro rfl
      exact h.reads_inj hreads hreads'

/-- The pool after some sequences of requests with a reset after each of them; a new pool if
there are none. -/
def afterResets (earlier : List (List Request)) : Pool :=
  earlier.foldl (fun p rs => (p.serveAll rs).2.reset) empty

/-- Nothing that was asked for before a reset is left. -/
theorem afterResets_eq_empty (earlier : List (List Request)) : afterResets earlier = empty := by
  unfold afterResets
  rcases List.eq_nil_or_concat earlier with rfl | ⟨before, rs, rfl⟩
  · rfl
  · rw [List.concat_eq_append, List.foldl_append]
    exact reset_eq_empty _

/-- As long as a pool that was new or reset has no more slots than 16 bits count, the answers to
any sequence of requests stand for what was asked for, each from the time it is given and for
good; two answers are one index exactly if the entries, or the constants with all that they
refer to, are equal; slot 0 and the second slots of longs and doubles are empty; and there are
no slots but that one and those of the entries. -/
theorem serveAll_integrity (earlier : List (List Request)) (rs : List Request)
    (hsize : ((afterResets earlier).serveAll rs).2.size ≤ 0xFFFF) :
    let start := afterResets earlier
    let is := (start.serveAll rs).1
    let p := (start.serveAll rs).2
    List.Forall₂ p.StandsFor rs is ∧
      (∀ n, (start.serveAll (rs.take n)).1 = is.take n ∧
        (start.serveAll (rs.take n)).2.Extends p ∧
        List.Forall₂ (start.serveAll (rs.take n)).2.StandsFor (rs.take n) (is.take n)) ∧
      (∀ a ∈ rs.zip is, ∀ b ∈ rs.zip is,
        (a.2 = b.2 ↔ p.get? a.2 = p.get? b.2) ∧
        ∀ c ∈ a.1.constant?, ∀ d ∈ b.1.constant?, (a.2 = b.2 ↔ c = d)) ∧
      p.slots[0]? = some none ∧
      (∀ i e, p.get? i = some e → e.slots = 2 → p.slots[i.toNat + 1]? = some none) ∧
      p.size = 1 + (p.entries.map fun e => e.2.slots).sum := by
  intro start is p
  have hstart : start = empty := afterResets_eq_empty earlier
  have hindexed : start.Indexed := hstart ▸ indexed_empty
  obtain ⟨es, hlists⟩ := (hstart ▸ listsEntries_empty : start.ListsEntries []).serveAll rs
  have hfits (n : ℕ) (hn : n ≤ p.size) : n ≤ 0x10000 :=
    Nat.le_trans hn (Nat.le_trans hsize (by decide))
  have hstands := hindexed.serveAll rs (hfits _ (Nat.le_refl _))
  refine ⟨hstands, fun n => ?_, ?_, p.vacant, fun i e => hlists.second_vacant, ?_⟩
  · obtain ⟨hfirst, hext⟩ := serveAll_take start rs n
    have hthen := hindexed.serveAll (rs.take n) (hfits _ hext.1)
    exact ⟨hfirst, hext, hfirst ▸ hthen⟩
  · intro a ha b hb
    exact hlists.answers_iff (List.forall₂_zip hstands ha) (List.forall₂_zip hstands hb)
  · rw [hlists.size_eq, ← hlists.entries_eq, List.map_map]
    rfl

/-- A method and the same method of an interface share their class and their name and type. What
was in the pool before it was reset does not count. -/
theorem serveAll_twoMethods :
    let start := afterResets [[.cls "A", .entry (.long 5)], [.string "f"]]
    let rs : List Request := [.entry (.long 5), .method "A" "f" "()V" false,
      .method "A" "f" "()V" true, .string "A", .cls "A"]
    (start.serveAll rs).2.size ≤ 0xFFFF ∧ (start.serveAll rs).1 = [1, 8, 9, 10, 4] ∧
      List.Forall₂ (start.serveAll rs).2.StandsFor rs (start.serveAll rs).1 := by
  intro start rs
  have hsize : (start.serveAll rs).2.size ≤ 0xFFFF := by decide +kernel
  exact ⟨hsize, by decide +kernel, (serveAll_integrity _ rs hsize).1⟩

end Pool

end StackCode
