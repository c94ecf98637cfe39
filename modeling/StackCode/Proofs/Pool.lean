import StackCode.Item.Access

/-!
# Looking entries up in the pool

A pool only grows: an entry keeps its index for good. `Pool.Extends` is that
relation. The index that `Pool.put` answers with leads back to the entry, as long
as the pool has not outgrown the 16 bits of an index; `Pool.Indexed` is the
invariant behind this. A class whose pool has outgrown them gets no code, so
nothing more is ever needed.
-/

namespace StackCode

namespace Entry

/-- Two entries that come out even are the same. -/
theorem order_eq_iff {a b : Entry} : order a b = .eq ↔ a = b := by
  constructor
  · intro h
    simp only [order, compareLex_eq_eq, compareOn, Nat.compare_eq_eq] at h
    obtain ⟨htag, hnumber, htext⟩ := h
    replace htext := Std.LawfulEqCmp.eq_of_compare htext
    cases a <;> cases b <;> simp [tag] at htag <;>
      simp only [number, text, UInt16.toNat_inj, UInt32.toNat_inj,
        UInt64.toNat_inj] at hnumber htext
    case utf8.utf8 => rw [htext]
    case int.int v v' =>
        cases v
        cases v'
        exact congrArg (fun u => Entry.int ⟨u⟩) hnumber
    case long.long v v' =>
        cases v
        cases v'
        exact congrArg (fun u => Entry.long ⟨u⟩) hnumber
    case float.float => rw [hnumber]
    case double.double => rw [hnumber]
    case cls.cls => rw [hnumber]
    case string.string => rw [hnumber]
    -- two indices share one number, sixteen bits each
    all_goals
      rename_i o n o' n'
      have hn := n.toNat_lt
      have hn' := n'.toNat_lt
      have ho : o = o' := UInt16.toNat_inj.mp (by omega)
      have hn : n = n' := UInt16.toNat_inj.mp (by omega)
      rw [ho, hn]
  · rintro rfl
    simp [order, compareLex_eq_eq, compareOn]

instance : Std.TransCmp Entry.order := by
  unfold Entry.order
  infer_instance

end Entry

namespace Pool

/-- Every entry of `p` stands at the same index in `q`. -/
def Extends (p q : Pool) : Prop :=
  p.size ≤ q.size ∧ ∀ i e, p.get? i = some e → q.get? i = some e

/-- The index of every entry leads back to it, while indices fit 16 bits. -/
def Indexed (p : Pool) : Prop :=
  ∀ e i, p.index[e]? = some i → p.size ≤ 0x10000 → p.get? i = some e

theorem Extends.refl (p : Pool) : p.Extends p := ⟨Nat.le_refl _, fun _ _ h => h⟩

theorem Extends.trans {p q r : Pool} (h : p.Extends q) (h' : q.Extends r) : p.Extends r :=
  ⟨Nat.le_trans h.1 h'.1, fun i e he => h'.2 i e (h.2 i e he)⟩

theorem indexed_empty : Indexed {} := by
  intro e i h
  simp at h

/-- Slots that are pushed come behind those that are there. -/
theorem get?_of_prefix {p q : Pool} {more : Array (Option Entry)}
    (h : q.slots = p.slots ++ more) {i : UInt16} {e : Entry} (he : p.get? i = some e) :
    q.get? i = some e := by
  unfold get? at he ⊢
  rw [h]
  by_cases hi : i.toNat < p.slots.size
  · rwa [Array.getElem?_append_left hi]
  · rw [Array.getElem?_eq_none (Nat.le_of_not_lt hi)] at he
    cases he

/-- What `put` adds to a pool that does not hold the entry. -/
theorem slots_put {p : Pool} {e : Entry} (h : p.index[e]? = none) :
    (p.put e).2.slots = p.slots ++ (if e.slots = 2 then #[some e, none] else #[some e]) ∧
      (p.put e).2.index = p.index.insert e (UInt16.ofNat p.slots.size) ∧
      (p.put e).1 = UInt16.ofNat p.slots.size := by
  unfold put
  rw [h]
  refine ⟨?_, rfl, rfl⟩
  by_cases he : e.slots = 2
  · rw [if_pos he]
    simp [he, ← Array.append_singleton]
  · simp [he]

theorem extends_put (p : Pool) (e : Entry) : p.Extends (p.put e).2 := by
  cases h : p.index[e]? with
  | some i =>
      have hput : p.put e = (i, p) := by simp [put, h]
      rw [hput]
      exact .refl p
  | none =>
      have hslots := (slots_put h).1
      refine ⟨?_, fun i e' => get?_of_prefix hslots⟩
      unfold size
      rw [hslots, Array.size_append]
      exact Nat.le_add_right _ _

/-- The index that `put` answers with leads to the entry. -/
theorem Indexed.put {p : Pool} (h : p.Indexed) (e : Entry) :
    (p.put e).2.Indexed ∧ ((p.put e).2.size ≤ 0x10000 → (p.put e).2.get? (p.put e).1 = some e) := by
  cases hi : p.index[e]? with
  | some i =>
      have hput : p.put e = (i, p) := by simp [Pool.put, hi]
      rw [hput]
      exact ⟨h, h e i hi⟩
  | none =>
      obtain ⟨hslots, hindex, hat⟩ := slots_put hi
      have hext := p.extends_put e
      have hnew : (p.put e).2.size ≤ 0x10000 → (p.put e).2.get? (p.put e).1 = some e := by
        intro hsize
        have hlt : p.slots.size < (p.put e).2.size := by
          unfold size
          rw [hslots]
          split <;> simp
        rw [hat]
        unfold get?
        rw [hslots, UInt16.toNat_ofNat_of_lt' (show p.slots.size < 65536 by omega),
          Array.getElem?_append_right (Nat.le_refl _)]
        split <;> simp
      refine ⟨?_, hnew⟩
      intro e' i hfound hsize
      rw [hindex, Std.TreeMap.getElem?_insert] at hfound
      split at hfound
      · rename_i heq
        rw [Entry.order_eq_iff] at heq
        cases hfound
        rw [← heq, ← hat]
        exact hnew hsize
      · exact hext.2 i e' (h e' i hfound (Nat.le_trans hext.1 hsize))

/-! ### Putting entries that refer to others -/

/-- A step over the pool that only adds to it, and whose answer satisfies `Q`
unless the pool has outgrown its indices. -/
def Puts (f : Pool → UInt16 × Pool) (Q : UInt16 → Pool → Prop) : Prop :=
  ∀ p, p.Extends (f p).2 ∧ (p.Indexed → (f p).2.Indexed ∧
    ((f p).2.size ≤ 0x10000 → Q (f p).1 (f p).2))

theorem puts_put (e : Entry) : Puts (·.put e) fun i p => p.get? i = some e :=
  fun p => ⟨p.extends_put e, fun h => h.put e⟩

/-- One step after the other; what the first one found still holds after the
second if it survives growth. -/
theorem Puts.bind {f : Pool → UInt16 × Pool} {g : UInt16 → Pool → UInt16 × Pool}
    {P Q : UInt16 → Pool → Prop} {R : UInt16 → UInt16 → Pool → Prop} (hf : Puts f P)
    (hg : ∀ i, Puts (g i) (R i)) (hP : ∀ i p q, P i p → p.Extends q → P i q)
    (hQ : ∀ i j q, P i q → R i j q → Q j q) :
    Puts (fun p => g (f p).1 (f p).2) Q := by
  intro p
  obtain ⟨hext, hind⟩ := hf p
  obtain ⟨hext', hind'⟩ := hg (f p).1 (f p).2
  refine ⟨hext.trans hext', fun h => ?_⟩
  obtain ⟨hi, hfound⟩ := hind h
  obtain ⟨hi', hfound'⟩ := hind' hi
  refine ⟨hi', fun hsize => ?_⟩
  exact hQ _ _ _ (hP _ _ _ (hfound (Nat.le_trans hext'.1 hsize)) hext') (hfound' hsize)

theorem Puts.mono {f : Pool → UInt16 × Pool} {P Q : UInt16 → Pool → Prop} (h : Puts f P)
    (hPQ : ∀ i p, P i p → Q i p) : Puts f Q :=
  fun p => ⟨(h p).1, fun hi => ⟨((h p).2 hi).1, fun hs => hPQ _ _ (((h p).2 hi).2 hs)⟩⟩

/-- The text at an index. -/
def text? (p : Pool) (i : UInt16) : Option String :=
  match p.get? i with
  | some (.utf8 s) => some s
  | _ => none

/-! ### Constants and what they refer to -/

/-- The kinds of reference to a member. -/
inductive MemberKind where
  | field
  | method
  | interfaceMethod
deriving DecidableEq

/-- The reference to a member by the indices of its class and of its name and type. -/
def MemberKind.entry : MemberKind → UInt16 → UInt16 → Entry
  | field => .field
  | method => .method
  | interfaceMethod => .interfaceMethod

/-- A constant with all that it refers to, in place of indices. -/
inductive Constant where
  | utf8 (text : String)
  | int (value : Int32)
  | float (bits : UInt32)
  | long (value : Int64)
  | double (bits : UInt64)
  | cls (name : String)
  | string (text : String)
  | nameAndType (name descriptor : String)
  | member (kind : MemberKind) (owner name descriptor : String)
deriving DecidableEq

/-- A class entry with its name. -/
def ReadsClass (p : Pool) (i : UInt16) (name : String) : Prop :=
  ∃ n, p.get? i = some (.cls n) ∧ p.get? n = some (.utf8 name)

/-- An entry with a name and a descriptor. -/
def ReadsPair (p : Pool) (i : UInt16) (name descriptor : String) : Prop :=
  ∃ n d, p.get? i = some (.nameAndType n d) ∧ p.get? n = some (.utf8 name) ∧
    p.get? d = some (.utf8 descriptor)

/-- The constant at an index: the entry there, and the entries that it refers to, are of the
kinds that the constant asks for. -/
def Reads (p : Pool) (i : UInt16) : Constant → Prop
  | .utf8 text => p.get? i = some (.utf8 text)
  | .int value => p.get? i = some (.int value)
  | .float bits => p.get? i = some (.float bits)
  | .long value => p.get? i = some (.long value)
  | .double bits => p.get? i = some (.double bits)
  | .cls name => p.ReadsClass i name
  | .string text => ∃ n, p.get? i = some (.string n) ∧ p.get? n = some (.utf8 text)
  | .nameAndType name descriptor => p.ReadsPair i name descriptor
  | .member kind owner name descriptor => ∃ o n, p.get? i = some (kind.entry o n) ∧
      p.ReadsClass o owner ∧ p.ReadsPair n name descriptor

theorem Extends.readsClass {p q : Pool} (h : p.Extends q) {i : UInt16} {name : String} :
    p.ReadsClass i name → q.ReadsClass i name := by
  rintro ⟨n, hi, hn⟩
  exact ⟨n, h.2 _ _ hi, h.2 _ _ hn⟩

theorem Extends.readsPair {p q : Pool} (h : p.Extends q) {i : UInt16} {name descriptor : String} :
    p.ReadsPair i name descriptor → q.ReadsPair i name descriptor := by
  rintro ⟨n, d, hi, hn, hd⟩
  exact ⟨n, d, h.2 _ _ hi, h.2 _ _ hn, h.2 _ _ hd⟩

/-- An index keeps its constant. -/
theorem Extends.reads {p q : Pool} (h : p.Extends q) {i : UInt16} {c : Constant}
    (hc : p.Reads i c) : q.Reads i c := by
  cases c with
  | cls name => exact h.readsClass hc
  | nameAndType name descriptor => exact h.readsPair hc
  | string text =>
      obtain ⟨n, hi, hn⟩ := hc
      exact ⟨n, h.2 _ _ hi, h.2 _ _ hn⟩
  | member kind owner name descriptor =>
      obtain ⟨o, n, hi, ho, hn⟩ := hc
      exact ⟨o, n, h.2 _ _ hi, h.readsClass ho, h.readsPair hn⟩
  | _ => exact h.2 _ _ hc

theorem puts_utf8 (s : String) : Puts (·.putUtf8 s) fun i p => p.Reads i (.utf8 s) :=
  puts_put (.utf8 s)

theorem puts_string (s : String) : Puts (·.putString s) fun i p => p.Reads i (.string s) :=
  Puts.bind (puts_utf8 s) (fun i => puts_put (.string i)) (fun _ _ _ h hext => hext.reads h)
    fun i _ _ hi hj => ⟨i, hj, hi⟩

theorem puts_class (name : String) : Puts (·.putClass name) fun i p => p.Reads i (.cls name) :=
  Puts.bind (puts_utf8 name) (fun i => puts_put (.cls i)) (fun _ _ _ h hext => hext.reads h)
    fun i _ _ hi hj => ⟨i, hj, hi⟩

theorem puts_nameAndType (name descriptor : String) :
    Puts (·.putNameAndType name descriptor) fun i p => p.Reads i
      (.nameAndType name descriptor) := by
  have hpair (n : UInt16) : Puts (fun p => (p.putUtf8 descriptor).2.put
      (.nameAndType n (p.putUtf8 descriptor).1)) fun i p =>
        ∃ d, p.get? i = some (.nameAndType n d) ∧ p.Reads d (.utf8 descriptor) :=
    Puts.bind (g := fun d p => p.put (.nameAndType n d)) (puts_utf8 descriptor)
      (fun d => puts_put (.nameAndType n d)) (fun _ _ _ h hext => hext.reads h)
      fun d _ _ hd hi => ⟨d, hi, hd⟩
  refine Puts.bind (g := fun n p => (p.putUtf8 descriptor).2.put
    (.nameAndType n (p.putUtf8 descriptor).1)) (puts_utf8 name) hpair
    (fun _ _ _ h hext => hext.reads h) ?_
  rintro n i q hn ⟨d, hi, hd⟩
  exact ⟨n, d, hi, hn, hd⟩

/-- A reference to a member leads to its class, name and descriptor. -/
theorem puts_member (kind : MemberKind) (owner name descriptor : String) :
    Puts (fun p =>
        ((p.putClass owner).2.putNameAndType name descriptor).2.put
          (kind.entry (p.putClass owner).1 ((p.putClass owner).2.putNameAndType name descriptor).1))
      fun i p => p.Reads i (.member kind owner name descriptor) := by
  have hpair (o : UInt16) : Puts (fun p => (p.putNameAndType name descriptor).2.put
      (kind.entry o (p.putNameAndType name descriptor).1)) fun i p =>
        ∃ n, p.get? i = some (kind.entry o n) ∧ p.Reads n (.nameAndType name descriptor) :=
    Puts.bind (g := fun n p => p.put (kind.entry o n)) (puts_nameAndType name descriptor)
      (fun n => puts_put (kind.entry o n)) (fun _ _ _ h hext => hext.reads h)
      fun n _ _ hn hi => ⟨n, hi, hn⟩
  refine Puts.bind (g := fun o p => (p.putNameAndType name descriptor).2.put
    (kind.entry o (p.putNameAndType name descriptor).1)) (puts_class owner) hpair
    (fun _ _ _ h hext => hext.reads h) ?_
  rintro o i q ho ⟨n, hi, hn⟩
  exact ⟨o, n, hi, ho, hn⟩

theorem puts_field (owner name descriptor : String) : Puts (·.putField owner name descriptor)
    fun i p => p.Reads i (.member .field owner name descriptor) :=
  puts_member .field owner name descriptor

theorem puts_method (owner name descriptor : String) (isInterface : Bool) :
    Puts (·.putMethod owner name descriptor isInterface) fun i p =>
      p.Reads i
        (.member (if isInterface then .interfaceMethod else .method) owner name descriptor) := by
  unfold putMethod
  cases isInterface
  · simp only [Bool.false_eq_true, if_false]
    exact puts_member .method owner name descriptor
  · simp only [if_true]
    exact puts_member .interfaceMethod owner name descriptor

/-- The constant that an instruction loads. -/
def Constant.ofConst : Const → Constant
  | .int v => .int v
  | .long v => .long v
  | .float b => .float b
  | .double b => .double b
  | .str s => .string s

theorem puts_const (c : Const) : Puts (·.putConst c) fun i p => p.Reads i (.ofConst c) := by
  cases c with
  | str s => exact puts_string s
  | int v => exact puts_put (.int v)
  | long v => exact puts_put (.long v)
  | float b => exact puts_put (.float b)
  | double b => exact puts_put (.double b)

end Pool

end StackCode
