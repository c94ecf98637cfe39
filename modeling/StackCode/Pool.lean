import Std.Data.TreeMap
import StackCode.Const
import StackCode.Ty

/-!
# The constant pool

A pool hands out 16-bit indices for its entries and never holds two equal ones.
Slot 0 stays empty, and a long or double entry takes two slots, the second of
them empty. Indices past the last wrap around; a class that needs them is voided
by its limits, so a wrapped index is never read. A pool may be reset and filled
again.

Floating-point entries are bit patterns, which keeps signed zeros and the
payloads of not-a-numbers apart.
-/

namespace StackCode

/-- A pool entry; indices refer to other entries. -/
inductive Entry where
  | utf8 (text : String)
  | int (value : Int32)
  | float (bits : UInt32)
  | long (value : Int64)
  | double (bits : UInt64)
  | cls (name : UInt16)
  | string (text : UInt16)
  | field (owner nameAndType : UInt16)
  | method (owner nameAndType : UInt16)
  | interfaceMethod (owner nameAndType : UInt16)
  | nameAndType (name descriptor : UInt16)
deriving DecidableEq, Repr, Inhabited

namespace Entry

/-- The slots that an entry takes. -/
def slots : Entry → Nat
  | long _ | double _ => 2
  | _ => 1

/-- The number that marks the kind of an entry in the class format. -/
def tag : Entry → Nat
  | utf8 _ => 1
  | int _ => 3
  | float _ => 4
  | long _ => 5
  | double _ => 6
  | cls _ => 7
  | string _ => 8
  | field _ _ => 9
  | method _ _ => 10
  | interfaceMethod _ _ => 11
  | nameAndType _ _ => 12

/-- The number that an entry holds: its value or its two indices. -/
def number : Entry → Nat
  | utf8 _ => 0
  | int v => v.toUInt32.toNat
  | float b => b.toNat
  | long v => v.toUInt64.toNat
  | double b => b.toNat
  | cls i | string i => i.toNat
  | field a b | method a b | interfaceMethod a b | nameAndType a b => a.toNat * 0x10000 + b.toNat

/-- The text that an entry holds. -/
def text : Entry → String
  | utf8 s => s
  | _ => ""

/-- Entries are ordered by kind, then number, then text, so that the pool can look
them up. -/
def order : Entry → Entry → Ordering :=
  compareLex (compareOn tag) (compareLex (compareOn number) (compareOn text))

end Entry

/-- A constant pool. -/
structure Pool where
  /-- the entries by index; absent where the slot is empty -/
  slots : Array (Option Entry) := #[none]
  /-- the index of every entry -/
  index : Std.TreeMap Entry UInt16 Entry.order := ∅
  /-- slot 0 is there and empty -/
  vacant : slots[0]? = some none := by rfl

namespace Pool

/-- A pool without entries. -/
def empty : Pool := {}

instance : Inhabited Pool := ⟨empty⟩

/-- An entry that is added leaves slot 0 as it is. -/
theorem vacant_added {slots : Array (Option Entry)} (h : slots[0]? = some none) (e : Entry) :
    (if e.slots = 2 then (slots.push (some e)).push none else slots.push (some e))[0]? =
      some none := by
  have hsize : 0 < slots.size := (Array.getElem?_eq_some_iff.mp h).1
  have hpush : (slots.push (some e))[0]? = some none := by
    rw [Array.getElem?_push, if_neg (Nat.ne_of_lt hsize), h]
  split
  · rw [Array.getElem?_push, if_neg (by rw [Array.size_push]; omega), hpush]
  · exact hpush

/-- What is left of the slots if all but slot 0 are dropped. -/
theorem take_one_slots (p : Pool) : p.slots.take 1 = #[none] := by
  obtain ⟨hsize, h⟩ := Array.getElem?_eq_some_iff.mp p.vacant
  rw [Array.take_eq_extract]
  apply Array.ext
  · rw [Array.size_extract, Nat.min_eq_left hsize]
    rfl
  · intro i hi hi'
    obtain rfl : i = 0 := Nat.lt_one_iff.mp hi'
    rw [Array.getElem_extract]
    exact h

/-- Drops all entries, so that only slot 0 is left. -/
def reset (p : Pool) : Pool where
  slots := p.slots.take 1
  index := ∅
  vacant := by rw [p.take_one_slots]; rfl

/-- A pool that was reset is like a new one, whatever it held. -/
@[simp] theorem reset_eq_empty (p : Pool) : p.reset = empty := by
  unfold reset empty
  congr 1
  exact p.take_one_slots

/-- The number of slots taken, slot 0 included. -/
def size (p : Pool) : Nat := p.slots.size

def get? (p : Pool) (i : UInt16) : Option Entry := (p.slots[i.toNat]?).join

/-- Adds an entry unless it is there, and answers with its index. -/
def put (p : Pool) (e : Entry) : UInt16 × Pool :=
  match p.index[e]? with
  | some i => (i, p)
  | none =>
    let i := UInt16.ofNat p.slots.size
    let slots := p.slots.push (some e)
    let slots := if e.slots = 2 then slots.push none else slots
    (i, { slots, index := p.index.insert e i, vacant := vacant_added p.vacant e })

def putUtf8 (p : Pool) (s : String) : UInt16 × Pool := p.put (.utf8 s)

def putString (p : Pool) (s : String) : UInt16 × Pool :=
  let (i, p) := p.putUtf8 s
  p.put (.string i)

/-- A class by internal name, or an array type by descriptor. -/
def putClass (p : Pool) (name : String) : UInt16 × Pool :=
  let (i, p) := p.putUtf8 name
  p.put (.cls i)

def putType (p : Pool) (t : Ty) : UInt16 × Pool := p.putClass t.constantName

def putNameAndType (p : Pool) (name descriptor : String) : UInt16 × Pool :=
  let (n, p) := p.putUtf8 name
  let (d, p) := p.putUtf8 descriptor
  p.put (.nameAndType n d)

def putField (p : Pool) (owner name descriptor : String) : UInt16 × Pool :=
  let (o, p) := p.putClass owner
  let (n, p) := p.putNameAndType name descriptor
  p.put (.field o n)

def putMethod (p : Pool) (owner name descriptor : String) (isInterface : Bool) : UInt16 × Pool :=
  let (o, p) := p.putClass owner
  let (n, p) := p.putNameAndType name descriptor
  p.put (if isInterface then .interfaceMethod o n else .method o n)

/-- A constant that an instruction can load. -/
def putConst (p : Pool) : Const → UInt16 × Pool
  | .int v => p.put (.int v)
  | .long v => p.put (.long v)
  | .float b => p.put (.float b)
  | .double b => p.put (.double b)
  | .str s => p.putString s

/-- The entries with their positions, in order. -/
def entries (p : Pool) : List (Nat × Entry) :=
  p.slots.toList.zipIdx.filterMap fun (e, i) => e.map fun e => (i, e)

end Pool

end StackCode
