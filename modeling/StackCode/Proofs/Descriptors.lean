import Mathlib.Data.List.TakeWhile
import StackCode.Ty

/-!
# Reading descriptors

The descriptors of a method's parameters stand side by side without separators, so a text can be
told apart only because no descriptor of a type begins another one. `Ty.read` takes one type off
the front of a text, and on a text that begins with the descriptor of a type it finds that type,
whatever follows (`Ty.read_descriptor`). All it needs is that the name of a class does not contain
the `;` that ends it.

What is read is the type as it was written: `null` is written as the root class, on any level of
an array. Hence two signatures have one descriptor just if they are the same in this respect
(`MethodTy.descriptor_decodes`). The words that the arguments take are also in the descriptor:
`readWords` counts them from one character to the next.
-/

namespace StackCode

namespace Ty

/-- The type that the descriptor of a type stands for. -/
def written : Ty → Ty
  | null => object
  | array e => array e.written
  | t => t

/-- No class name in the type contains the character that ends it in a descriptor. -/
def Nameable : Ty → Prop
  | cls name => ';' ∉ name.toList
  | array e => e.Nameable
  | _ => True

instance Nameable.decidable : (t : Ty) → Decidable t.Nameable
  | cls name => inferInstanceAs (Decidable (';' ∉ name.toList))
  | array e => Nameable.decidable e
  | void | boolean | byte | short | char | int | long | float | double | null => isTrue trivial

/-- Reads the name of a class up to the `;`. -/
def readName (text : List Char) : Option (Ty × List Char) :=
  match text.dropWhile (· != ';') with
  | [] => none
  | _ :: rest => some (cls (String.ofList (text.takeWhile (· != ';'))), rest)

/-- Reads one type off the front of a text. -/
def read : List Char → Option (Ty × List Char)
  | 'V' :: rest => some (void, rest)
  | 'Z' :: rest => some (boolean, rest)
  | 'B' :: rest => some (byte, rest)
  | 'S' :: rest => some (short, rest)
  | 'C' :: rest => some (char, rest)
  | 'I' :: rest => some (int, rest)
  | 'J' :: rest => some (long, rest)
  | 'F' :: rest => some (float, rest)
  | 'D' :: rest => some (double, rest)
  | 'L' :: text => readName text
  | '[' :: text => (read text).map fun (e, rest) => (array e, rest)
  | _ => none

theorem readName_append {name : String} (hname : ';' ∉ name.toList) (rest : List Char) :
    readName (name.toList ++ ';' :: rest) = some (cls name, rest) := by
  have hall : ∀ c ∈ name.toList, (c != ';') = true := by
    intro c hc
    simp only [bne_iff_ne, ne_eq]
    rintro rfl
    exact hname hc
  unfold readName
  rw [List.dropWhile_append_of_pos hall, List.takeWhile_append_of_pos hall]
  simp

/-- A text that begins with a descriptor is read as the type that was written. -/
theorem read_descriptor {t : Ty} (ht : t.Nameable) (rest : List Char) :
    read (t.descriptor.toList ++ rest) = some (t.written, rest) := by
  induction t with
  | null =>
      simpa [descriptor, read, written, object] using @readName_append objectName (by decide) rest
  | cls name => simpa [descriptor, read, written] using readName_append ht rest
  | array e ih => simp [descriptor, read, written, ih ht]
  | _ => rfl

/-- The descriptor of one type does not begin that of another. -/
theorem descriptor_append_inj {t t' : Ty} (ht : t.Nameable) (ht' : t'.Nameable)
    {rest rest' : List Char} (h : t.descriptor.toList ++ rest = t'.descriptor.toList ++ rest') :
    t.written = t'.written ∧ rest = rest' := by
  have hread := read_descriptor ht rest
  rw [h, read_descriptor ht' rest', Option.some.injEq, Prod.mk.injEq] at hread
  exact ⟨hread.1.symm, hread.2.symm⟩

/-- The end of the parameters is not taken for one of them. -/
theorem descriptor_append_ne {t : Ty} (ht : t.Nameable) (rest rest' : List Char) :
    t.descriptor.toList ++ rest ≠ ')' :: rest' := by
  intro h
  have hread := read_descriptor ht rest
  rw [h] at hread
  cases hread

theorem descriptor_written (t : Ty) : t.written.descriptor = t.descriptor := by
  induction t with
  | array e ih => simp [written, descriptor, ih]
  | _ => rfl

/-- The descriptors of several types, side by side. -/
def descriptors (ts : List Ty) : List Char := ts.flatMap fun t => t.descriptor.toList

theorem descriptors_append_inj {ts ts' : List Ty} (hts : ∀ t ∈ ts, t.Nameable)
    (hts' : ∀ t ∈ ts', t.Nameable)
    {rest rest' : List Char} (h : descriptors ts ++ ')' :: rest = descriptors ts' ++ ')' :: rest') :
    ts.map written = ts'.map written ∧ rest = rest' := by
  induction ts generalizing ts' with
  | nil =>
      cases ts' with
      | nil => exact ⟨rfl, (List.cons.inj h).2⟩
      | cons t' ts' =>
          rw [descriptors, descriptors, List.flatMap_cons, List.append_assoc] at h
          exact absurd h.symm (descriptor_append_ne (hts' t' List.mem_cons_self) _ _)
  | cons t ts ih =>
      rw [descriptors, List.flatMap_cons, List.append_assoc] at h
      cases ts' with
      | nil => exact absurd h (descriptor_append_ne (hts t List.mem_cons_self) _ _)
      | cons t' ts' =>
          rw [descriptors, List.flatMap_cons, List.append_assoc] at h
          obtain ⟨hhead, htail⟩ := descriptor_append_inj (hts t List.mem_cons_self)
            (hts' t' List.mem_cons_self) h
          obtain ⟨hrest, hend⟩ := ih (fun u hu => hts u (List.mem_cons_of_mem t hu))
            (fun u hu => hts' u (List.mem_cons_of_mem t' hu)) htail
          exact ⟨by rw [List.map_cons, List.map_cons, hhead, hrest], hend⟩

end Ty

/-! ### Counting words -/

/-- What the next character of the parameters belongs to: a parameter, the elements of an array,
or the name of a class. -/
inductive Place where
  | param
  | element
  | name

/-- The words that one character adds where a parameter begins. -/
def characterWords (c : Char) : ℕ :=
  if c = 'J' ∨ c = 'D' then 2 else if c = 'V' then 0 else 1

/-- Counts the words of the arguments, character by character, up to the end of the parameters. An
array takes one word for all its levels, and a name takes its word where it begins. -/
def readWords : Place → List Char → ℕ
  | _, [] => 0
  | .param, c :: rest =>
    if c = ')' then 0
    else if c = '[' then readWords .element rest
    else if c = 'L' then 1 + readWords .name rest
    else characterWords c + readWords .param rest
  | .element, c :: rest =>
    if c = '[' then readWords .element rest
    else if c = 'L' then 1 + readWords .name rest
    else 1 + readWords .param rest
  | .name, c :: rest => readWords (if c = ';' then .param else .name) rest

theorem readWords_name {name : List Char} (hname : ';' ∉ name) (rest : List Char) :
    readWords .name (name ++ ';' :: rest) = readWords .param rest := by
  induction name with
  | nil => simp [readWords]
  | cons c name ih =>
      obtain ⟨hc, hname⟩ := not_or.mp (List.mem_cons.not.mp hname)
      rw [List.cons_append, readWords, if_neg (Ne.symm hc), ih hname]

theorem readWords_element {t : Ty} (ht : t.Nameable) (rest : List Char) :
    readWords .element (t.descriptor.toList ++ rest) = 1 + readWords .param rest := by
  induction t with
  | null =>
      simpa [Ty.descriptor, readWords] using @readWords_name Ty.objectName.toList (by decide) rest
  | cls name => simpa [Ty.descriptor, readWords] using readWords_name ht rest
  | array e ih => simpa [Ty.descriptor, readWords] using ih ht
  | _ => rfl

theorem readWords_param {t : Ty} (ht : t.Nameable) (rest : List Char) :
    readWords .param (t.descriptor.toList ++ rest) = t.width + readWords .param rest := by
  cases t with
  | null => simpa [Ty.descriptor, Ty.width, readWords] using
      @readWords_name Ty.objectName.toList (by decide) rest
  | cls name => simpa [Ty.descriptor, Ty.width, readWords] using readWords_name ht rest
  | array e => simpa [Ty.descriptor, Ty.width, readWords] using readWords_element (t := e) ht rest
  | _ => rfl

theorem readWords_descriptors {ts : List Ty} (hts : ∀ t ∈ ts, t.Nameable) (rest : List Char) :
    readWords .param (Ty.descriptors ts ++ ')' :: rest) = Ty.totalWidth ts := by
  induction ts with
  | nil => rfl
  | cons t ts ih =>
      rw [Ty.descriptors, List.flatMap_cons, List.append_assoc,
        readWords_param (hts t List.mem_cons_self)]
      exact congrArg (t.width + ·) (ih fun u hu => hts u (List.mem_cons_of_mem t hu))

namespace MethodTy

def Nameable (m : MethodTy) : Prop := (∀ t ∈ m.params, t.Nameable) ∧ m.ret.Nameable

instance (m : MethodTy) : Decidable m.Nameable := inferInstanceAs (Decidable (_ ∧ _))

theorem toList_descriptor (m : MethodTy) :
    m.descriptor.toList = '(' :: (Ty.descriptors m.params ++ ')' :: m.ret.descriptor.toList) := by
  simp [descriptor, Ty.descriptors, String.toList_join, List.flatMap_map]

/-- Signatures with one descriptor have the same parameters in the same order and the same result,
`null` being taken for the root class, and the descriptor tells the words of the arguments. -/
theorem descriptor_decodes (m : MethodTy) (hm : m.Nameable) :
    (∀ m' : MethodTy, m'.Nameable → (m.descriptor = m'.descriptor ↔
      m.params.map Ty.written = m'.params.map Ty.written ∧ m.ret.written = m'.ret.written)) ∧
    m.paramWords = readWords .param (m.descriptor.toList.drop 1) := by
  refine ⟨fun m' hm' => ⟨?_, ?_⟩, ?_⟩
  · intro h
    have hlist := congrArg String.toList h
    rw [toList_descriptor, toList_descriptor] at hlist
    obtain ⟨hparams, hret⟩ := Ty.descriptors_append_inj hm.1 hm'.1 (List.cons.inj hlist).2
    -- nothing stands behind the result
    exact ⟨hparams, (Ty.descriptor_append_inj hm.2 hm'.2 (congrArg (· ++ []) hret)).1⟩
  · rintro ⟨hparams, hret⟩
    have hnames (ts : List Ty) : ts.map Ty.descriptor = (ts.map Ty.written).map Ty.descriptor := by
      simp [Ty.descriptor_written]
    rw [descriptor, descriptor, hnames, hparams, ← hnames, ← m.ret.descriptor_written, hret,
      Ty.descriptor_written]
  · rw [toList_descriptor, List.drop_one, List.tail_cons, readWords_descriptors hm.1]
    rfl

/-- A signature with `null` on two levels. -/
theorem descriptor_decodes_null :
    let m : MethodTy := ⟨[.null, .array (.array .long), .double, .cls "J"], .array .null⟩
    let m' : MethodTy := ⟨[.object, .array (.array .long), .double, .cls "J"], .array .object⟩
    m.Nameable ∧ m'.Nameable ∧ m.descriptor = m'.descriptor ∧
      readWords .param (m.descriptor.toList.drop 1) = 5 := by
  refine ⟨by decide, by decide, ?_, ?_⟩
  · exact ((descriptor_decodes _ (by decide)).1 _ (by decide)).mpr ⟨rfl, rfl⟩
  · exact (descriptor_decodes _ (by decide)).2.symm

end MethodTy

end StackCode
