import Mathlib.Data.List.Chain
import Mathlib.Data.List.Perm.Subperm
import Mathlib.Logic.Relation
import StackCode.Resolver

/-!
# Subtypes

Whether a class is below another one is found by a search through the declarations: first the
interfaces of the class, each with all that is above it, then its superclass. `Hierarchy.Searches`
is this search without a bound, and `Hierarchy.Judges` is the question about types that it answers
for classes. Neither needs to come to an end if classes are declared in a circle. Where they are
not, a path upward passes every class at most once and is no longer than the number of
declarations, so that the bound of `Hierarchy.reaches` is never felt and every question has
exactly one answer.

The answers are then those of reachability, and subtyping is a preorder
(`Hierarchy.isSubtype_preorder`). An array is below three classes without any declaration;
transitivity across them needs that nothing is declared above these.
-/

namespace StackCode

namespace Hierarchy

/-- A declaration puts the class `b` directly above `a`. Of several superclasses of a class only
one counts. -/
def Declares (h : Hierarchy) (a b : String) : Prop :=
  (a, b) ∈ h.interfaces ∨ h.superclasses.lookup a = some b

/-- The classes that every array belongs to. -/
def arrayClasses : List String := [Ty.objectName, "java/lang/Cloneable", "java/io/Serializable"]

/-- No class is above itself, and nothing is declared above the classes that arrays belong to. -/
structure Grounded (h : Hierarchy) : Prop where
  acyclic : ∀ a, ¬ Relation.TransGen h.Declares a a
  tops : ∀ a ∈ arrayClasses, ∀ b, ¬ h.Declares a b

/-- The class `b` is reached from `a` by declarations, or is the root of all classes. -/
def Above (h : Hierarchy) (a b : String) : Prop :=
  b = Ty.objectName ∨ Relation.ReflTransGen h.Declares a b

/-- The search for `goal` from one of the given classes, in their order, comes to an end with an
answer. -/
inductive Searches (h : Hierarchy) (goal : String) : List String → Bool → Prop
  | nil : Searches h goal [] false
  | here {a : String} {rest : List String} (hit : a = goal ∨ goal = Ty.objectName) :
      Searches h goal (a :: rest) true
  | above {a : String} {rest : List String} (miss : ¬ (a = goal ∨ goal = Ty.objectName))
      (parents : Searches h goal (h.parents a) true) : Searches h goal (a :: rest) true
  | next {a : String} {rest : List String} {answer : Bool}
      (miss : ¬ (a = goal ∨ goal = Ty.objectName))
      (parents : Searches h goal (h.parents a) false) (later : Searches h goal rest answer) :
      Searches h goal (a :: rest) answer

/-- Deciding whether `t` is a subtype of `s` comes to an end with an answer. -/
inductive Judges (h : Hierarchy) : (t s : Ty) → Bool → Prop
  | same {t : Ty} : Judges h t t true
  | null {s : Ty} (other : s ≠ .null) : Judges h .null s s.isReference
  | cls {a b : String} {answer : Bool} (other : a ≠ b) (search : h.Searches b [a] answer) :
      Judges h (.cls a) (.cls b) answer
  | arrayCls {e : Ty} {b : String} : Judges h (.array e) (.cls b)
      (b == Ty.objectName || b == "java/lang/Cloneable" || b == "java/io/Serializable")
  | array {e f : Ty} {answer : Bool} (other : e ≠ f) (reference : e.isReference = true)
      (elements : Judges h e f answer) : Judges h (.array e) (.array f) answer
  | arrayOther {e f : Ty} (other : e ≠ f) (scalar : e.isReference = false) :
      Judges h (.array e) (.array f) false
  | clsOther {a : String} {s : Ty} (other : ∀ b, s ≠ .cls b) : Judges h (.cls a) s false
  | arrayScalar {e s : Ty} (notCls : ∀ b, s ≠ .cls b) (notArray : ∀ f, s ≠ .array f) :
      Judges h (.array e) s false
  | scalar {t s : Ty} (other : t ≠ s) (scalar : t.isReference = false) : Judges h t s false

variable {h : Hierarchy} {a b goal : String} {n : ℕ}

theorem mem_parents : b ∈ h.parents a ↔ h.Declares a b := by
  simp [parents, Declares]

/-! ### How long a search can be -/

/-- No path upward from `a` has more than `n` declarations. -/
def Shallow (h : Hierarchy) (n : ℕ) (a : String) : Prop :=
  ∀ path, (a :: path).IsChain h.Declares → path.length ≤ n

theorem Shallow.parents_eq_nil (hshallow : h.Shallow 0 a) : h.parents a = [] := by
  refine List.eq_nil_iff_forall_not_mem.mpr fun b hb => ?_
  have hpath := hshallow [b] (.cons_cons (mem_parents.mp hb) (.singleton b))
  simp at hpath

theorem Shallow.parent (hshallow : h.Shallow (n + 1) a) (hb : b ∈ h.parents a) : h.Shallow n b := by
  intro path hpath
  exact Nat.le_of_succ_le_succ (hshallow (b :: path) (.cons_cons (mem_parents.mp hb) hpath))

/-- The classes that something is declared above. -/
def declared (h : Hierarchy) : List String := h.superclasses.map (·.1) ++ h.interfaces.map (·.1)

theorem Declares.mem_declared (hdecl : h.Declares a b) : a ∈ h.declared := by
  rcases hdecl with hiface | hsuper
  · exact List.mem_append_right _ (List.mem_map_of_mem (f := (·.1)) hiface)
  · obtain ⟨l₁, l₂, hsplit, -⟩ := List.lookup_eq_some_iff.mp hsuper
    exact List.mem_append_left _ (by simp [hsplit])

/-- All classes of a path but the last have something declared above them. -/
theorem dropLast_subset_declared {path : List String} (hpath : path.IsChain h.Declares) :
    path.dropLast ⊆ h.declared := by
  induction hpath with
  | nil => exact List.nil_subset _
  | singleton a => exact List.nil_subset _
  | cons_cons hdecl _ ih => exact List.cons_subset.mpr ⟨hdecl.mem_declared, ih⟩

/-- Without circles, a path passes no class twice. -/
theorem Grounded.nodup (hground : h.Grounded) {path : List String}
    (hpath : path.IsChain h.Declares) :
    path.Nodup := by
  have hpairs := (hpath.imp fun _ _ => Relation.TransGen.single).pairwise
  refine hpairs.imp ?_
  rintro a _ habove rfl
  exact hground.acyclic a habove

theorem Grounded.shallow (hground : h.Grounded) (a : String) :
    h.Shallow (h.superclasses.length + h.interfaces.length) a := by
  intro path hpath
  have hnodup := hground.nodup hpath.dropLast
  have hle := (List.subperm_of_subset hnodup (dropLast_subset_declared hpath)).length_le
  simpa [declared] using hle

/-! ### What a search finds -/

/-- With enough steps, the bounded search ends as the one without a bound does. -/
theorem Shallow.searches (hshallow : h.Shallow n a) (goal : String) {rest : List String}
    {answer : Bool} (hrest : h.Searches goal rest answer) :
    h.Searches goal (a :: rest) (h.reaches goal n a || answer) := by
  induction n generalizing a rest answer with
  | zero =>
      by_cases hit : a = goal ∨ goal = Ty.objectName
      · have htrue : h.reaches goal 0 a = true := by simpa [reaches] using hit
        rw [htrue]
        exact .here hit
      · have hfalse : h.reaches goal 0 a = false := by simpa [reaches] using hit
        rw [hfalse]
        exact .next hit (hshallow.parents_eq_nil ▸ .nil) hrest
  | succ n ih =>
      have hany (above : List String) (habove : ∀ b ∈ above, h.Shallow n b) :
          h.Searches goal above (above.any (h.reaches goal n)) := by
        induction above with
        | nil => exact .nil
        | cons b above ihabove =>
            exact ih (habove b List.mem_cons_self)
              (ihabove fun c hc => habove c (List.mem_cons_of_mem b hc))
      have hparents := hany (h.parents a) fun b hb => hshallow.parent hb
      by_cases hit : a = goal ∨ goal = Ty.objectName
      · have htrue : h.reaches goal (n + 1) a = true := by
          rcases hit with rfl | rfl <;> simp [reaches]
        rw [htrue]
        exact .here hit
      · have hsteps : h.reaches goal (n + 1) a = (h.parents a).any (h.reaches goal n) := by
          obtain ⟨hother, htop⟩ := not_or.mp hit
          simp [reaches, hother, htop]
        rw [hsteps]
        cases hfound : (h.parents a).any (h.reaches goal n) with
        | true => exact .above hit (hfound ▸ hparents)
        | false => exact .next hit (hfound ▸ hparents) hrest

theorem Grounded.searches (hground : h.Grounded) (a goal : String) :
    h.Searches goal [a] (h.isSubclass a goal) := by
  have hsearch := (hground.shallow a).searches goal .nil
  rwa [Bool.or_false] at hsearch

/-- A search says whether the class it looks for is above one of those it starts from. -/
theorem Searches.answer_iff {classes : List String} {answer : Bool}
    (hsearch : h.Searches goal classes answer) :
    answer = true ↔ ∃ a ∈ classes, h.Above a goal := by
  induction hsearch with
  | nil => simp
  | @here a _ hit =>
      refine iff_of_true rfl ⟨a, List.mem_cons_self, ?_⟩
      rcases hit with rfl | htop
      · exact .inr .refl
      · exact .inl htop
  | @above a _ _ _ ih =>
      obtain ⟨b, hb, habove⟩ := ih.mp rfl
      exact iff_of_true rfl ⟨a, List.mem_cons_self, habove.imp id (.head (mem_parents.mp hb))⟩
  | @next a rest answer miss _ _ ihparents ih =>
      obtain ⟨hother, htop⟩ := not_or.mp miss
      have hnone : ¬ h.Above a goal := by
        rintro (rfl | hpath)
        · exact htop rfl
        · rcases hpath.cases_head with rfl | ⟨b, hdecl, hpath⟩
          · exact hother rfl
          · exact Bool.false_ne_true (ihparents.mpr ⟨b, mem_parents.mpr hdecl, .inr hpath⟩)
      rw [ih]
      simp [hnone]

theorem Grounded.isSubclass_iff (hground : h.Grounded) : h.isSubclass a b = true ↔ h.Above a b := by
  rw [(hground.searches a b).answer_iff]
  simp

/-! ### What is decided about types -/

variable {t s r : Ty}

theorem isSubclass_self (h : Hierarchy) (a : String) : h.isSubclass a a = true := by
  unfold isSubclass
  cases h.superclasses.length + h.interfaces.length <;> simp [reaches]

theorem isSubtype_refl (h : Hierarchy) (t : Ty) : h.isSubtype t t = true := by
  cases t <;> simp [isSubtype, isSubclass_self, Ty.isReference]

theorem isSubtype_scalar (h : Hierarchy) (hscalar : t.isReference = false) :
    h.isSubtype t s = (t == s) := by
  cases t with
  | null | cls _ | array _ => cases hscalar
  | _ => rfl

/-- Two types that are the same need not be looked into. -/
theorem judges_of_ne (hother : t ≠ s → h.Judges t s (h.isSubtype t s)) :
    h.Judges t s (h.isSubtype t s) := by
  by_cases hsame : t = s
  · rw [hsame, isSubtype_refl]
    exact .same
  · exact hother hsame

theorem judges_scalar (hscalar : t.isReference = false) : h.Judges t s (h.isSubtype t s) := by
  refine judges_of_ne fun hother => ?_
  rw [isSubtype_scalar h hscalar, beq_false_of_ne hother]
  exact .scalar hother hscalar

/-- Every question is answered. -/
theorem judges_isSubtype (hground : h.Grounded) : h.Judges t s (h.isSubtype t s) := by
  induction t generalizing s with
  | null => exact judges_of_ne fun hother => .null hother.symm
  | cls a =>
      cases s with
      | cls b =>
          exact judges_of_ne fun hother => .cls (mt (congrArg Ty.cls) hother) (hground.searches a b)
      | _ => exact .clsOther nofun
  | array e ih =>
      cases s with
      | cls b => exact .arrayCls
      | array f =>
          refine judges_of_ne fun hother => ?_
          have hne : e ≠ f := mt (congrArg Ty.array) hother
          have hstep : h.isSubtype (.array e) (.array f) = (e.isReference && h.isSubtype e f) := by
            simp [isSubtype, hne]
          rw [hstep]
          cases href : e.isReference with
          | true => exact .array hne href ih
          | false => exact .arrayOther hne href
      | _ => exact .arrayScalar nofun nofun
  | _ => exact judges_scalar rfl

/-- No question has two answers. -/
theorem Judges.answer_eq (hground : h.Grounded) {answer : Bool} (hjudge : h.Judges t s answer) :
    answer = h.isSubtype t s := by
  induction hjudge with
  | same => rw [isSubtype_refl]
  | null _ => rfl
  | cls _ hsearch =>
      rw [Bool.eq_iff_iff, hsearch.answer_iff]
      simp [isSubtype, hground.isSubclass_iff]
  | arrayCls => rfl
  | array hother href _ ih => simp [isSubtype, hother, href, ih]
  | arrayOther hother hscalar => simp [isSubtype, hother, hscalar]
  | @clsOther a s hother =>
      cases s with
      | cls b => exact absurd rfl (hother b)
      | _ => rfl
  | @arrayScalar e s hcls harray =>
      cases s with
      | cls b => exact absurd rfl (hcls b)
      | array f => exact absurd rfl (harray f)
      | _ => rfl
  | scalar hother hscalar => rw [isSubtype_scalar h hscalar, beq_false_of_ne hother]

/-! ### The relation -/

theorem Grounded.isSubtype_cls (hground : h.Grounded) :
    h.isSubtype (.cls a) (.cls b) = true ↔ h.Above a b := hground.isSubclass_iff

/-- Nothing is above the classes that arrays belong to, but the root. -/
theorem Grounded.above_top (hground : h.Grounded) (htop : a ∈ arrayClasses) (habove : h.Above a b) :
    b = Ty.objectName ∨ b = a := by
  rcases habove with hroot | hpath
  · exact .inl hroot
  · rcases hpath.cases_head with rfl | ⟨c, hdecl, -⟩
    · exact .inr rfl
    · exact absurd hdecl (hground.tops a htop c)

theorem Grounded.above_trans (hground : h.Grounded) {c : String} (hab : h.Above a b)
    (hbc : h.Above b c) :
    h.Above a c := by
  rcases hab with rfl | hab
  · exact .inl ((hground.above_top List.mem_cons_self hbc).elim id id)
  · exact hbc.imp id hab.trans

theorem isSubtype_array_cls (h : Hierarchy) (e : Ty) :
    h.isSubtype (.array e) (.cls b) = true ↔ b ∈ arrayClasses := by
  simp [isSubtype, arrayClasses, or_assoc]

theorem isSubtype_array_array (h : Hierarchy) (e f : Ty) :
    h.isSubtype (.array e) (.array f) = true ↔
    e = f ∨ e.isReference = true ∧ h.isSubtype e f = true := by
  simp [isSubtype]

/-- References are below references, and nothing else is. -/
theorem isReference_eq (hts : h.isSubtype t s = true) : t.isReference = s.isReference := by
  cases href : t.isReference with
  | false =>
      rw [isSubtype_scalar h href, beq_iff_eq] at hts
      rw [← hts, href]
  | true =>
      cases t with
      | null => exact hts.symm
      | cls _ | array _ =>
          cases s with
          | null | cls _ | array _ => rfl
          | _ => cases hts
      | _ => cases href

theorem Grounded.isSubtype_trans (hground : h.Grounded) (hts : h.isSubtype t s = true)
    (hsr : h.isSubtype s r = true) : h.isSubtype t r = true := by
  induction t generalizing s r with
  | null => exact (isReference_eq hsr).symm.trans (isReference_eq hts).symm
  | cls a =>
      cases s with
      | cls b =>
          cases r with
          | cls c =>
              rw [hground.isSubtype_cls] at hts hsr ⊢
              exact hground.above_trans hts hsr
          | _ => cases hsr
      | _ => cases hts
  | array e ih =>
      cases s with
      | cls b =>
          have htop := (isSubtype_array_cls h e).mp hts
          cases r with
          | cls c =>
              rw [isSubtype_array_cls]
              rcases hground.above_top htop (hground.isSubtype_cls.mp hsr) with rfl | rfl
              · exact List.mem_cons_self
              · exact htop
          | _ => cases hsr
      | array f =>
          cases r with
          | cls c => exact (isSubtype_array_cls h e).mpr ((isSubtype_array_cls h f).mp hsr)
          | array g =>
              rcases (isSubtype_array_array h e f).mp hts with rfl | ⟨href, hef⟩
              · exact hsr
              · rcases (isSubtype_array_array h f g).mp hsr with rfl | ⟨-, hfg⟩
                · exact hts
                · exact (isSubtype_array_array h e g).mpr (.inr ⟨href, ih hef hfg⟩)
          | _ => cases hsr
      | _ => cases hts
  | _ =>
      rw [isSubtype_scalar h rfl, beq_iff_eq] at hts
      rwa [← hts] at hsr

/-- Arrays of references are ordered as their elements are. -/
theorem isSubtype_array_of_reference (h : Hierarchy) {e f : Ty} (href : e.isReference = true) :
    h.isSubtype (.array e) (.array f) = true ↔ h.isSubtype e f = true := by
  rw [isSubtype_array_array]
  constructor
  · rintro (rfl | ⟨-, hef⟩)
    · exact h.isSubtype_refl e
    · exact hef
  · exact fun hef => .inr ⟨href, hef⟩

/-- Arrays of other types are below themselves only. -/
theorem isSubtype_array_of_scalar (h : Hierarchy) {e f : Ty}
    (hscalar : e.isReference = false ∨ f.isReference = false) :
    h.isSubtype (.array e) (.array f) = true ↔ e = f := by
  rw [isSubtype_array_array, or_iff_left]
  rintro ⟨href, hef⟩
  rw [← isReference_eq hef, href] at hscalar
  simp at hscalar

theorem isReference_of_isPrimitive (hprim : t.isPrimitive = true) : t.isReference = false := by
  cases t with
  | void | null | cls _ | array _ => cases hprim
  | _ => rfl

/-- Where no class is declared above itself and nothing above the classes of arrays, every
question about subtypes has one answer, and subtyping is a preorder: on classes it is what is
reached by declarations with the root on top, on arrays of references it follows the elements, and
on arrays of primitives it is equality. -/
theorem isSubtype_preorder (h : Hierarchy) (hground : h.Grounded) :
    (∀ t s answer, h.Judges t s answer ↔ answer = h.isSubtype t s) ∧
    (∀ t, h.isSubtype t t = true) ∧
    (∀ t s r, h.isSubtype t s = true → h.isSubtype s r = true → h.isSubtype t r = true) ∧
    (∀ a b, h.isSubtype (.cls a) (.cls b) = true ↔
      b = Ty.objectName ∨ Relation.ReflTransGen h.Declares a b) ∧
    (∀ e f : Ty, e.isReference = true →
      (h.isSubtype (.array e) (.array f) = true ↔ h.isSubtype e f = true)) ∧
    (∀ e f : Ty, e.isPrimitive = true ∨ f.isPrimitive = true →
      (h.isSubtype (.array e) (.array f) = true ↔ e = f)) := by
  refine ⟨fun t s answer => ⟨Judges.answer_eq hground, ?_⟩, h.isSubtype_refl, fun _ _ _ =>
    hground.isSubtype_trans,
    fun _ _ => hground.isSubtype_cls, fun _ _ => h.isSubtype_array_of_reference,
      fun e f hprim => ?_⟩
  · rintro rfl
    exact judges_isSubtype hground
  · exact h.isSubtype_array_of_scalar
      (hprim.imp isReference_of_isPrimitive isReference_of_isPrimitive)

/-- Declarations that lead from higher to lower ranks make no circle. -/
theorem acyclic_of_rank (rank : String → ℕ)
    (hrank : ∀ e ∈ h.superclasses ++ h.interfaces, rank e.2 < rank e.1) (a : String) :
    ¬ Relation.TransGen h.Declares a a := by
  have hstep {a b : String} (hdecl : h.Declares a b) : rank b < rank a := by
    rcases hdecl with hiface | hsuper
    · exact hrank _ (List.mem_append_right _ hiface)
    · obtain ⟨l₁, l₂, hsplit, -⟩ := List.lookup_eq_some_iff.mp hsuper
      exact hrank (a, b) (List.mem_append_left _ (by simp [hsplit]))
  have hlt {a b : String} (hpath : Relation.TransGen h.Declares a b) : rank b < rank a := by
    induction hpath with
    | single hdecl => exact hstep hdecl
    | tail _ hdecl ih => exact (hstep hdecl).trans ih
  exact fun hpath => Nat.lt_irrefl _ (hlt hpath)

/-- A class with two ways up to an interface. -/
def shapes : Hierarchy where
  superclasses := [("Square", "Rectangle")]
  interfaces := [("Square", "Regular"), ("Rectangle", "Shape"), ("Regular", "Shape")]

theorem isSubtype_preorder_shapes : shapes.Grounded ∧
    shapes.isSubtype (.array (.cls "Square")) (.array (.cls "Shape")) = true ∧
    shapes.Judges (.array (.cls "Shape")) (.array (.cls "Square")) false := by
  have hrank := @acyclic_of_rank shapes
    (fun name => if name = "Square" then 2 else if name = "Shape" then 0 else 1) (by decide)
  have htops : ∀ a ∈ arrayClasses, a ∉ shapes.declared := by decide
  have hground : shapes.Grounded := ⟨hrank, fun a ha b hdecl => htops a ha hdecl.mem_declared⟩
  obtain ⟨hanswers, -, -, hcls, harray, -⟩ := isSubtype_preorder shapes hground
  have hpath : Relation.ReflTransGen shapes.Declares "Square" "Shape" :=
    .head (.inl (by decide : ("Square", "Regular") ∈ shapes.interfaces))
      (.single (.inl (by decide)))
  exact ⟨hground, (harray _ _ rfl).mpr ((hcls _ _).mpr (.inr hpath)),
    (hanswers _ _ _).mpr (by decide)⟩

end Hierarchy

end StackCode
