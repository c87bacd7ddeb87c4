import JavaFragment.Resolve.Viewpoint
import Mathlib.Data.Finset.Card
import Mathlib.Logic.Relation
/-!
The class hierarchy as a relation. In a table without cycles a walk upwards meets no class twice, so that walks of
bounded length find every ancestor. What can be assigned to what is a preorder that follows the hierarchy.
-/
namespace JavaFragment

namespace ClassTable

variable {t : ClassTable} {a b : String}

/-- A step from a known class to its superclass or to one of its interfaces. -/
def Extends (t : ClassTable) (a b : String) : Prop := ∃ c, t.find? a = some c ∧ b ∈ c.parents

/-- No class is an ancestor of itself. -/
def Acyclic (t : ClassTable) : Prop := ∀ name, ¬ Relation.TransGen t.Extends name name

/-- A table is without cycles if every class stands higher than its parents in some order. -/
theorem acyclic_of_rank (rank : String → Nat) (h : ∀ c ∈ t.classes, ∀ parent ∈ c.parents, rank parent < rank c.name) :
    t.Acyclic := by
  have hStep {a b : String} (hab : t.Extends a b) : rank b < rank a := by
    obtain ⟨c, hFound, hParent⟩ := hab
    have hName : c.name = a := by simpa using List.find?_some hFound
    exact hName ▸ h c (List.mem_of_find?_eq_some hFound) b hParent
  intro name hCycle
  have hBelow (b : String) (hPath : Relation.TransGen t.Extends name b) : rank b < rank name := by
    induction hPath with
    | single hab => exact hStep hab
    | tail _ hbc ih => exact (hStep hbc).trans ih
  exact Nat.lt_irrefl _ (hBelow name hCycle)

/-- If `Object` is known, it has no parents. -/
def Rooted (t : ClassTable) : Prop := ∀ c, t.find? objectClass = some c → c.parents = []

open Classical in
/-- The known classes that are proper ancestors of a class. -/
noncomputable def ancestors (t : ClassTable) (name : String) : Finset String :=
  (t.classes.map ClassModel.name).toFinset.filter (Relation.TransGen t.Extends name)

theorem mem_ancestors {name ancestor : String} : ancestor ∈ t.ancestors name ↔
    (t.find? ancestor).isSome ∧ Relation.TransGen t.Extends name ancestor := by
  simp [ancestors, find?]

/-- An ancestor that is known has fewer ancestors. -/
theorem Acyclic.card_ancestors_lt (h : t.Acyclic) (hStep : t.Extends a b) (hKnown : (t.find? b).isSome) :
    (t.ancestors b).card < (t.ancestors a).card := by
  apply Finset.card_lt_card
  refine Finset.ssubset_iff_subset_ne.2 ⟨fun ancestor hMem => ?_, fun hSame => ?_⟩
  · obtain ⟨hFound, hAbove⟩ := mem_ancestors.1 hMem
    exact mem_ancestors.2 ⟨hFound, .head hStep hAbove⟩
  · have hSelf : b ∈ t.ancestors b := by
      rw [hSame]
      exact mem_ancestors.2 ⟨hKnown, .single hStep⟩
    exact h b (mem_ancestors.1 hSelf).2

open Classical in
theorem card_ancestors_lt_height (t : ClassTable) (name : String) : (t.ancestors name).card < t.height := by
  have hNames : (t.classes.map ClassModel.name).toFinset.card ≤ t.size :=
    (List.toFinset_card_le _).trans (by simp [size])
  exact Nat.lt_succ_of_le ((Finset.card_filter_le ..).trans hNames)

theorem extends_of_reaches {steps : Nat} (h : t.reaches b steps a) : Relation.ReflTransGen t.Extends a b := by
  induction steps generalizing a with
  | zero =>
    obtain rfl : a = b := by simpa [reaches] using h
    exact .refl
  | succ steps ih =>
    rw [reaches, Bool.or_eq_true, beq_iff_eq] at h
    rcases h with rfl | h
    · exact .refl
    · split at h
      · cases h
      · next c hFound =>
        obtain ⟨parent, hParent, hReaches⟩ := List.any_eq_true.1 h
        exact .head ⟨c, hFound, hParent⟩ (ih hReaches)

theorem reaches_self (steps : Nat) (name : String) : t.reaches name steps name := by
  cases steps <;> simp [reaches]

/-- A walk that may take more steps than a class has ancestors reaches all of them. -/
theorem Acyclic.reaches_of_extends (h : t.Acyclic) (hPath : Relation.ReflTransGen t.Extends a b) {steps : Nat}
    (hSteps : (t.ancestors a).card < steps) : t.reaches b steps a := by
  induction hPath using Relation.ReflTransGen.head_induction_on generalizing steps with
  | refl => exact reaches_self steps b
  | @head a parent hStep hRest ih =>
    obtain ⟨steps, rfl⟩ := Nat.exists_eq_succ_of_ne_zero (Nat.ne_zero_of_lt hSteps)
    have hParent : t.reaches b steps parent := by
      cases hKnown : t.find? parent with
      | some p =>
        have hFewer := h.card_ancestors_lt hStep (by simp [hKnown])
        exact ih (by omega)
      | none =>
        -- No step leads on from a class that is not known.
        obtain rfl | ⟨_, ⟨c, hFound, -⟩, -⟩ := hRest.cases_head
        · exact reaches_self steps parent
        · simp [hKnown] at hFound
    obtain ⟨c, hFound, hMem⟩ := hStep
    rw [reaches, hFound, Bool.or_eq_true]
    exact .inr (List.any_eq_true.2 ⟨parent, hMem, hParent⟩)

theorem Acyclic.isSubclass_iff (h : t.Acyclic) :
    t.isSubclass a b ↔ b = objectClass ∨ Relation.ReflTransGen t.Extends a b := by
  rw [isSubclass, Bool.or_eq_true, beq_iff_eq]
  exact or_congr_right
    ⟨extends_of_reaches, fun hPath => h.reaches_of_extends hPath (t.card_ancestors_lt_height a)⟩

theorem Rooted.eq_of_extends (h : t.Rooted) (hPath : Relation.ReflTransGen t.Extends objectClass b) :
    b = objectClass := by
  obtain rfl | ⟨parent, ⟨c, hFound, hParent⟩, -⟩ := hPath.cases_head
  · rfl
  · simp [h c hFound] at hParent

theorem Acyclic.isSubclass_trans (h : t.Acyclic) (hRoot : t.Rooted) {c : String} (hab : t.isSubclass a b)
    (hbc : t.isSubclass b c) : t.isSubclass a c := by
  rw [h.isSubclass_iff] at *
  rcases hbc with rfl | hbc
  · exact .inl rfl
  · rcases hab with rfl | hab
    · exact .inl (hRoot.eq_of_extends hbc)
    · exact .inr (hab.trans hbc)

end ClassTable

theorem BaseType.widensTo_trans {p q r : Primitive} (hpq : (primitive p).widensTo (.primitive q))
    (hqr : (primitive q).widensTo (.primitive r)) : (primitive p).widensTo (.primitive r) := by
  cases p <;> cases q <;> first | cases hpq; done | (cases r <;> first | rfl | cases hqr)

namespace JavaType

variable {t : JavaType}

theorem isNull_iff : t.isNull ↔ t = .null := by
  obtain ⟨base, dims⟩ := t
  simp [isNull, null, and_comm]

theorem isObject_iff : t.isObject ↔ t = .object := by
  obtain ⟨base, dims⟩ := t
  cases base <;> cases dims <;> simp [isObject, isClass, className?, object, ofClass]

theorem not_isVoid (h : t.isReference) : t.isVoid = false := by
  obtain ⟨base, dims⟩ := t
  cases base <;> cases dims <;> simp_all [isReference, isArray, isVoid, primitive?]

theorem exists_prim (h : t.isReference = false) : ∃ p, t = .prim p := by
  obtain ⟨base, dims⟩ := t
  cases base <;> cases dims <;> simp_all [isReference, isArray, prim]

end JavaType

namespace Viewpoint

open JavaType

variable {v : Viewpoint} {a b c : JavaType}

/-- The ways in which a value of one type may be assigned to another. -/
inductive Assigns (v : Viewpoint) : JavaType → JavaType → Prop
  | same (t : JavaType) : Assigns v t t
  | widening {p q : Primitive} (h : (BaseType.primitive p).widensTo (.primitive q)) : Assigns v (.prim p) (.prim q)
  | null {t : JavaType} (h : t.isReference) : Assigns v .null t
  | object {t : JavaType} (h : t.isReference) : Assigns v t .object
  | subclass {sub super : String} (dims : Nat) (h : v.table.isSubclass sub super) :
      Assigns v ⟨.class sub, dims⟩ ⟨.class super, dims⟩

/-- One type can be assigned to another in one of these ways only. -/
theorem isAssignable_iff : v.isAssignable a b ↔ v.Assigns a b := by
  constructor
  · intro h
    unfold isAssignable at h
    split at h
    · next hSame => exact hSame ▸ .same a
    · split at h
      · cases h
      · split at h
        · next hSource hTarget =>
          obtain ⟨p, rfl⟩ := exists_prim hSource
          obtain ⟨q, rfl⟩ := exists_prim hTarget
          exact .widening h
        · next hSame _ hSource hTarget =>
          rw [Bool.or_eq_true, Bool.or_eq_true, isNull_iff, isObject_iff] at h
          rcases h with (rfl | rfl) | h
          · exact .null hTarget
          · exact .object hSource
          · rw [Bool.and_eq_true, beq_iff_eq] at h
            obtain ⟨hDims, hBases⟩ := h
            obtain ⟨base, dims⟩ := a
            obtain ⟨base', dims'⟩ := b
            obtain rfl : dims = dims' := hDims
            split at hBases
            · next sub super hSub hSuper =>
              obtain rfl : base = .class sub := hSub
              obtain rfl : base' = .class super := hSuper
              exact .subclass dims hBases
            · obtain rfl : base = base' := beq_iff_eq.1 hBases
              exact .same _
        · cases h
  · intro h
    cases h with
    | same => simp [isAssignable]
    | @widening p q h =>
      unfold isAssignable
      cases p <;> cases q <;> first | rfl | cases h
    | null h =>
      have hVoid : b.isVoid = false := not_isVoid h
      have hNull : JavaType.null.isVoid = false ∧ JavaType.null.isReference ∧ JavaType.null.isNull := by decide
      simp [isAssignable, hNull, hVoid, h]
    | object h =>
      have hVoid : a.isVoid = false := not_isVoid h
      have hObject : JavaType.object.isVoid = false ∧ JavaType.object.isReference ∧ JavaType.object.isObject := by
        decide
      simp [isAssignable, hObject, hVoid, h]
    | @subclass sub super dims h =>
      have hReference (name : String) : (⟨.class name, dims⟩ : JavaType).isReference := by simp [JavaType.isReference]
      simp [isAssignable, hReference, not_isVoid, h]

namespace Assigns

theorem isReference_eq (h : v.Assigns a b) : a.isReference = b.isReference := by
  cases h with
  | same => rfl
  | widening => rfl
  | null h => rw [h]; rfl
  | object h => rw [h]; rfl
  | subclass dims => simp [isReference]

/-- Nothing but `void` is assigned to or from `void`. -/
theorem void_iff (h : v.Assigns a b) : a = .void ↔ b = .void := by
  have hReference {t : JavaType} (h : t.isReference) : t ≠ .void := by
    rintro rfl
    cases h
  cases h with
  | same => rfl
  | @widening p q h => cases p <;> cases q <;> first | (cases h; done) | simp [void, prim]
  | null h => exact iff_of_false (hReference rfl) (hReference h)
  | object h => exact iff_of_false (hReference h) (hReference rfl)
  | subclass => exact iff_of_false nofun nofun

theorem dims_eq (h : v.Assigns a b) (ha : a.isArray) (hb : b.isArray) : a.dims = b.dims := by
  cases h with
  | same | subclass => rfl
  | widening | object => cases hb
  | null => cases ha

theorem trans (hAcyclic : v.table.Acyclic) (hRoot : v.table.Rooted) (hab : v.Assigns a b) (hbc : v.Assigns b c) :
    v.Assigns a c := by
  cases hab with
  | same => exact hbc
  | @widening p q hpq =>
    generalize hq : JavaType.prim q = middle at hbc
    cases hbc with
    | same => exact hq ▸ .widening hpq
    | @widening q' r hqr =>
      cases hq
      exact .widening (BaseType.widensTo_trans hpq hqr)
    | null | subclass => cases hq
    | object h =>
      subst hq
      cases h
  | null h => exact .null (hbc.isReference_eq ▸ h)
  | object h =>
    generalize hObject : JavaType.object = middle at hbc
    cases hbc with
    | same => exact hObject ▸ .object h
    | widening | null => cases hObject
    | object => exact .object h
    | @subclass sub super dims hSub =>
      cases hObject
      rcases hAcyclic.isSubclass_iff.1 hSub with rfl | hPath
      · exact .object h
      · rw [hRoot.eq_of_extends hPath]
        exact .object h
  | @subclass sub middle dims hSub =>
    generalize hMiddle : (⟨.class middle, dims⟩ : JavaType) = b at hbc
    cases hbc with
    | same => exact hMiddle ▸ .subclass dims hSub
    | widening | null => cases hMiddle
    | object => exact .object (by simp [isReference])
    | subclass dims' hSuper =>
      cases hMiddle
      exact .subclass dims (hAcyclic.isSubclass_trans hRoot hSub hSuper)

end Assigns

/-- Assignment follows the hierarchy. A class is a subclass of `Object` and of what can be reached from it over
known classes; what can be assigned is a preorder that keeps primitives apart from references, `void` apart from
all else and arrays of different dimensions apart from each other. -/
theorem assignability_preorder (v : Viewpoint) (hAcyclic : v.table.Acyclic) (hRoot : v.table.Rooted) :
    (∀ sub super, v.table.isSubclass sub super ↔
      super = objectClass ∨ Relation.ReflTransGen v.table.Extends sub super) ∧
    (∀ t, v.isAssignable t t) ∧
    (∀ a b c, v.isAssignable a b → v.isAssignable b c → v.isAssignable a c) ∧
    ∀ a b, v.isAssignable a b → a.isReference = b.isReference ∧ (a = .void ↔ b = .void) ∧
      (a.isArray → b.isArray → a.dims = b.dims) := by
  refine ⟨fun _ _ => hAcyclic.isSubclass_iff, fun t => isAssignable_iff.2 (.same t), ?_, ?_⟩
  · intro a b c hab hbc
    exact isAssignable_iff.2 ((isAssignable_iff.1 hab).trans hAcyclic hRoot (isAssignable_iff.1 hbc))
  · intro a b h
    have hAssigns := isAssignable_iff.1 h
    exact ⟨hAssigns.isReference_eq, hAssigns.void_iff, hAssigns.dims_eq⟩

/-- A class whose superclass implements an interface that is not known. -/
theorem assignability_preorder_unknown :
    let table : ClassTable := ⟨[{ ClassModel.ofName objectClass with superName := none },
      { ClassModel.ofName "Cell" with superName := some "Box" },
      { ClassModel.ofName "Box" with interfaces := ["Shape"] }]⟩
    let v : Viewpoint := ⟨table, "Cell", [], none⟩
    table.Acyclic ∧ table.Rooted ∧
    (table.isSubclass "Cell" "Shape" ↔ "Shape" = objectClass ∨ Relation.ReflTransGen table.Extends "Cell" "Shape") ∧
    table.isSubclass "Cell" "Shape" ∧ v.isAssignable ⟨.class "Cell", 1⟩ ⟨.class "Shape", 1⟩ := by
  intro table v
  have hAcyclic : table.Acyclic :=
    ClassTable.acyclic_of_rank (fun name => if name = "Cell" then 2 else if name = "Box" then 1 else 0)
      (by decide +kernel)
  have hRoot : table.Rooted := by
    intro c hFound
    cases hFound
    rfl
  obtain ⟨hSubclass, -, hTrans, -⟩ := assignability_preorder v hAcyclic hRoot
  refine ⟨hAcyclic, hRoot, hSubclass _ _, by decide +kernel, ?_⟩
  exact hTrans _ ⟨.class "Box", 1⟩ _ (by decide +kernel) (by decide +kernel)

end Viewpoint

end JavaFragment
