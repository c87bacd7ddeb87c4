import Mathlib.Data.List.TakeWhile
import JavaFragment.Proofs.AccessorSignatures
/-!
Class tables with well-formed members. Every method that is selected in such a table has a descriptor that can
be read, and so has every accessor of its members, which is why calls of them can always be emitted.
-/
namespace JavaFragment

/-- Whether a class name has none of the signs that stand for something else in descriptors. -/
def isClearName (name : String) : Bool := name.toList.all fun c => c != '(' && c != ')' && c != ';' && c != '['

/-- Whether a type can be written in a descriptor. -/
def JavaType.isClear (t : JavaType) : Bool :=
  match t.base with
  | .null => false
  | .primitive _ => true
  | .class name => isClearName name

/-- Whether the descriptor of a field is that of a type. -/
def FieldModel.isWellFormed (f : FieldModel) : Bool :=
  match JavaType.ofDescriptor? f.descriptor with
  | some t => t.isClear
  | none => false

/-- Whether the descriptor of a method is that of a signature. -/
def MethodModel.isWellFormed (m : MethodModel) : Bool :=
  match MethodType.ofDescriptor? m.descriptor with
  | some signature => signature.params.all JavaType.isClear && signature.result.isClear &&
    signature.descriptor == m.descriptor
  | none => false

def ClassModel.isWellFormed (c : ClassModel) : Bool :=
  isClearName c.name && c.fields.all FieldModel.isWellFormed && c.methods.all MethodModel.isWellFormed

def ClassTable.isWellFormed (t : ClassTable) : Bool := t.classes.all ClassModel.isWellFormed

theorem JavaType.isReadable_of_isClear {t : JavaType} (h : t.isClear) : t.isReadable := by
  obtain ⟨base, dims⟩ := t
  cases base with
  | null => cases h
  | primitive p => rfl
  | «class» name =>
    refine List.all_eq_true.2 fun c hc => ?_
    have hSigns := List.all_eq_true.1 h c hc
    simp only [Bool.and_eq_true] at hSigns ⊢
    exact ⟨hSigns.1.2, hSigns.1.1.2⟩

theorem FieldModel.type_of_isWellFormed {f : FieldModel} (h : f.isWellFormed) : ∃ t, f.type = .ok t ∧ t.isReadable := by
  unfold isWellFormed at h
  unfold type
  cases hType : JavaType.ofDescriptor? f.descriptor with
  | none => simp [hType] at h
  | some t =>
    rw [hType] at h
    exact ⟨t, rfl, JavaType.isReadable_of_isClear h⟩

theorem MethodModel.signature_of_isWellFormed {m : MethodModel} (h : m.isWellFormed) : ∃ signature : MethodType,
    MethodType.ofDescriptor? m.descriptor = some signature ∧ m.descriptor = signature.descriptor ∧
      (∀ t ∈ signature.params, t.isReadable) ∧ signature.result.isReadable := by
  unfold isWellFormed at h
  cases hType : MethodType.ofDescriptor? m.descriptor with
  | none => simp [hType] at h
  | some signature =>
    simp only [hType, Bool.and_eq_true, List.all_eq_true, beq_iff_eq] at h
    exact ⟨signature, rfl, h.2.symm, fun t ht => JavaType.isReadable_of_isClear (h.1.1 t ht),
      JavaType.isReadable_of_isClear h.1.2⟩

namespace ClassTable

variable {table : ClassTable} {c : ClassModel}

theorem Declares.isWellFormed (h : table.Declares c) (hTable : table.isWellFormed) : c.isWellFormed :=
  List.all_eq_true.1 hTable c (List.mem_of_find?_eq_some h)

theorem Declares.isClearName (h : table.Declares c) (hTable : table.isWellFormed) : isClearName c.name := by
  have hClass := h.isWellFormed hTable
  simp only [ClassModel.isWellFormed, Bool.and_eq_true] at hClass
  exact hClass.1.1

theorem Declares.field (h : table.Declares c) (hTable : table.isWellFormed) {f : FieldModel} (hf : f ∈ c.fields) :
    f.isWellFormed := by
  have hClass := h.isWellFormed hTable
  simp only [ClassModel.isWellFormed, Bool.and_eq_true] at hClass
  exact List.all_eq_true.1 hClass.1.2 f hf

theorem Declares.method (h : table.Declares c) (hTable : table.isWellFormed) {m : MethodModel}
    (hm : m ∈ c.methods) : m.isWellFormed := by
  have hClass := h.isWellFormed hTable
  simp only [ClassModel.isWellFormed, Bool.and_eq_true] at hClass
  exact List.all_eq_true.1 hClass.2 m hm

end ClassTable

/-! Accessors. -/

/-- Whether a call with a descriptor can be emitted. -/
def isCallable (descriptor : String) : Prop := (MethodType.ofDescriptor? descriptor).isSome

namespace Access

variable {a : Access}

/-- Whether the member that is reached is well formed. -/
def isWellFormed : Access → Bool
  | .get f | .set f => f.isWellFormed
  | .call m | .create m => m.isWellFormed

theorem spelled_of_isWellFormed (h : a.isWellFormed) : a.Spelled := by
  cases a with
  | get f | set f => trivial
  | call m | create m =>
    intro own hOwn
    obtain ⟨signature, hType, hDescriptor, hParams, -⟩ := MethodModel.signature_of_isWellFormed h
    obtain rfl : own = signature := Option.some.inj (hOwn.symm.trans hType)
    exact ⟨hDescriptor, fun t ht => JavaType.close_not_mem_descriptor (hParams t ht)⟩

theorem isReadable_receiver {owner : String} (h : isClearName owner) (isStatic : Bool) :
    ∀ t ∈ receiver owner isStatic, t.isReadable := by
  intro t ht
  cases isStatic with
  | true => cases ht
  | false =>
    obtain rfl := List.mem_singleton.1 ht
    exact JavaType.isReadable_of_isClear (t := .ofClass owner) h

/-- The descriptor of an accessor of a well-formed member can be read. -/
theorem isCallable_descriptor {owner : String} (hOwner : isClearName owner) (h : a.isWellFormed) :
    isCallable (a.descriptor owner) := by
  have hReceiver := isReadable_receiver hOwner
  have hRead {signature : MethodType} (hType : a.HasType owner signature)
      (hParams : ∀ t ∈ signature.params, t.isReadable) (hResult : signature.result.isReadable) :
      isCallable (a.descriptor owner) := by
    rw [isCallable, hType.text (spelled_of_isWellFormed h), MethodType.ofDescriptor?_of_isReadable hParams
      (JavaType.isReadable_iff.1 hResult).1]
    rfl
  cases a with
  | get f =>
    obtain ⟨t, hType, hReadable⟩ := FieldModel.type_of_isWellFormed h
    exact hRead (.get hType) (hReceiver _) hReadable
  | set f =>
    obtain ⟨t, hType, hReadable⟩ := FieldModel.type_of_isWellFormed h
    exact hRead (.set hType) (List.forall_mem_append.2 ⟨hReceiver _, List.forall_mem_singleton.2 hReadable⟩) rfl
  | call m =>
    obtain ⟨signature, hType, -, hParams, hResult⟩ := MethodModel.signature_of_isWellFormed h
    exact hRead (.call hType) (List.forall_mem_append.2 ⟨hReceiver _, hParams⟩) hResult
  | create m =>
    obtain ⟨signature, hType, -, hParams, hResult⟩ := MethodModel.signature_of_isWellFormed h
    refine hRead (.create hType) (List.forall_mem_append.2 ⟨hParams, List.forall_mem_singleton.2 ?_⟩) hResult
    decide +kernel

/-- Accessors of well-formed members are not refused. -/
theorem exists_request (h : a.isWellFormed) (owner : String) (t : AccessorTable) :
    ∃ m own, a.request owner t = .ok (m, own) := by
  rcases a.request_eq owner t with hAnswer | ⟨m, e, rfl, hOpen, -⟩
  · exact ⟨_, _, hAnswer⟩
  · obtain ⟨signature, -, hDescriptor, -⟩ := MethodModel.signature_of_isWellFormed h
    simp [hDescriptor, MethodType.toList_descriptor] at hOpen

end Access

/-- Every accessor of a class can be called. -/
def AccessorTable.Callable (t : AccessorTable) : Prop := ∀ m ∈ t.methods, isCallable m.descriptor

theorem AccessorTable.Callable.request {t t' : AccessorTable} {a : Access} {owner : String} {m : SyntheticMethod}
    (ht : t.Callable) (hOwner : isClearName owner) (ha : a.isWellFormed) (h : a.request owner t = .ok (m, t')) :
    isCallable m.descriptor ∧ t'.Callable := by
  rcases Access.request_ok h with ⟨hKnown, rfl⟩ | ⟨-, rfl, rfl⟩
  · obtain ⟨before, after, hSplit, -⟩ := List.lookup_eq_some_iff.1 hKnown
    exact ⟨ht m (by simp [methods, hSplit]), ht⟩
  · have hNew : isCallable (a.make owner t).descriptor := by
      rw [Access.make_descriptor]
      exact Access.isCallable_descriptor hOwner ha
    refine ⟨hNew, fun other hOther => ?_⟩
    rw [methods, List.map_append, List.mem_append] at hOther
    rcases hOther with hOld | hLast
    · exact ht other hOld
    · obtain rfl : other = a.make owner t := by simpa using hLast
      exact hNew

/-! Methods that are selected. -/

/-- A method that calls can name: it can be called, and it is declared by a class of the table or belongs to the
class itself. -/
structure SelectedMethod.Reachable (v : Viewpoint) (m : SelectedMethod) : Prop where
  callable : isCallable m.method.descriptor
  declared : m.owner.name = v.thisClass ∨ v.table.Declares m.owner ∧ m.method ∈ m.owner.methods

theorem SelectedMethod.mem_of_nearest {methods : List SelectedMethod} {m : SelectedMethod}
    (h : nearest methods = some m) : m ∈ methods := by
  induction methods with
  | nil => cases h
  | cons first rest ih =>
    rw [nearest] at h
    cases hRest : nearest rest with
    | none =>
      rw [hRest] at h
      cases h
      exact List.mem_cons_self
    | some other =>
      rw [hRest] at h
      dsimp only at h
      split at h
      · cases h
        exact List.mem_cons_of_mem _ (ih hRest)
      · cases h
        exact List.mem_cons_self

namespace Viewpoint

variable {v : Viewpoint}

theorem getClass_ok {name : String} {c : ClassModel} (h : v.getClass name = .ok c) : v.table.find? name = some c := by
  unfold getClass at h
  split at h
  · next found hFound =>
    cases h
    exact hFound
  · cases h

/-- A method that some look-up gives. -/
def Selects (v : Viewpoint) (m : SelectedMethod) : Prop := ∃ owner name args, v.lookupMethod owner name args = .ok m

variable {m : SelectedMethod}

/-- A method that is selected is that in progress or declared by a class of the table. -/
theorem Selects.found (h : v.Selects m) : MethodType.ofDescriptor? m.method.descriptor = some m.signature ∧
    (m.owner.name = v.thisClass ∧ v.inProgress = some m.method ∨
      v.table.Declares m.owner ∧ m.method ∈ m.owner.methods) := by
  obtain ⟨owner, name, args, h⟩ := h
  unfold lookupMethod at h
  cases hClass : v.getClass owner with
  | error e =>
    rw [hClass] at h
    cases h
  | ok c =>
    rw [hClass] at h
    simp only [bind, Except.bind] at h
    split at h
    · next found hNearest =>
      cases h
      obtain ⟨d, hMem, hApplicable⟩ := List.mem_filterMap.1 (SelectedMethod.mem_of_nearest hNearest)
      obtain ⟨signature, hSignature, hRest⟩ := Option.bind_eq_some_iff.1 hApplicable
      obtain ⟨n, -, hSame⟩ := Option.bind_eq_some_iff.1 hRest
      cases hSame
      refine ⟨hSignature, ?_⟩
      rcases List.mem_append.1 hMem with hCurrent | hMethods
      · obtain ⟨own, hOwn, rfl⟩ := List.mem_map.1 hCurrent
        have hOwn := (List.mem_filter.1 hOwn).1
        split at hOwn
        · next hThis => exact .inl ⟨hThis, Option.mem_toList.1 hOwn⟩
        · cases hOwn
      · have hDeclares := (ClassTable.declares_of_find? (getClass_ok hClass)).1
        obtain ⟨hOwner, hMember, -⟩ := ClassTable.declares_of_methodsOf hDeclares hMethods
        exact .inr ⟨hOwner, hMember⟩
    · cases h

theorem Selects.reachable (h : v.Selects m) : m.Reachable v :=
  ⟨by rw [isCallable, h.found.1]; rfl, h.found.2.imp_left And.left⟩

end Viewpoint

/-- The class of a method that needs an accessor declares it. -/
theorem SelectedMethod.Reachable.declares {v : Viewpoint} {m : SelectedMethod} (h : m.Reachable v)
    (hNeeds : v.needsAccessor m.owner.name m.method.isPrivate = true) :
    v.table.Declares m.owner ∧ m.method ∈ m.owner.methods := by
  refine h.declared.resolve_left fun hThis => ?_
  simp [Viewpoint.needsAccessor, hThis] at hNeeds

end JavaFragment
