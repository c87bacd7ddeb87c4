import JavaFragment.Proofs.Descriptors
import JavaFragment.Proofs.ConstantTypes
import JavaFragment.Proofs.Emission
/-!
The members that classes declare, and the signatures of their accessors. An accessor that is asked for is
found again under the same text, or made with the descriptor of its signature.
-/
namespace JavaFragment

theorem FieldModel.ofDescriptor?_of_type {f : FieldModel} {t : JavaType} (h : f.type = .ok t) :
    JavaType.ofDescriptor? f.descriptor = some t := by
  unfold type at h
  split at h
  · next found hFound =>
    cases h
    exact hFound
  · cases h

theorem FieldModel.descriptor_of_type {f : FieldModel} {t : JavaType} (h : f.type = .ok t) :
    f.descriptor = t.descriptor := (JavaType.ofDescriptor?_eq_some_iff.1 (ofDescriptor?_of_type h)).2

namespace ClassTable

variable {table : ClassTable} {name : String} {c : ClassModel}

/-- Whether a class is the one that is found by its name. -/
def Declares (t : ClassTable) (c : ClassModel) : Prop := t.find? c.name = some c

theorem declares_of_find? (h : table.find? name = some c) : table.Declares c ∧ c.name = name := by
  have hName : c.name = name := by simpa using List.find?_some h
  exact ⟨by rw [Declares, hName, h], hName⟩

/-- A field that is found is the first of its name in its class. -/
theorem declares_of_findField {owner : String} {found : Declared FieldModel}
    (h : table.findField owner name = some found) :
    table.Declares found.owner ∧ found.owner.field? found.member.name = some found.member := by
  unfold findField at h
  generalize table.height = steps at h
  induction steps generalizing owner with
  | zero => cases h
  | succ steps ih =>
    obtain ⟨c, hClass, h⟩ := Option.bind_eq_some_iff.1 h
    split at h
    · next f hField =>
      cases h
      have hName : f.name = name := by simpa using List.find?_some hField
      exact ⟨(declares_of_find? hClass).1, by rw [hName, hField]⟩
    · obtain ⟨parent, -, hParent⟩ := List.exists_of_findSome?_eq_some h
      exact ih hParent

theorem declares_of_methodsWithin {steps : Nat} {found : Declared MethodModel}
    (hc : table.Declares c) (h : found ∈ table.methodsWithin name steps c) :
    table.Declares found.owner ∧ found.member ∈ found.owner.methods ∧ found.member.name = name := by
  induction steps generalizing c with
  | zero => cases h
  | succ steps ih =>
    rw [methodsWithin, List.mem_append] at h
    rcases h with hOwn | hInherited
    · obtain ⟨m, hm, rfl⟩ := List.mem_map.1 hOwn
      exact ⟨hc, (List.mem_filter.1 hm).1, by simpa using (List.mem_filter.1 hm).2⟩
    · split at hInherited
      · cases hInherited
      · obtain ⟨parent, -, hParent⟩ := List.mem_flatMap.1 hInherited
        split at hParent
        · next p hFound => exact ih (declares_of_find? hFound).1 hParent
        · cases hParent

theorem declares_of_methodsOf {found : Declared MethodModel} (hc : table.Declares c)
    (h : found ∈ table.methodsOf c name) :
    table.Declares found.owner ∧ found.member ∈ found.owner.methods ∧ found.member.name = name := by
  obtain ⟨d, hd, hFound⟩ := List.mem_flatMap.1 h
  refine declares_of_methodsWithin ?_ hFound
  rcases List.mem_cons.1 hd with rfl | hObject
  · exact hc
  · split at hObject
    · exact (declares_of_find? (Option.mem_toList.1 hObject)).1
    · cases hObject

end ClassTable

/-! Accessors. -/

/-- What an accessor of a class does. -/
inductive Access where
  | get (f : FieldModel)
  | set (f : FieldModel)
  | call (m : MethodModel)
  | create (m : MethodModel)

namespace Access

/-- The text by which an accessor is asked for. -/
def key : Access → String
  | .get f => "get:" ++ f.name ++ ":" ++ f.descriptor
  | .set f => "set:" ++ f.name ++ ":" ++ f.descriptor
  | .call m => "call:" ++ m.name ++ ":" ++ m.descriptor
  | .create m => "new:" ++ m.descriptor

/-- The descriptor of an accessor. -/
def descriptor (owner : String) : Access → String
  | .get f => "(" ++ receiverDescriptor owner f.isStatic ++ ")" ++ f.descriptor
  | .set f => "(" ++ receiverDescriptor owner f.isStatic ++ f.descriptor ++ ")V"
  | .call m => "(" ++ receiverDescriptor owner m.isStatic ++ String.ofList (m.descriptor.toList.drop 1)
  | .create m =>
    String.ofList (m.descriptor.toList.takeWhile (· != ')')) ++ "L" ++ constructorMarker ++ ";" ++
      String.ofList (m.descriptor.toList.dropWhile (· != ')'))

/-- The receiver that an accessor of an instance member is given. -/
def receiver (owner : String) (isStatic : Bool) : List JavaType :=
  if isStatic then [] else [.ofClass owner]

/-- The signature of an accessor, given that of its member. -/
inductive HasType (owner : String) : Access → MethodType → Prop
  | get {f : FieldModel} {t : JavaType} (h : f.type = .ok t) : HasType owner (.get f) ⟨receiver owner f.isStatic, t⟩
  | set {f : FieldModel} {t : JavaType} (h : f.type = .ok t) :
      HasType owner (.set f) ⟨receiver owner f.isStatic ++ [t], .void⟩
  | call {m : MethodModel} {signature : MethodType}
      (h : MethodType.ofDescriptor? m.descriptor = some signature) :
      HasType owner (.call m) ⟨receiver owner m.isStatic ++ signature.params, signature.result⟩
  | create {m : MethodModel} {signature : MethodType}
      (h : MethodType.ofDescriptor? m.descriptor = some signature) :
      HasType owner (.create m) ⟨signature.params ++ [.ofClass constructorMarker], signature.result⟩

theorem toList_receiver (owner : String) (isStatic : Bool) :
    MethodType.spelling (receiver owner isStatic) = (receiverDescriptor owner isStatic).toList := by
  cases isStatic with
  | true => rfl
  | false => simp [receiver, receiverDescriptor, JavaType.ofClass, JavaType.toList_descriptor_class]

/-- Whether the descriptor of a method is that of its signature, with the closing parenthesis at its end only. -/
def Spelled (a : Access) : Prop :=
  match a with
  | .get _ | .set _ => True
  | .call m | .create m => ∀ signature, MethodType.ofDescriptor? m.descriptor = some signature →
      m.descriptor = signature.descriptor ∧ ∀ t ∈ signature.params, ')' ∉ t.descriptor.toList

/-- The descriptor of an accessor is that of its signature. -/
theorem HasType.text {a : Access} {owner : String} {signature : MethodType} (h : a.HasType owner signature)
    (ha : a.Spelled) : a.descriptor owner = signature.descriptor := by
  rw [← String.toList_inj, MethodType.toList_descriptor]
  cases h with
  | @get f t hType =>
    have hDescriptor : f.descriptor = t.descriptor := FieldModel.descriptor_of_type hType
    simp [descriptor, toList_receiver, hDescriptor]
  | @set f t hType =>
    have hDescriptor : f.descriptor = t.descriptor := FieldModel.descriptor_of_type hType
    have hLetter : JavaType.void.descriptor.toList = ['V'] := by decide +kernel
    simp [descriptor, toList_receiver, hDescriptor, hLetter]
  | @call m own hType => simp [descriptor, toList_receiver, (ha own hType).1, MethodType.toList_descriptor]
  | @create m own hType =>
    obtain ⟨hDescriptor, hParams⟩ := ha own hType
    have hClear : ∀ x ∈ '(' :: MethodType.spelling own.params, (x != ')') = true := by
      intro x hx
      rcases List.mem_cons.1 hx with rfl | hMem
      · rfl
      · obtain ⟨t, ht, hMem⟩ := List.mem_flatMap.1 hMem
        simpa using fun hSame : x = ')' => hParams t ht (hSame ▸ hMem)
    have hChars : m.descriptor.toList = ('(' :: MethodType.spelling own.params) ++
        ')' :: own.result.descriptor.toList := by
      rw [hDescriptor, MethodType.toList_descriptor, List.cons_append]
    rw [descriptor, hChars, List.takeWhile_append_of_pos hClear, List.dropWhile_append_of_pos hClear]
    simp [JavaType.toList_descriptor_class, JavaType.ofClass]

/-- Asks a class for an accessor. -/
def request (owner : String) (t : AccessorTable) : Access → Except CompileError (SyntheticMethod × AccessorTable)
  | .get f => .ok (f.getter owner t)
  | .set f => .ok (f.setter owner t)
  | .call m => .ok (m.accessor owner t)
  | .create m => m.shadowConstructor t

/-- What an accessor has to do. -/
def body : Access → AccessorBody
  | .get f => .getField f.name f.descriptor f.isStatic
  | .set f => .setField f.name f.descriptor f.isStatic
  | .call m => .forward m.name m.descriptor m.isStatic
  | .create m => .shadowConstructor m.descriptor

/-- The accessor that is made on a request. All but shadow constructors are static and get the next name. -/
def make (owner : String) (t : AccessorTable) (a : Access) : SyntheticMethod :=
  match a with
  | .create _ => ⟨constructorName, a.descriptor owner, .syntheticFlag, a.body⟩
  | .get _ | .set _ | .call _ => t.staticMethod (a.descriptor owner) a.body

theorem make_descriptor (a : Access) (owner : String) (t : AccessorTable) :
    (a.make owner t).descriptor = a.descriptor owner := by
  cases a <;> rfl

theorem make_body (a : Access) (owner : String) (t : AccessorTable) : (a.make owner t).body = a.body := by
  cases a <;> rfl

/-- A request is answered from the table, to which what is new is added. Only what has no closing parenthesis is refused
as a constructor. -/
theorem request_eq (a : Access) (owner : String) (t : AccessorTable) :
    a.request owner t = .ok (t.request a.key (a.make owner t)) ∨
      ∃ m e, a = .create m ∧ ')' ∉ m.descriptor.toList ∧ a.request owner t = .error e := by
  cases a with
  | get | set | call => exact .inl rfl
  | create m =>
    unfold request MethodModel.shadowConstructor
    dsimp only
    split
    · next hNone =>
      refine .inr ⟨m, _, rfl, fun hClose => ?_, rfl⟩
      have hAll := List.dropWhile_eq_nil_iff.1 hNone ')' hClose
      simp at hAll
    · exact .inl rfl

/-- What is asked for is found, or made. -/
theorem request_ok {a : Access} {owner : String} {t t' : AccessorTable} {m : SyntheticMethod}
    (h : a.request owner t = .ok (m, t')) :
    t.entries.lookup a.key = some m ∧ t' = t ∨
      t.entries.lookup a.key = none ∧ m = a.make owner t ∧ t' = ⟨t.entries ++ [(a.key, m)]⟩ := by
  rcases a.request_eq owner t with hAnswer | ⟨_, e, -, -, hRefused⟩
  · rw [hAnswer, AccessorTable.request] at h
    split at h
    · next hKnown =>
      cases h
      exact .inl ⟨hKnown, rfl⟩
    · next hNew =>
      cases h
      exact .inr ⟨hNew, rfl, rfl⟩
  · rw [hRefused] at h
    cases h

end Access
end JavaFragment
