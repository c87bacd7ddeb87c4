import JavaFragment.Proofs.Hierarchy
import JavaFragment.Resolve.Overload
import Mathlib.Algebra.GroupWithZero.Nat
/-!
Which method a call selects. The methods of a name are considered in the order of a walk over the hierarchy, and the
first of those that are nearest to the arguments is selected.
-/
namespace JavaFragment

theorem ClassModel.methodParents_subset (c : ClassModel) : c.methodParents ⊆ c.parents := by
  intro parent hParent
  rw [methodParents, List.mem_append] at hParent
  refine List.mem_append.2 (hParent.imp_right fun hInterface => ?_)
  split at hInterface
  · exact hInterface
  · cases hInterface

namespace ClassTable

variable {t : ClassTable} {name : String}

/-- The methods of a name that a walk from some classes meets, class by class. After the methods of a class it goes on
to its superclass and then, for an abstract class or an interface, to its interfaces. For constructors it goes no
further. -/
inductive Walk (t : ClassTable) (name : String) : List String → List (Declared MethodModel) → Prop
  | done : Walk t name [] []
  | unknown {c : String} {rest : List String} {found : List (Declared MethodModel)} (hUnknown : t.find? c = none)
      (hRest : Walk t name rest found) : Walk t name (c :: rest) found
  | known {c : ClassModel} {rest : List String} {inherited found : List (Declared MethodModel)} {own : String}
      (hKnown : t.find? own = some c)
      (hInherited : Walk t name (if name = constructorName then [] else c.methodParents) inherited)
      (hRest : Walk t name rest found) :
      Walk t name (own :: rest) ((c.methodsNamed name).map (Declared.mk c) ++ inherited ++ found)

theorem Walk.unique {classes : List String} {found other : List (Declared MethodModel)}
    (h : t.Walk name classes found) (h' : t.Walk name classes other) : found = other := by
  induction h generalizing other with
  | done =>
    cases h'
    rfl
  | unknown hUnknown _ ih =>
    cases h' with
    | unknown _ hRest => exact ih hRest
    | known hKnown => simp [hUnknown] at hKnown
  | known hKnown _ _ ihInherited ihRest =>
    cases h' with
    | unknown hUnknown => simp [hKnown] at hUnknown
    | known hKnown' hInherited hRest =>
      cases hKnown.symm.trans hKnown'
      rw [ihInherited hInherited, ihRest hRest]

/-- The methods that are found from a class with a given bound. -/
def methodsFrom (t : ClassTable) (name : String) (steps : Nat) (c : String) : List (Declared MethodModel) :=
  match t.find? c with
  | some c => t.methodsWithin name steps c
  | none => []

theorem methodsFrom_succ (steps : Nat) {own : String} {c : ClassModel} (hKnown : t.find? own = some c) :
    t.methodsFrom name (steps + 1) own = (c.methodsNamed name).map (Declared.mk c) ++
      (if name = constructorName then [] else c.methodParents).flatMap (t.methodsFrom name steps) := by
  have hOwn : t.methodsFrom name (steps + 1) own = t.methodsWithin name (steps + 1) c := by simp [methodsFrom, hKnown]
  rw [hOwn, methodsWithin]
  by_cases hConstructor : name = constructorName
  · simp [hConstructor]
  · rw [if_neg hConstructor, if_neg hConstructor]
    rfl

/-- A bound above the number of ancestors does not cut a walk short. -/
theorem Acyclic.walk (h : t.Acyclic) {steps : Nat} {classes : List String}
    (hSteps : ∀ c ∈ classes, (t.find? c).isSome → (t.ancestors c).card < steps) :
    t.Walk name classes (classes.flatMap (t.methodsFrom name steps)) := by
  induction steps generalizing classes with
  | zero =>
    induction classes with
    | nil => exact .done
    | cons c rest ih =>
      cases hKnown : t.find? c with
      | some found =>
        have := hSteps c (by simp) (by simp [hKnown])
        omega
      | none =>
        rw [List.flatMap_cons, methodsFrom, hKnown]
        exact .unknown hKnown (ih fun c hc => hSteps c (by simp [hc]))
  | succ steps ih =>
    induction classes with
    | nil => exact .done
    | cons own rest ihRest =>
      have hRest := ihRest fun c hc => hSteps c (by simp [hc])
      cases hKnown : t.find? own with
      | none =>
        rw [List.flatMap_cons, methodsFrom, hKnown]
        exact .unknown hKnown hRest
      | some c =>
        have hInherited : t.Walk name (if name = constructorName then [] else c.methodParents)
            ((if name = constructorName then [] else c.methodParents).flatMap (t.methodsFrom name steps)) := by
          refine ih fun parent hParent hFound => ?_
          split at hParent
          · cases hParent
          · have hStep : t.Extends own parent := ⟨c, hKnown, c.methodParents_subset hParent⟩
            have hFewer := h.card_ancestors_lt hStep hFound
            have hBound := hSteps own (by simp) (by simp [hKnown])
            omega
        rw [List.flatMap_cons, methodsFrom_succ steps hKnown]
        exact .known hKnown hInherited hRest

/-- The methods that a class is found to have are those of a walk from it, which for an interface goes on to
`Object`. -/
theorem Acyclic.walk_methodsOf (h : t.Acyclic) {own : String} {c : ClassModel} (hKnown : t.find? own = some c) :
    t.Walk name (own :: if c.isInterface then [objectClass] else []) (t.methodsOf c name) := by
  have hWalk : t.Walk name (own :: if c.isInterface then [objectClass] else [])
      ((own :: if c.isInterface then [objectClass] else []).flatMap (t.methodsFrom name t.height)) :=
    h.walk fun c _ _ => t.card_ancestors_lt_height c
  convert hWalk using 1
  rw [methodsOf, List.flatMap_cons, List.flatMap_cons]
  congr 1
  · simp [methodsFrom, hKnown]
  · cases c.isInterface with
    | false => rfl
    | true => cases hObject : t.find? objectClass <;> simp [methodsFrom, hObject]

end ClassTable

/-! Distances. -/

theorem JavaType.widens_of_isIntFamily {t : JavaType} (h : t.isIntFamily) :
    ∃ p, t = .prim p ∧ (BaseType.primitive p).widensTo (.primitive .int) := by
  obtain ⟨base, dims⟩ := t
  cases base <;> cases dims <;> try cases h
  next p => exact ⟨p, rfl, by cases p <;> first | rfl | cases h⟩

namespace Viewpoint

open JavaType

variable {v : Viewpoint} {d : Nat} {args : List JavaType}

/-- What passes as an argument can be assigned, and only what has the type of the parameter has no distance. -/
theorem argumentDistance_some {param arg : JavaType} (h : v.argumentDistance param arg = some d) :
    v.isAssignable arg param ∧ (d = 0 ↔ param = arg) := by
  rw [isAssignable_iff]
  unfold argumentDistance at h
  split at h
  · next hSame =>
    cases h
    exact ⟨hSame ▸ .same param, by simp [hSame]⟩
  · next hOther =>
    suffices v.Assigns arg param ∧ d = 1 from ⟨this.1, by simp [this.2, hOther]⟩
    split at h
    · next hNull =>
      rw [isNull_iff.1 hNull]
      split at h
      · next hReference => exact ⟨.null hReference, by simpa using h.symm⟩
      · cases h
    · split at h
      · next hReferences =>
        split at h
        · next hObject =>
          rw [isObject_iff.1 hObject]
          exact ⟨.object (by simp_all), by simpa using h.symm⟩
        · split at h
          · cases h
          · next hDims =>
            obtain ⟨base, dims⟩ := param
            obtain ⟨base', dims'⟩ := arg
            obtain rfl : dims = dims' := by simpa using hDims
            split at h
            · next sub super hSub hSuper =>
              obtain rfl : base' = .class sub := hSub
              obtain rfl : base = .class super := hSuper
              split at h
              · next hSubclass => exact ⟨.subclass dims hSubclass, by simpa using h.symm⟩
              · cases h
            · cases h
      · split at h
        · next hInt =>
          obtain ⟨rfl, hFamily⟩ : param = .int ∧ arg.isIntFamily := by simpa using hInt
          refine ⟨?_, by simpa using h.symm⟩
          obtain ⟨p, rfl, hWidens⟩ := widens_of_isIntFamily hFamily
          exact .widening hWidens
        · cases h

theorem signatureDistance_eq_some_iff {params : List JavaType} :
    v.signatureDistance params args = some d ↔ params.length = args.length ∧
      ∃ ds : List Nat, List.zipWith v.argumentDistance params args = ds.map some ∧ d = ds.sum := by
  induction params generalizing args d with
  | nil =>
    cases args with
    | nil => simpa [signatureDistance] using eq_comm
    | cons arg args => simp [signatureDistance]
  | cons param params ih =>
    cases args with
    | nil => simp [signatureDistance]
    | cons arg args =>
      simp only [signatureDistance, Option.bind_eq_bind, Option.bind_eq_some_iff, ih, List.length_cons,
        Nat.add_right_cancel_iff, List.zipWith_cons_cons]
      constructor
      · rintro ⟨first, hFirst, rest, ⟨hLength, ds, hRest, rfl⟩, hSum⟩
        exact ⟨hLength, first :: ds, by simp [hFirst, hRest], by simpa using hSum.symm⟩
      · rintro ⟨hLength, ds, hAll, rfl⟩
        cases ds with
        | nil => simp at hAll
        | cons first ds =>
          rw [List.map_cons, List.cons.injEq] at hAll
          exact ⟨first, hAll.1, ds.sum, ⟨hLength, ds, hAll.2, rfl⟩, by simp⟩

theorem signatureDistance_some {params : List JavaType} (h : v.signatureDistance params args = some d) :
    (d = 0 ↔ params = args) ∧ List.Forall₂ (fun arg param => v.isAssignable arg param) args params := by
  induction params generalizing args d with
  | nil =>
    cases args with
    | nil =>
      cases h
      exact ⟨by simp, .nil⟩
    | cons arg args => cases h
  | cons param params ih =>
    cases args with
    | nil => cases h
    | cons arg args =>
      obtain ⟨first, hFirst, h⟩ := Option.bind_eq_some_iff.1 h
      obtain ⟨rest, hRest, h⟩ := Option.bind_eq_some_iff.1 h
      cases h
      obtain ⟨hAssign, hZero⟩ := argumentDistance_some hFirst
      obtain ⟨hZeros, hAssigns⟩ := ih hRest
      exact ⟨by rw [Nat.add_eq_zero_iff, hZero, hZeros, List.cons.injEq], .cons hAssign hAssigns⟩

/-- The distance of a method from arguments: its descriptor is well formed, it has as many parameters as there are
arguments, and the distances of the arguments from their parameters add up. -/
def HasDistance (v : Viewpoint) (args : List JavaType) (m : Declared MethodModel) (distance : Nat) : Prop :=
  ∃ signature, MethodType.ofDescriptor? m.member.descriptor = some signature ∧
    signature.params.length = args.length ∧
    ∃ ds : List Nat, List.zipWith v.argumentDistance signature.params args = ds.map some ∧ distance = ds.sum

theorem applicable_eq_some_iff {m : Declared MethodModel} {s : SelectedMethod} :
    v.applicable args m = some s ↔ MethodType.ofDescriptor? m.member.descriptor = some s.signature ∧
      v.signatureDistance s.signature.params args = some s.distance ∧ s.owner = m.owner ∧ s.method = m.member := by
  obtain ⟨owner, method, signature, distance⟩ := s
  simp only [applicable, Option.bind_eq_bind, Option.bind_eq_some_iff]
  constructor
  · rintro ⟨signature, hSignature, d, hDistance, hSame⟩
    cases hSame
    exact ⟨hSignature, hDistance, rfl, rfl⟩
  · rintro ⟨hSignature, hDistance, rfl, rfl⟩
    exact ⟨signature, hSignature, distance, hDistance, rfl⟩

theorem hasDistance_iff {m : Declared MethodModel} :
    v.HasDistance args m d ↔ ∃ s, v.applicable args m = some s ∧ s.distance = d := by
  simp only [HasDistance, ← signatureDistance_eq_some_iff]
  constructor
  · rintro ⟨signature, hSignature, hDistance⟩
    exact ⟨⟨m.owner, m.member, signature, d⟩, applicable_eq_some_iff.2 ⟨hSignature, hDistance, rfl, rfl⟩, rfl⟩
  · rintro ⟨s, hApplicable, rfl⟩
    obtain ⟨hSignature, hDistance, -, -⟩ := applicable_eq_some_iff.1 hApplicable
    exact ⟨s.signature, hSignature, hDistance⟩

end Viewpoint

/-! The choice. -/

namespace SelectedMethod

theorem nearest_eq_none_iff {methods : List SelectedMethod} : nearest methods = none ↔ methods = [] := by
  cases methods with
  | nil => simp [nearest]
  | cons m rest =>
    rw [nearest]
    split
    · split <;> simp
    · simp

/-- What is chosen is nearer than all before it, and nothing after it is nearer. -/
theorem nearest_eq_some {methods : List SelectedMethod} {m : SelectedMethod} (h : nearest methods = some m) :
    ∃ earlier later, methods = earlier ++ m :: later ∧ (∀ other ∈ earlier, m.distance < other.distance) ∧
      ∀ other ∈ later, m.distance ≤ other.distance := by
  induction methods generalizing m with
  | nil => cases h
  | cons first rest ih =>
    rw [nearest] at h
    split at h
    · next best hBest =>
      obtain ⟨earlier, later, rfl, hEarlier, hLater⟩ := ih hBest
      split at h
      · next hNearer =>
        cases h
        exact ⟨first :: earlier, later, rfl, by simpa [hNearer] using hEarlier, hLater⟩
      · next hFirst =>
        cases h
        refine ⟨[], _, rfl, by simp, ?_⟩
        intro other hOther
        have hLe : first.distance ≤ best.distance := Nat.le_of_not_lt hFirst
        rcases List.mem_append.1 hOther with hBefore | hAfter
        · exact hLe.trans (Nat.le_of_lt (hEarlier other hBefore))
        · rcases List.mem_cons.1 hAfter with rfl | hAfter
          · exact hLe
          · exact hLe.trans (hLater other hAfter)
    · next hNone =>
      cases h
      exact ⟨[], [], by rw [nearest_eq_none_iff.1 hNone]; rfl, by simp, by simp⟩

end SelectedMethod

namespace Viewpoint

variable {v : Viewpoint}

/-- The methods that a call of a name on a class may mean, in the order in which they are considered. The method that is
being compiled comes first if it belongs to the class. The walk from an interface goes on to `Object`. -/
inductive Considers (v : Viewpoint) (c : ClassModel) (name : String) : List (Declared MethodModel) → Prop
  | current {m : MethodModel} {found : List (Declared MethodModel)} (hCurrent : v.inProgress = some m)
      (hClass : c.name = v.thisClass) (hName : m.name = name)
      (hWalk : v.table.Walk name (c.name :: if c.isInterface then [objectClass] else []) found) :
      Considers v c name (⟨c, m⟩ :: found)
  | declared {found : List (Declared MethodModel)}
      (hOther : ∀ m, v.inProgress = some m → c.name = v.thisClass → m.name ≠ name)
      (hWalk : v.table.Walk name (c.name :: if c.isInterface then [objectClass] else []) found) :
      Considers v c name found

variable {c : ClassModel} {name : String}

theorem Considers.unique {order other : List (Declared MethodModel)} (h : v.Considers c name order)
    (h' : v.Considers c name other) : order = other := by
  cases h with
  | current hCurrent hClass hName hWalk =>
    cases h' with
    | current hCurrent' _ _ hWalk' =>
      cases hCurrent.symm.trans hCurrent'
      rw [hWalk.unique hWalk']
    | declared hOther => exact (hOther _ hCurrent hClass hName).elim
  | declared hOther hWalk =>
    cases h' with
    | current hCurrent hClass hName => exact (hOther _ hCurrent hClass hName).elim
    | declared _ hWalk' => exact hWalk.unique hWalk'

theorem considers_candidates (h : v.table.Acyclic) {owner : String} (hKnown : v.table.find? owner = some c) :
    v.Considers c name (v.candidates c name) := by
  obtain rfl : c.name = owner := by simpa using List.find?_some hKnown
  have hWalk : v.table.Walk name _ (v.table.methodsOf c name) := h.walk_methodsOf hKnown
  unfold candidates
  by_cases hClass : c.name = v.thisClass
  · cases hCurrent : v.inProgress with
    | none => simpa [hClass] using .declared (by simp [hCurrent]) hWalk
    | some m =>
      by_cases hName : m.name = name
      · simpa [hClass, hName] using .current hCurrent hClass hName hWalk
      · simpa [hClass, hName] using .declared (by simp [hCurrent, hName]) hWalk
  · simpa [hClass] using .declared (by simp [hClass]) hWalk

theorem lookupMethod_of_known {owner : String} (hKnown : v.table.find? owner = some c) (args : List JavaType)
    (found : SelectedMethod) : v.lookupMethod owner name args = .ok found ↔
      SelectedMethod.nearest ((v.candidates c name).filterMap (v.applicable args)) = some found := by
  simp only [lookupMethod, getClass, hKnown, bind, Except.bind]
  split
  · next best hBest => simp [hBest]
  · next hNone => simp [hNone]

/-- A call on a known class selects a method exactly when one of the methods that are considered accepts the arguments.
It is the first of those that are nearest, it matches exactly if its distance is zero, and every argument can be
assigned to its parameter. -/
theorem lookupMethod_first_nearest (v : Viewpoint) (hAcyclic : v.table.Acyclic) {owner : String} {c : ClassModel}
    (hKnown : v.table.find? owner = some c) (name : String) (args : List JavaType) :
    ∃ order, v.Considers c name order ∧ (∀ other, v.Considers c name other → other = order) ∧
      ((∃ found, v.lookupMethod owner name args = .ok found) ↔ ∃ m ∈ order, ∃ d, v.HasDistance args m d) ∧
      ∀ found, v.lookupMethod owner name args = .ok found →
        (∃ earlier m later, order = earlier ++ m :: later ∧ found.owner = m.owner ∧ found.method = m.member ∧
          v.HasDistance args m found.distance ∧
          (∀ other ∈ earlier, ∀ d, v.HasDistance args other d → found.distance < d) ∧
          ∀ other ∈ later, ∀ d, v.HasDistance args other d → found.distance ≤ d) ∧
        MethodType.ofDescriptor? found.method.descriptor = some found.signature ∧
        (found.distance = 0 ↔ found.signature.params = args) ∧
        List.Forall₂ (fun arg param => v.isAssignable arg param) args found.signature.params := by
  have hOrder : v.Considers c name (v.candidates c name) := considers_candidates hAcyclic hKnown
  refine ⟨_, hOrder, fun other hOther => hOther.unique hOrder, ?_, ?_⟩
  · simp only [lookupMethod_of_known hKnown, hasDistance_iff]
    constructor
    · rintro ⟨found, hFound⟩
      obtain ⟨earlier, later, hSplit, -, -⟩ := SelectedMethod.nearest_eq_some hFound
      have hMem : found ∈ (v.candidates c name).filterMap (v.applicable args) := by simp [hSplit]
      obtain ⟨m, hm, hApplicable⟩ := List.mem_filterMap.1 hMem
      exact ⟨m, hm, found.distance, found, hApplicable, rfl⟩
    · rintro ⟨m, hm, d, s, hApplicable, -⟩
      have hMem := List.mem_filterMap.2 ⟨m, hm, hApplicable⟩
      refine Option.ne_none_iff_exists'.1 fun hNone => ?_
      simp [SelectedMethod.nearest_eq_none_iff.1 hNone] at hMem
  · intro found hFound
    obtain ⟨earlier, later, hSplit, hEarlier, hLater⟩ :=
      SelectedMethod.nearest_eq_some ((lookupMethod_of_known hKnown args found).1 hFound)
    obtain ⟨before, rest, hCandidates, rfl, hRest⟩ := List.filterMap_eq_append_iff.1 hSplit
    obtain ⟨skipped, m, after, rfl, hSkipped, hApplicable, rfl⟩ := List.filterMap_eq_cons_iff.1 hRest
    obtain ⟨hSignature, hDistance, hOwner, hMethod⟩ := applicable_eq_some_iff.1 hApplicable
    refine ⟨⟨before ++ skipped, m, after, by simp [hCandidates], hOwner, hMethod,
      hasDistance_iff.2 ⟨found, hApplicable, rfl⟩, ?_, ?_⟩, hMethod ▸ hSignature, signatureDistance_some hDistance⟩
    · intro other hOther d hd
      obtain ⟨s, hs, rfl⟩ := hasDistance_iff.1 hd
      rcases List.mem_append.1 hOther with hBefore | hNone
      · exact hEarlier s (List.mem_filterMap.2 ⟨other, hBefore, hs⟩)
      · simp [hSkipped other hNone] at hs
    · intro other hOther d hd
      obtain ⟨s, hs, rfl⟩ := hasDistance_iff.1 hd
      exact hLater s (List.mem_filterMap.2 ⟨other, hOther, hs⟩)

/-- Of two inherited methods that are equally near the first is selected. -/
theorem lookupMethod_first_nearest_tie :
    let shape := { ClassModel.interfaceOfName "Shape" with methods := [⟨"put", "(ILjava/lang/Object;)V", .publicFlag⟩] }
    let box := { ClassModel.ofName "Box" with methods :=
      [⟨"put", "(J)V", .publicFlag⟩, ⟨"put", "(ILShape;)V", .publicFlag⟩] }
    let cell := { ClassModel.ofName "Cell" with
      access := .abstractFlag, superName := some "Box", interfaces := ["Shape"] }
    let v : Viewpoint := ⟨⟨[cell, box, shape]⟩, "Cell", [], none⟩
    v.table.Acyclic ∧ v.table.find? "Cell" = some cell ∧
    ∃ found, v.lookupMethod "Cell" "put" [.byte, .null] = .ok found ∧ found.method.descriptor = "(ILShape;)V" ∧
      found.signature.params ≠ [.byte, .null] := by
  intro shape box cell v
  have hAcyclic : v.table.Acyclic :=
    ClassTable.acyclic_of_rank (fun name => if name = "Cell" then 2 else if name = objectClass then 0 else 1)
      (by decide +kernel)
  have hKnown : v.table.find? "Cell" = some cell := rfl
  obtain ⟨order, -, -, -, hSelected⟩ := lookupMethod_first_nearest v hAcyclic hKnown "put" [.byte, .null]
  have hFound : v.lookupMethod "Cell" "put" [.byte, .null] =
      .ok ⟨box, ⟨"put", "(ILShape;)V", .publicFlag⟩, ⟨[.int, .ofClass "Shape"], .void⟩, 2⟩ := by
    cbv
  obtain ⟨-, -, hExact, -⟩ := hSelected _ hFound
  exact ⟨hAcyclic, hKnown, _, hFound, rfl, fun hSame => absurd (hExact.2 hSame) (by decide)⟩

end Viewpoint

end JavaFragment
