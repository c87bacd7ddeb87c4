import JavaFragment.Typing.Denotation
/-!
When expressions have a type, by the types of their parts.
-/
namespace JavaFragment

variable {α ε : Type} {t : JavaType} {x : Except ε α}

theorem except_bind_ok {β : Type} {f : α → Except ε β} {b : β} : (x >>= f) = .ok b ↔ ∃ a, x = .ok a ∧ f a = .ok b := by
  cases x <;> simp [bind, Except.bind]

theorem except_map_ok {β : Type} {f : α → β} {b : β} : f <$> x = .ok b ↔ ∃ a, x = .ok a ∧ f a = b := by
  cases x <;> simp [Functor.map, Except.map]

theorem except_toOption {a : α} : x.toOption = some a ↔ x = .ok a := by
  cases x <;> simp [Except.toOption]

theorem Denotation.valueOf_ok {e : Expr} {d : Denotation} : d.valueOf e = .ok t ↔ d = .value t := by
  cases d <;> simp [valueOf]

theorem JavaType.primitive?_eq_some {p : Primitive} : t.primitive? = some p ↔ t = .prim p := by
  obtain ⟨base, dims⟩ := t
  unfold primitive? prim
  split
  · rename_i q hBase hDims
    simp_all
  · rename_i hOther
    simp only [reduceCtorEq, JavaType.mk.injEq, false_iff, not_and]
    rintro rfl rfl
    exact hOther p rfl rfl

@[simp]
theorem JavaType.primitive?_prim (p : Primitive) : (JavaType.prim p).primitive? = some p := rfl

theorem JavaType.prim_inj {p q : Primitive} (h : JavaType.prim p = .prim q) : p = q := by
  simpa using congrArg primitive? h

theorem JavaType.isBoolean_iff : t.isBoolean ↔ t = .boolean := by
  rw [isBoolean, beq_iff_eq, primitive?_eq_some]
  rfl

theorem JavaType.className?_eq_some {name : String} : t.className? = some name ↔ t = .ofClass name := by
  obtain ⟨base, dims⟩ := t
  unfold className? ofClass
  split
  · rename_i c hBase hDims
    simp_all
  · rename_i hOther
    simp only [reduceCtorEq, JavaType.mk.injEq, false_iff, not_and]
    rintro rfl rfl
    exact hOther name rfl rfl

theorem JavaType.isString_iff : t.isString ↔ t = .string := by
  rw [isString, isClass, beq_iff_eq, className?_eq_some]
  rfl

theorem Viewpoint.resolveType_primitive (v : Viewpoint) (p : Primitive) :
    v.resolveType (.primitive p) = .ok (.prim p) := rfl

-- The equations of the rules are made here once, before the many proofs that use them.
attribute [local simp] denoteWith locationWith

namespace TypingContext

variable {ctx : TypingContext} {t : JavaType} {e l r value : Expr} {v : Variable}

theorem typeOf_ok : ctx.typeOf e = .ok t ↔ ctx.denote e = .ok (.value t) := by
  simp [typeOf, except_bind_ok, Denotation.valueOf_ok]

theorem typeOf_int {v : Int64} {kind : IntKind} : ctx.typeOf (.int v kind) = .ok (.prim kind.primitive) := by
  rw [typeOf_ok, denote, denoteWith]

theorem typeOf_long {v : Int64} : ctx.typeOf (.long v) = .ok .long := by rw [typeOf_ok, denote, denoteWith]

theorem typeOf_bool {v : Bool} : ctx.typeOf (.bool v) = .ok .boolean := by rw [typeOf_ok, denote, denoteWith]

theorem typeOf_var : ctx.typeOf (.var v) = ctx.variableType v := by
  unfold typeOf denote
  rw [denoteWith]
  cases ctx.variableType v <;> rfl

theorem typeOf_unary {op : UnaryOp} :
    ctx.typeOf (.unary op e) = .ok t ↔ ∃ a, ctx.typeOf e = .ok a ∧ unaryType op a = some t := by
  simp only [typeOf_ok, denote]
  rw [denoteWith]
  simp only [except_bind_ok, Denotation.valueOf_ok]
  constructor
  · rintro ⟨_, he, a, rfl, h⟩
    refine ⟨a, he, ?_⟩
    split at h <;> cases h
    assumption
  · rintro ⟨a, he, h⟩
    exact ⟨_, he, a, rfl, by rw [h]; rfl⟩

theorem typeOf_binary {op : BinaryOp} :
    ctx.typeOf (.binary op l r) = .ok t ↔ ∃ a b, ctx.typeOf l = .ok a ∧ ctx.typeOf r = .ok b ∧
      binaryType op a b = some t := by
  simp only [typeOf_ok, denote]
  rw [denoteWith]
  simp only [except_bind_ok, Denotation.valueOf_ok]
  constructor
  · rintro ⟨_, hl, a, rfl, _, hr, b, rfl, h⟩
    refine ⟨a, b, hl, hr, ?_⟩
    split at h <;> cases h
    assumption
  · rintro ⟨a, b, hl, hr, h⟩
    exact ⟨_, hl, a, rfl, _, hr, b, rfl, by rw [h]; rfl⟩

theorem typeOf_compare {op : CompareOp} :
    ctx.typeOf (.compare op l r) = .ok t ↔ ∃ a b, ctx.typeOf l = .ok a ∧ ctx.typeOf r = .ok b ∧
      ctx.isComparable op a b ∧ t = .boolean := by
  simp only [typeOf_ok, denote]
  rw [denoteWith]
  simp only [except_bind_ok, Denotation.valueOf_ok]
  constructor
  · rintro ⟨_, hl, a, rfl, _, hr, b, rfl, h⟩
    refine ⟨a, b, hl, hr, ?_⟩
    split at h <;> cases h
    exact ⟨‹_›, rfl⟩
  · rintro ⟨a, b, hl, hr, h, rfl⟩
    exact ⟨_, hl, a, rfl, _, hr, b, rfl, by rw [if_pos h]; rfl⟩

theorem truth_ok {u : Unit} : truth e t = .ok u ↔ t.isBoolean := by
  unfold truth
  split <;> simp [*]

theorem typeOf_and : ctx.typeOf (.and l r) = .ok t ↔
      ctx.typeOf l = .ok .boolean ∧ ctx.typeOf r = .ok .boolean ∧ t = .boolean := by
  simp only [typeOf_ok, denote]
  rw [denoteWith]
  simp only [except_bind_ok, Denotation.valueOf_ok, truth_ok, JavaType.isBoolean_iff]
  constructor
  · rintro ⟨_, hl, _, rfl, _, rfl, _, hr, _, rfl, _, rfl, h⟩
    cases h
    exact ⟨hl, hr, rfl⟩
  · rintro ⟨hl, hr, rfl⟩
    exact ⟨_, hl, _, rfl, (), rfl, _, hr, _, rfl, (), rfl, rfl⟩

theorem typeOf_or : ctx.typeOf (.or l r) = .ok t ↔
      ctx.typeOf l = .ok .boolean ∧ ctx.typeOf r = .ok .boolean ∧ t = .boolean := by
  simp only [typeOf_ok, denote]
  rw [denoteWith]
  simp only [except_bind_ok, Denotation.valueOf_ok, truth_ok, JavaType.isBoolean_iff]
  constructor
  · rintro ⟨_, hl, _, rfl, _, rfl, _, hr, _, rfl, _, rfl, h⟩
    cases h
    exact ⟨hl, hr, rfl⟩
  · rintro ⟨hl, hr, rfl⟩
    exact ⟨_, hl, _, rfl, (), rfl, _, hr, _, rfl, (), rfl, rfl⟩

theorem typeOf_not : ctx.typeOf (.not e) = .ok t ↔ ctx.typeOf e = .ok .boolean ∧ t = .boolean := by
  simp only [typeOf_ok, denote]
  rw [denoteWith]
  simp only [except_bind_ok, Denotation.valueOf_ok, truth_ok, JavaType.isBoolean_iff]
  constructor
  · rintro ⟨_, he, _, rfl, _, rfl, h⟩
    cases h
    exact ⟨he, rfl⟩
  · rintro ⟨he, rfl⟩
    exact ⟨_, he, _, rfl, (), rfl, rfl⟩

theorem castType_of_typeOf {written : WrittenType} (h : ctx.typeOf (.cast written e) = .ok t) :
    ∃ a, ctx.typeOf e = .ok a ∧ ctx.castType (.cast written e) written a = .ok t := by
  rw [typeOf_ok, denote, denoteWith] at h
  obtain ⟨d, he, h⟩ := except_bind_ok.1 h
  obtain ⟨a, hValue, h⟩ := except_bind_ok.1 h
  obtain ⟨_, hCast, h⟩ := except_bind_ok.1 h
  cases h
  rw [ Denotation.valueOf_ok.1 hValue] at he
  exact ⟨a, typeOf_ok.2 he, hCast⟩

theorem typeOf_cast {p : Primitive} : ctx.typeOf (.cast (.primitive p) e) = .ok t ↔
      ∃ a, ctx.typeOf e = .ok a ∧ isCastable a (.prim p) ∧ t = .prim p := by
  simp only [typeOf_ok, denote]
  rw [denoteWith]
  simp only [except_bind_ok, Denotation.valueOf_ok]
  have hCast (a : JavaType) : ctx.castType (.cast (.primitive p) e) (.primitive p) a =
      if isCastable a (.prim p) then .ok (.prim p)
      else .error (.type (.badCast a (.prim p) (.cast (.primitive p) e))) := by
    simp only [castType, resultCast, boxCast, reduceCtorEq, if_false, Viewpoint.resolveType_primitive]
    rfl
  constructor
  · rintro ⟨_, he, a, rfl, b, h, hb⟩
    rw [hCast] at h
    cases hb
    split at h <;> cases h
    exact ⟨a, he, ‹_›, rfl⟩
  · rintro ⟨a, he, h, rfl⟩
    exact ⟨_, he, a, rfl, .prim p, by rw [hCast, if_pos h], rfl⟩

theorem conditionalType_ok {test : Expr} {tests whenTrue whenFalse : Except CompileError JavaType} :
    ctx.conditionalType e test tests whenTrue whenFalse = .ok t ↔ tests = .ok .boolean ∧
      ∃ a b, whenTrue = .ok a ∧ whenFalse = .ok b ∧ ctx.branchType a b = some t := by
  unfold conditionalType
  simp only [except_bind_ok]
  constructor
  · rintro ⟨c, rfl, h⟩
    split at h
    · cases h
    · rename_i hTruth
      obtain ⟨a, rfl, b, rfl, hMatch⟩ := by simpa only [except_bind_ok] using h
      refine ⟨by simpa [JavaType.isBoolean_iff] using hTruth, a, b, rfl, rfl, ?_⟩
      split at hMatch <;> cases hMatch
      assumption
  · rintro ⟨rfl, a, b, rfl, rfl, h⟩
    refine ⟨.boolean, rfl, ?_⟩
    rw [if_neg (by decide)]
    simp only [except_bind_ok]
    exact ⟨a, rfl, b, rfl, by rw [h]; rfl⟩

theorem conditionalType_of_typeOf {c a b : Expr} (h : ctx.typeOf (.conditional c a b) = .ok t) :
    ctx.conditionalType (.conditional c a b) c (denoteWith ctx ctx.forward c >>= (·.valueOf c))
      (denoteWith ctx ctx.forward a >>= (·.valueOf a)) (denoteWith ctx ctx.forward b >>= (·.valueOf b)) =
      .ok t := by
  rw [typeOf_ok, denote, denoteWith] at h
  obtain ⟨type, hType, hSame⟩ := except_bind_ok.1 h
  cases hSame
  exact hType

theorem typeOf_conditional {c a b : Expr} : ctx.typeOf (.conditional c a b) = .ok t ↔ ctx.typeOf c = .ok .boolean ∧
      ∃ ta tb, ctx.typeOf a = .ok ta ∧ ctx.typeOf b = .ok tb ∧ ctx.branchType ta tb = some t := by
  rw [typeOf_ok, denote, denoteWith]
  simp only [except_bind_ok, conditionalType_ok, Denotation.valueOf_ok]
  constructor
  · rintro ⟨_, ⟨⟨_, hc, rfl⟩, ta, tb, ⟨_, ha, rfl⟩, ⟨_, hb, rfl⟩, h⟩, hSame⟩
    cases hSame
    exact ⟨typeOf_ok.2 hc, ta, tb, typeOf_ok.2 ha, typeOf_ok.2 hb, h⟩
  · rintro ⟨hc, ta, tb, ha, hb, h⟩
    exact ⟨t, ⟨⟨_, typeOf_ok.1 hc, rfl⟩, ta, tb, ⟨_, typeOf_ok.1 ha, rfl⟩, ⟨_, typeOf_ok.1 hb, rfl⟩, h⟩, rfl⟩

theorem assign_ok {constant : Unit → Option Const} {source target : JavaType}
    {u : Unit} : ctx.assign value constant source target = .ok u ↔
      ctx.view.isAssignable source target ∨ narrows (constant ()) source target := by
  unfold assign
  split
  · simp [*]
  · split <;> simp [*]

/-- The type of an assignment to a variable. -/
theorem typeOf_assign (hValue : ∀ items, value ≠ .arrayInit items) :
    ctx.typeOf (.assign none (.var v) value) = .ok t ↔ ctx.variableType v = .ok t ∧
      ∃ source, ctx.typeOf value = .ok source ∧
        (ctx.view.isAssignable source t ∨ narrows (ctx.constant value) source t) := by
  simp only [typeOf_ok, denote, constant]
  rw [denoteWith]
  · simp only [except_bind_ok, Denotation.valueOf_ok, locationWith, assign_ok]
    constructor
    · rintro ⟨type, hv, _, hValue, source, rfl, _, h, hSame⟩
      cases hSame
      exact ⟨hv, source, hValue, h⟩
    · rintro ⟨hv, source, hValue, h⟩
      exact ⟨t, hv, _, hValue, source, rfl, (), h, rfl⟩
  · exact fun items h => hValue items h

theorem typeOf_compound {op : BinaryOp} :
    ctx.typeOf (.assign (some op) (.var v) value) = .ok t ↔ ctx.variableType v = .ok t ∧
      ∃ source, ctx.typeOf value = .ok source ∧ compoundFits op t source := by
  simp only [typeOf_ok, denote]
  rw [denoteWith]
  simp only [except_bind_ok, Denotation.valueOf_ok, locationWith]
  constructor
  · rintro ⟨type, hv, _, hValue, source, rfl, h⟩
    split at h <;> cases h
    exact ⟨hv, source, hValue, ‹_›⟩
  · rintro ⟨hv, source, hValue, h⟩
    exact ⟨t, hv, _, hValue, source, rfl, by rw [if_pos h]; rfl⟩

theorem typeOf_incDec {increases before : Bool} :
    ctx.typeOf (.incDec increases before (.var v)) = .ok t ↔ ctx.variableType v = .ok t ∧ t.isNumeric := by
  simp only [typeOf_ok, denote]
  rw [denoteWith]
  simp only [except_bind_ok, locationWith]
  constructor
  · rintro ⟨type, hv, h⟩
    split at h <;> cases h
    exact ⟨hv, ‹_›⟩
  · rintro ⟨hv, h⟩
    exact ⟨t, hv, by rw [if_pos h]; rfl⟩

section

variable {e : Expr} {target : FieldTarget} {n : String}

theorem typeOf_instanceOf {written : WrittenType} (h : ctx.typeOf (.instanceOf e written) = .ok t) :
    (∃ source, ctx.typeOf e = .ok source ∧ source.isReference) ∧ t = .boolean := by
  rw [typeOf_ok, denote, denoteWith] at h
  obtain ⟨d, hd, h⟩ := except_bind_ok.1 h
  obtain ⟨source, hSource, h⟩ := except_bind_ok.1 h
  obtain ⟨type, hType, h⟩ := except_bind_ok.1 h
  cases h
  obtain ⟨target, -, hType⟩ := except_bind_ok.1 hType
  rw [ Denotation.valueOf_ok.1 hSource] at hd
  split at hType <;> cases hType
  exact ⟨⟨source, typeOf_ok.2 hd, (Bool.and_eq_true_iff.1 ‹_›).1⟩, rfl⟩

/-- An assignment has the type of its target. What is assigned is an array that is made of items, a value of
a type that can be assigned, or an operand of a compound operator. -/
theorem typeOf_assigned {op : Option BinaryOp} {target value : Expr}
    (h : ctx.typeOf (.assign op target value) = .ok t) : ctx.locationOf target = .ok t ∧
      ((∃ items element, op = none ∧ value = .arrayInit items ∧ t.element? = some element ∧
          fitWith ctx ctx.forward items element = .ok ()) ∨
        ∃ source, ctx.typeOf value = .ok source ∧
          (op = none ∧ ctx.assignable value source t = .ok () ∨ ∃ o, op = some o ∧ compoundFits o t source)) := by
  rw [typeOf_ok, denote] at h
  cases op with
  | none =>
    by_cases hInit : ∃ items, value = .arrayInit items
    · obtain ⟨items, rfl⟩ := hInit
      rw [denoteWith] at h
      obtain ⟨type, hType, h⟩ := except_bind_ok.1 h
      obtain ⟨element, hElement, h⟩ := except_bind_ok.1 h
      obtain ⟨_, hFits, h⟩ := except_bind_ok.1 h
      cases h
      unfold itemType at hElement
      split at hElement <;> cases hElement
      exact ⟨hType, .inl ⟨items, element, rfl, rfl, ‹_›, hFits⟩⟩
    · rw [denoteWith] at h
      · obtain ⟨type, hType, h⟩ := except_bind_ok.1 h
        obtain ⟨d, hd, h⟩ := except_bind_ok.1 h
        obtain ⟨source, hSource, h⟩ := except_bind_ok.1 h
        obtain ⟨_, hAssign, h⟩ := except_bind_ok.1 h
        cases h
        rw [ Denotation.valueOf_ok.1 hSource] at hd
        exact ⟨hType, .inr ⟨source, typeOf_ok.2 hd, .inl ⟨rfl, hAssign⟩⟩⟩
      · exact fun items h => hInit ⟨items, h⟩
  | some op =>
    rw [denoteWith] at h
    obtain ⟨type, hType, h⟩ := except_bind_ok.1 h
    obtain ⟨d, hd, h⟩ := except_bind_ok.1 h
    obtain ⟨source, hSource, h⟩ := except_bind_ok.1 h
    rw [ Denotation.valueOf_ok.1 hSource] at hd
    split at h <;> cases h
    exact ⟨hType, .inr ⟨source, typeOf_ok.2 hd, .inr ⟨op, rfl, ‹_›⟩⟩⟩

theorem location_of_assign {op : Option BinaryOp} {target value : Expr}
    (h : ctx.typeOf (.assign op target value) = .ok t) : ctx.locationOf target = .ok t :=
  (typeOf_assigned h).1

theorem location_of_incDec {increment before : Bool} {target : Expr}
    (h : ctx.typeOf (.incDec increment before target) = .ok t) : ctx.locationOf target = .ok t := by
  rw [typeOf_ok, denote, denoteWith] at h
  obtain ⟨type, hType, h⟩ := except_bind_ok.1 h
  split at h <;> cases h
  exact hType

theorem denote_field {d : Denotation} (h : ctx.denote (.field e n) = .ok d) :
    ∃ d', ctx.denote e = .ok d' ∧ ctx.denoteMember e n d' = .ok d := by
  rw [denote, denoteWith] at h
  exact except_bind_ok.1 h

theorem indexType_ok {position array : JavaType} (h : indexType e array position = .ok t) :
    array.element? = some t ∧ position.promoted? = some .int := by
  unfold indexType at h
  split at h
  · cases h
  · rename_i hPosition
    split at h <;> cases h
    exact ⟨‹_›, by simpa using hPosition⟩

theorem typeOf_index {i : Expr} (h : ctx.typeOf (.index e i) = .ok t) :
    ∃ a p, ctx.typeOf e = .ok a ∧ ctx.typeOf i = .ok p ∧ a.element? = some t ∧ p.promoted? = some .int := by
  rw [typeOf_ok, denote, denoteWith] at h
  obtain ⟨d, hd, h⟩ := except_bind_ok.1 h
  obtain ⟨array, hArray, h⟩ := except_bind_ok.1 h
  obtain ⟨d', hd', h⟩ := except_bind_ok.1 h
  obtain ⟨position, hPosition, h⟩ := except_bind_ok.1 h
  obtain ⟨element, hElement, h⟩ := except_bind_ok.1 h
  cases h
  rw [ Denotation.valueOf_ok.1 hArray] at hd
  rw [ Denotation.valueOf_ok.1 hPosition] at hd'
  exact ⟨array, position, typeOf_ok.2 hd, typeOf_ok.2 hd', indexType_ok hElement⟩

/-- An element that can be assigned to can be read. -/
theorem typeOf_of_locationOf_index {i : Expr} (h : ctx.locationOf (.index e i) = .ok t) :
    ctx.typeOf (.index e i) = .ok t := by
  rw [locationOf, locationWith] at h
  obtain ⟨d, hd, h⟩ := except_bind_ok.1 h
  obtain ⟨array, hArray, h⟩ := except_bind_ok.1 h
  obtain ⟨d', hd', h⟩ := except_bind_ok.1 h
  obtain ⟨position, hPosition, h⟩ := except_bind_ok.1 h
  rw [typeOf_ok, denote, denoteWith]
  exact except_bind_ok.2 ⟨d, hd, except_bind_ok.2 ⟨array, hArray, except_bind_ok.2 ⟨d', hd',
    except_bind_ok.2 ⟨position, hPosition, except_bind_ok.2 ⟨t, h, rfl⟩⟩⟩⟩⟩

theorem typeOf_callOn {name : String} {args : List Expr} (h : ctx.typeOf (.callOn e name args) = .ok t) :
    ∃ types found, typesWith ctx ctx.forward args = .ok types ∧
      ctx.callTarget e (ctx.denote e) name types = .ok found ∧ t = found.selected.signature.result := by
  rw [typeOf_ok, denote, denoteWith] at h
  obtain ⟨-, -, h⟩ := except_bind_ok.1 h
  obtain ⟨types, hTypes, h⟩ := except_bind_ok.1 h
  obtain ⟨found, hFound, h⟩ := except_bind_ok.1 h
  cases h
  exact ⟨types, found, hTypes, hFound, rfl⟩

theorem typeOf_new {written : WrittenType} {args : List Expr} (h : ctx.typeOf (.new written args) = .ok t) :
    ctx.view.resolveType written = .ok t ∧ ∃ c, ctx.createdClass t = .ok c := by
  rw [typeOf_ok, denote, denoteWith] at h
  obtain ⟨type, hType, h⟩ := except_bind_ok.1 h
  obtain ⟨c, hClass, h⟩ := except_bind_ok.1 h
  obtain ⟨-, -, h⟩ := except_bind_ok.1 h
  obtain ⟨types, -, h⟩ := except_bind_ok.1 h
  obtain ⟨-, -, h⟩ := except_bind_ok.1 h
  cases h
  exact ⟨hType, c, hClass⟩

theorem typeOf_newArray {element : WrittenType} {lengths : List Expr} {extra : Nat}
    (h : ctx.typeOf (.newArray element lengths extra) = .ok t) :
    ∃ base, ctx.view.resolveType element = .ok base ∧
      lengthsWith ctx ctx.forward (.newArray element lengths extra) lengths = .ok () ∧
      t = base.arrayOf (lengths.length + extra) := by
  rw [typeOf_ok, denote, denoteWith] at h
  obtain ⟨base, hBase, h⟩ := except_bind_ok.1 h
  obtain ⟨_, hLengths, h⟩ := except_bind_ok.1 h
  cases h
  exact ⟨base, hBase, hLengths, rfl⟩

theorem typeOf_arrayOf {element : WrittenType} {dims : Nat} {items : List Expr}
    (h : ctx.typeOf (.arrayOf element dims items) = .ok t) :
    ∃ base item, ctx.view.resolveType element = .ok base ∧ (base.arrayOf dims).element? = some item ∧
      fitWith ctx ctx.forward items item = .ok () ∧ t = base.arrayOf dims := by
  rw [typeOf_ok, denote, denoteWith] at h
  obtain ⟨base, hBase, h⟩ := except_bind_ok.1 h
  obtain ⟨item, hItem, h⟩ := except_bind_ok.1 h
  obtain ⟨_, hFits, h⟩ := except_bind_ok.1 h
  cases h
  unfold itemType at hItem
  split at hItem <;> cases hItem
  exact ⟨base, item, hBase, ‹_›, hFits, rfl⟩

/-- A name that has a type is that of a pseudo-variable or of a field. -/
theorem typeOf_name_cases (h : ctx.typeOf (.name n) = .ok t) :
    (∃ pseudo, PseudoName.ofName? n = some pseudo ∧ Bindings.pseudoType pseudo = .ok t) ∨
      PseudoName.ofName? n = none ∧ ∃ target, ctx.nameTarget n = .ok (some target) ∧ target.type = .ok t := by
  rw [typeOf_ok, denote, denoteWith, denoteName] at h
  split at h
  · obtain ⟨own, hOwn, hSame⟩ := except_map_ok.1 h
    cases hSame
    exact .inl ⟨_, ‹_›, hOwn⟩
  · obtain ⟨found, hFound, hRest⟩ := except_bind_ok.1 h
    cases found with
    | none =>
      unfold classOrPackage at hRest
      dsimp only at hRest
      split at hRest <;> cases hRest
    | some target =>
      obtain ⟨type, hType, hSame⟩ := except_bind_ok.1 hRest
      cases hSame
      exact .inr ⟨‹_›, target, hFound, hType⟩

theorem typeOf_name (hType : ctx.typeOf (.name n) = .ok t)
    (hTarget : ctx.nameTarget n = .ok (some target)) : target.type = .ok t := by
  rcases typeOf_name_cases hType with ⟨pseudo, hName, -⟩ | ⟨-, found, hFound, hField⟩
  · rw [nameTarget, hName] at hTarget
    cases hTarget
  · obtain rfl : found = target := Option.some.inj (Except.ok.inj (hFound.symm.trans hTarget))
    exact hField

/-- What stands after a dot and has a type is a field. -/
theorem typeOf_field_cases (h : ctx.typeOf (.field e n) = .ok t) :
    ∃ d target, ctx.denote e = .ok d ∧ ctx.memberTarget e n d = .ok (some target) ∧ target.type = .ok t := by
  obtain ⟨d, hd, h⟩ := denote_field (typeOf_ok.1 h)
  obtain ⟨found, hFound, h⟩ := except_bind_ok.1 h
  cases found with
  | some target =>
    obtain ⟨type, hType, hSame⟩ := except_bind_ok.1 h
    cases hSame
    exact ⟨d, target, hd, hFound, hType⟩
  | none =>
    cases d with
    | value | «class» => cases h
    | package name =>
      unfold classOrPackage at h
      dsimp only at h
      split at h <;> cases h

theorem typeOf_field {d : Denotation} (hType : ctx.typeOf (.field e n) = .ok t) (hDenote : ctx.denote e = .ok d)
    (hTarget : ctx.memberTarget e n d = .ok (some target)) : target.type = .ok t := by
  obtain ⟨d', found, hDenote', hFound, hField⟩ := typeOf_field_cases hType
  obtain rfl : d = d' := Except.ok.inj (hDenote.symm.trans hDenote')
  obtain rfl : found = target := Option.some.inj (Except.ok.inj (hFound.symm.trans hTarget))
  exact hField

end

end TypingContext

end JavaFragment
