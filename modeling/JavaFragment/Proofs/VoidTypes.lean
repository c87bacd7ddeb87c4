import JavaFragment.Proofs.MethodBodies
/-!
Where `void` gets into the types of values. A written array of `void` is refused, and so is a variable that is declared
`void`. But an array may be made over `void`, and a field or a parameter may be declared so. Nothing else gives a type
that no value has.
-/
namespace JavaFragment

/-- Whether values can be stored in places of a type or in arrays over it. -/
def JavaType.isStorable (t : JavaType) : Bool := t.base != .null && t.base != .primitive .void

/-- Whether a type is `void`, that of `null` or one that values can be stored in. -/
def JavaType.isProper (t : JavaType) : Bool := t.dims == 0 || t.isStorable

/-- Whether the values of a written type can be stored. -/
def WrittenType.isStorable : WrittenType → Bool
  | .null | .primitive .void => false
  | .primitive _ | .named _ => true
  | .array element => element.isStorable

/-- Whether an expression makes an array over `void`, or writes the type of `null`, which has no spelling. -/
def Expr.writesUnstorable : Expr → Bool
  | .newArray element .. | .arrayOf element .. => !element.isStorable
  | .cast written _ | .new written _ => !written.isWritten
  | .var v => !v.written.isWritten
  | _ => false

def FieldModel.isProper (f : FieldModel) : Bool := (JavaType.ofDescriptor? f.descriptor).all JavaType.isProper

def MethodModel.isProper (m : MethodModel) : Bool :=
  (MethodType.ofDescriptor? m.descriptor).all fun signature => signature.result.isProper

/-- Whether all that is declared in surroundings has types that values have. -/
def TypingContext.isProper (ctx : TypingContext) : Bool :=
  (ctx.view.table.classes.all fun c => c.fields.all FieldModel.isProper && c.methods.all MethodModel.isProper) &&
    ctx.view.inProgress.all MethodModel.isProper && ctx.bindings.resultCastType.isProper &&
    ctx.types.all (Option.all JavaType.isProper)

namespace JavaType

variable {a b t : JavaType}

theorem isProper_of_promoted? (h : a.promoted? = some t) : t.isProper = true := by
  obtain ⟨p, -, h⟩ := Option.bind_eq_some_iff.1 h
  obtain ⟨rank, -, rfl⟩ := Option.map_eq_some_iff.1 h
  rfl

theorem isProper_of_promotedWith? (h : a.promotedWith? b = some t) : t.isProper = true := by
  obtain ⟨p, -, h⟩ := Option.bind_eq_some_iff.1 h
  obtain ⟨q, -, h⟩ := Option.bind_eq_some_iff.1 h
  obtain ⟨r, -, h⟩ := Option.bind_eq_some_iff.1 h
  obtain ⟨s, -, h⟩ := Option.bind_eq_some_iff.1 h
  cases h
  rfl

theorem isProper_of_element? (ha : a.isProper = true) (h : a.element? = some t) : t.isProper = true := by
  obtain ⟨base, dims⟩ := a
  cases dims with
  | zero => cases h
  | succ dims =>
    cases h
    exact Bool.or_eq_true_iff.2 (.inr ha)

theorem isProper_arrayOf (h : t.isStorable = true) (dims : Nat) : (t.arrayOf dims).isProper = true :=
  Bool.or_eq_true_iff.2 (.inr h)

theorem isProper_boxed (h : t.isProper = true) : t.boxed.isProper = true := by
  unfold boxed
  split
  · exact h
  · next p _ => cases p <;> rfl

end JavaType

/-! Types that are written. -/

namespace Viewpoint

variable {v : Viewpoint} {w : WrittenType} {t : JavaType}

theorem resolveBase_isStorable {base : BaseType} (h : v.resolveBase w = .ok base) (dims : Nat) :
    (JavaType.mk base dims).isStorable = w.isStorable := by
  induction w with
  | null =>
    cases h
    rfl
  | primitive p =>
    cases h
    cases p <;> rfl
  | named name =>
    obtain ⟨c, -, rfl⟩ := except_map_ok.1 h
    rfl
  | array element ih => exact ih h

theorem isStorable_split (w : WrittenType) : w.split.1.isStorable = w.isStorable := by
  induction w with
  | array element ih => exact ih
  | _ => rfl

/-- A type that is meant can be stored if what is written can, and is not an array of `void`. -/
theorem resolveType_isStorable (h : v.resolveType w = .ok t) :
    t.isStorable = w.isStorable ∧ (w.isWritten = true → t.isProper = true) := by
  obtain ⟨base, hBase, h⟩ := except_bind_ok.1 h
  split at h
  · cases h
  · next hVoid =>
    cases h
    refine ⟨(resolveBase_isStorable hBase _).trans (isStorable_split w), fun hw => ?_⟩
    have hNull : base ≠ .null := resolveBase_ne_null (w.isWritten_split.trans hw) hBase
    simp only [Bool.and_eq_true, decide_eq_true_eq, beq_iff_eq, not_and] at hVoid
    simp only [JavaType.isProper, JavaType.isStorable, Bool.or_eq_true, beq_iff_eq, Bool.and_eq_true, bne_iff_ne]
    exact (Nat.eq_zero_or_pos _).imp_right fun hDims => ⟨hNull, hVoid hDims⟩

theorem map_isStorable {vs : List Variable} {types : List JavaType}
    (h : List.Forall₂ (fun u type => v.resolveType u.written = .ok type) vs types) :
    types.map JavaType.isStorable = vs.map (·.written.isStorable) := by
  induction h with
  | nil => rfl
  | cons hFirst _ ih => rw [List.map_cons, List.map_cons, (resolveType_isStorable hFirst).1, ih]

/-- An array over a type that is meant is of a proper type if what is written can be stored. -/
theorem isProper_created (h : v.resolveType w = .ok t) {dims : Nat} (hDims : t.dims + dims ≠ 0) :
    (t.arrayOf dims).isProper = w.isStorable := by
  rw [← (resolveType_isStorable h).1, JavaType.isProper, JavaType.arrayOf, beq_false_of_ne hDims]
  rfl

end Viewpoint

/-! Types of expressions. -/

namespace TypingContext

variable {ctx : TypingContext} {t : JavaType}

section

variable (hCtx : ctx.isProper = true)

include hCtx

theorem declared_isProper {c : ClassModel} (h : ctx.view.table.Declares c) :
    (∀ f ∈ c.fields, f.isProper = true) ∧ ∀ m ∈ c.methods, m.isProper = true := by
  simp only [isProper, Bool.and_eq_true, List.all_eq_true] at hCtx
  exact hCtx.1.1.1 c (List.mem_of_find?_eq_some h)

theorem target_isProper {target : FieldTarget} (h : ctx.Reaches target) (hType : target.type = .ok t) :
    t.isProper = true := by
  have hField {f : Declared FieldModel} (hTarget : target = .ofClass f ∨ target = .ofObject f)
      (hType : f.member.type = .ok t) : t.isProper = true := by
    obtain ⟨hOwner, hMember⟩ := h.declared hTarget
    have hProper := (declared_isProper hCtx hOwner).1 _ hMember
    rwa [FieldModel.isProper, FieldModel.ofDescriptor?_of_type hType, Option.all_some] at hProper
  cases target with
  | arrayLength =>
    cases hType
    rfl
  | ofClass f => exact hField (.inl rfl) hType
  | ofObject f => exact hField (.inr rfl) hType

theorem result_isProper {m : SelectedMethod} (h : ctx.view.Selects m) : m.signature.result.isProper = true := by
  obtain ⟨hSignature, hFound⟩ := h.found
  have hProper : m.method.isProper = true := by
    rcases hFound with ⟨-, hSelf⟩ | ⟨hOwner, hMember⟩
    · simp only [isProper, Bool.and_eq_true, hSelf, Option.all_some] at hCtx
      exact hCtx.1.1.2
    · exact (declared_isProper hCtx hOwner).2 _ hMember
  rwa [MethodModel.isProper, hSignature, Option.all_some] at hProper

theorem variableType_isProper {v : Variable} (h : ctx.variableType v = .ok t) (hv : v.written.isWritten = true) :
    t.isProper = true := by
  unfold variableType at h
  split at h
  · next known hKnown =>
    cases h
    simp only [isProper, Bool.and_eq_true] at hCtx
    obtain ⟨hLess, hAt⟩ := Array.getElem?_eq_some_iff.1 (Option.join_eq_some_iff.1 hKnown)
    have hProper := Array.all_eq_true.1 hCtx.2 _ hLess
    rwa [hAt, Option.all_some] at hProper
  · obtain ⟨type, hType, h⟩ := except_bind_ok.1 h
    split at h <;> cases h
    exact (Viewpoint.resolveType_isStorable hType).2 hv

theorem castType_isProper {e : Expr} {w : WrittenType} {source : JavaType} (hSource : source.isProper = true)
    (h : ctx.castType e w source = .ok t) (hw : w.isWritten = true) : t.isProper = true := by
  unfold castType at h
  split at h
  · cases h
    simp only [isProper, Bool.and_eq_true] at hCtx
    exact hCtx.1.2
  · split at h
    · cases h
      exact source.isProper_boxed hSource
    · obtain ⟨target, hTarget, h⟩ := except_bind_ok.1 h
      split at h <;> cases h
      exact (Viewpoint.resolveType_isStorable hTarget).2 hw

end

theorem branchType_isProper {a b : JavaType} (ha : a.isProper = true) (hb : b.isProper = true)
    (h : ctx.branchType a b = some t) : t.isProper = true := by
  have hPromoted (h : a.promotedWith? b = some t) : t.isProper = true := JavaType.isProper_of_promotedWith? h
  unfold branchType at h
  split_ifs at h <;> first | exact hPromoted h | (cases h; assumption) | (cases h; rfl)

theorem binaryType_isProper {op : BinaryOp} {a b : JavaType} (h : binaryType op a b = some t) : t.isProper = true := by
  unfold binaryType at h
  split_ifs at h <;> first
    | exact JavaType.isProper_of_promotedWith? h | exact JavaType.isProper_of_promoted? h | (cases h; rfl)

theorem of_fieldLocation {e : Expr} {target : Option FieldTarget} (h : fieldLocation e target = .ok t) :
    ∃ f, target = some f ∧ f.type = .ok t := by
  unfold fieldLocation at h
  split at h
  · exact ⟨_, rfl, h⟩
  · exact ⟨_, rfl, h⟩
  · cases h
  · cases h

/-- What is assigned to has the type of a value or of a field. -/
theorem locationOf_cases {e : Expr} (h : ctx.locationOf e = .ok t) :
    ctx.typeOf e = .ok t ∨ ∃ target, ctx.Reaches target ∧ target.type = .ok t := by
  cases e with
  | var v =>
    rw [locationOf, locationWith] at h
    exact .inl (typeOf_var.trans h)
  | index a i => exact .inl (typeOf_of_locationOf_index h)
  | name n =>
    rw [locationOf, locationWith] at h
    obtain ⟨target, hTarget, h⟩ := except_bind_ok.1 h
    obtain ⟨f, rfl, hType⟩ := of_fieldLocation h
    exact .inr ⟨f, nameTarget_reaches hTarget, hType⟩
  | field target n =>
    rw [locationOf, locationWith] at h
    obtain ⟨d, -, h⟩ := except_bind_ok.1 h
    obtain ⟨target, hTarget, h⟩ := except_bind_ok.1 h
    obtain ⟨f, rfl, hType⟩ := of_fieldLocation h
    exact .inr ⟨f, memberTarget_reaches hTarget, hType⟩
  | _ => simp [locationOf, locationWith] at h

theorem created_isProper {w : WrittenType} {base : JavaType} (h : ctx.view.resolveType w = .ok base) (dims : Nat) :
    (base.arrayOf dims).isProper = true ∨ (!w.isStorable) = true := by
  cases hw : w.isStorable with
  | true => exact .inl (base.isProper_arrayOf ((Viewpoint.resolveType_isStorable h).1.trans hw) dims)
  | false => exact .inr rfl

theorem typeOf_isProper (hCtx : ctx.isProper = true) :
    (e : Expr) → ∀ {t}, ctx.typeOf e = .ok t → t.isProper = true ∨ e.any Expr.writesUnstorable = true
  | .int .., _, h | .long _, _, h | .float _, _, h | .double _, _, h | .string _, _, h | .bool _, _, h
  | .nullRef, _, h | .concat _, _, h => by
    rw [typeOf_ok, denote, denoteWith] at h
    cases h
    exact .inl rfl
  | .thisRef, _, h => by
    rw [typeOf_ok, denote, denoteWith] at h
    obtain ⟨own, hThis, hSame⟩ := except_map_ok.1 h
    cases hSame
    unfold thisType at hThis
    split at hThis <;> cases hThis
    exact .inl rfl
  | .superRef, _, h => by
    rw [typeOf_ok, denote, denoteWith] at h
    obtain ⟨own, hSuper, hSame⟩ := except_map_ok.1 h
    cases hSame
    obtain ⟨-, -, hSuper⟩ := except_bind_ok.1 hSuper
    obtain ⟨name, -, hSuper⟩ := except_bind_ok.1 hSuper
    cases hSuper
    exact .inl rfl
  | .name n, _, h => by
    rcases typeOf_name_cases h with ⟨pseudo, -, hType⟩ | ⟨-, target, hTarget, hType⟩
    · cases pseudo <;> cases hType <;> exact .inl rfl
    · exact .inl (target_isProper hCtx (nameTarget_reaches hTarget) hType)
  | .var v, _, h => by
    rw [typeOf_var] at h
    cases hv : v.written.isWritten with
    | true => exact .inl (variableType_isProper hCtx h hv)
    | false => exact .inr (by simp [Expr.any, Expr.writesUnstorable, hv])
  | .field target n, _, h => by
    obtain ⟨d, found, -, hFound, hType⟩ := typeOf_field_cases h
    exact .inl (target_isProper hCtx (memberTarget_reaches hFound) hType)
  | .unary op e, _, h => by
    obtain ⟨a, -, hType⟩ := typeOf_unary.1 h
    unfold unaryType at hType
    split at hType
    · cases hType
    · exact .inl (JavaType.isProper_of_promoted? hType)
  | .binary op l r, _, h => by
    obtain ⟨a, b, -, -, hType⟩ := typeOf_binary.1 h
    exact .inl (binaryType_isProper hType)
  | .compare op l r, _, h => by
    obtain ⟨a, b, -, -, -, rfl⟩ := typeOf_compare.1 h
    exact .inl rfl
  | .and l r, _, h => by
    obtain ⟨-, -, rfl⟩ := typeOf_and.1 h
    exact .inl rfl
  | .or l r, _, h => by
    obtain ⟨-, -, rfl⟩ := typeOf_or.1 h
    exact .inl rfl
  | .not e, _, h => by
    obtain ⟨-, rfl⟩ := typeOf_not.1 h
    exact .inl rfl
  | .instanceOf e w, _, h => by
    obtain ⟨-, rfl⟩ := typeOf_instanceOf h
    exact .inl rfl
  | .cast w e, _, h => by
    obtain ⟨source, hSource, hCast⟩ := castType_of_typeOf h
    rw [Expr.any]
    cases hw : w.isWritten with
    | true => exact (typeOf_isProper hCtx e hSource).imp (castType_isProper hCtx · hCast hw) (by simp [·])
    | false => exact .inr (by simp [Expr.writesUnstorable, hw])
  | .conditional c a b, _, h => by
    obtain ⟨-, ta, tb, ha, hb, hType⟩ := typeOf_conditional.1 h
    rw [Expr.any]
    rcases typeOf_isProper hCtx a ha with hProper | hWrites
    · exact (typeOf_isProper hCtx b hb).imp (branchType_isProper hProper · hType) (by simp [·])
    · exact .inr (by simp [hWrites])
  | .assign op target value, _, h => by
    rw [Expr.any]
    rcases locationOf_cases (location_of_assign h) with hType | ⟨found, hFound, hType⟩
    · exact (typeOf_isProper hCtx target hType).imp_right (by simp [·])
    · exact .inl (target_isProper hCtx hFound hType)
  | .incDec increment before target, _, h => by
    rw [Expr.any]
    rcases locationOf_cases (location_of_incDec h) with hType | ⟨found, hFound, hType⟩
    · exact (typeOf_isProper hCtx target hType).imp_right (by simp [·])
    · exact .inl (target_isProper hCtx hFound hType)
  | .classLit w, _, h => by
    rw [typeOf_ok, denote, denoteWith] at h
    obtain ⟨-, -, h⟩ := except_bind_ok.1 h
    cases h
    exact .inl rfl
  | .index a i, _, h => by
    obtain ⟨array, _, hArray, -, hElement, -⟩ := typeOf_index h
    rw [Expr.any]
    exact (typeOf_isProper hCtx a hArray).imp (JavaType.isProper_of_element? · hElement) (by simp [·])
  | .call name args, t, h => by
    have hCalled {found : CallTarget} (h : Denotation.value found.selected.signature.result = .value t)
        (hFound : ctx.view.Selects found.selected) : t.isProper = true := by
      cases h
      exact result_isProper hCtx hFound
    rw [typeOf_ok, denote, denoteWith] at h
    refine .inl ?_
    split at h
    · obtain ⟨expanded, -, h⟩ := except_bind_ok.1 h
      obtain ⟨call, -, h⟩ := except_bind_ok.1 h
      split at h
      · obtain ⟨types, -, h⟩ := except_bind_ok.1 h
        obtain ⟨found, hFound, h⟩ := except_bind_ok.1 h
        exact hCalled (Except.ok.inj h) (callTarget_selects hFound)
      · split at h
        · cases h
        · split at h
          · obtain ⟨-, -, h⟩ := except_bind_ok.1 h
            cases h
            rfl
          · obtain ⟨types, -, h⟩ := except_bind_ok.1 h
            obtain ⟨found, hFound, h⟩ := except_bind_ok.1 h
            exact hCalled (Except.ok.inj h) (bareCall_selects hFound)
    · split at h
      · obtain ⟨-, -, h⟩ := except_bind_ok.1 h
        cases h
        rfl
      · obtain ⟨-, -, h⟩ := except_bind_ok.1 h
        obtain ⟨types, -, h⟩ := except_bind_ok.1 h
        obtain ⟨found, hFound, h⟩ := except_bind_ok.1 h
        exact hCalled (Except.ok.inj h) (bareCall_selects hFound)
  | .callOn target name args, _, h => by
    obtain ⟨types, found, -, hFound, rfl⟩ := typeOf_callOn h
    exact .inl (result_isProper hCtx (callTarget_selects hFound))
  | .new w args, _, h => by
    rw [Expr.any]
    cases hw : w.isWritten with
    | true => exact .inl ((Viewpoint.resolveType_isStorable (typeOf_new h).1).2 hw)
    | false => exact .inr (by simp [Expr.writesUnstorable, hw])
  | .newArray w lengths extra, _, h => by
    obtain ⟨base, hBase, -, rfl⟩ := typeOf_newArray h
    rw [Expr.any]
    exact (created_isProper hBase _).imp_right (by simp [Expr.writesUnstorable, ·])
  | .arrayOf w dims items, _, h => by
    obtain ⟨base, item, hBase, -, -, rfl⟩ := typeOf_arrayOf h
    rw [Expr.any]
    exact (created_isProper hBase _).imp_right (by simp [Expr.writesUnstorable, ·])
  | .arrayInit items, _, h => by
    rw [typeOf_ok, denote, denoteWith] at h
    cases h

end TypingContext

/-! Types of members. -/

open Emit

namespace Session

variable {s s' : Session}

theorem compileField_ok {decl : FieldDecl} {f : CompiledField} (h : compileField decl s = .ok f s') :
    ∃ type : JavaType, f.descriptor = type.descriptor ∧ type.isStorable = decl.type.isStorable := by
  obtain ⟨_, _, hGet, h⟩ := bind_ok.1 h
  obtain ⟨rfl, rfl⟩ := get_ok.1 hGet
  obtain ⟨type, _, hLift, h⟩ := bind_ok.1 h
  obtain ⟨hType, rfl⟩ := lift_ok.1 hLift
  refine ⟨type, ?_, (Viewpoint.resolveType_isStorable hType).1⟩
  dsimp only at h
  cases hInit : decl.init with
  | none =>
    rw [hInit] at h
    obtain ⟨rfl, -⟩ := pure_ok.1 h
    rfl
  | some init =>
    rw [hInit] at h
    obtain ⟨e, r, -, h⟩ := bind_ok.1 h
    generalize (if decl.modifiers.forField.isStatic && decl.modifiers.forField.isFinal then
      TypingContext.constant _ e else none) = constant at h
    cases constant with
    | none =>
      obtain ⟨code, _, -, h⟩ := bind_ok.1 h
      obtain ⟨rfl, -⟩ := pure_ok.1 h
      rfl
    | some c =>
      obtain ⟨rfl, -⟩ := pure_ok.1 h
      rfl

theorem compileMethod_ok {decl : MethodDecl} {m : CompiledMethod} (h : compileMethod decl s = .ok m s') :
    ∃ params result, m.descriptor = MethodType.descriptor ⟨params, result⟩ ∧
      params.map JavaType.isStorable = decl.params.map (·.written.isStorable) ∧
      result.isStorable = decl.result.isStorable := by
  obtain ⟨_, _, hGet, h⟩ := bind_ok.1 h
  obtain ⟨rfl, rfl⟩ := get_ok.1 hGet
  obtain ⟨result, _, hLift, h⟩ := bind_ok.1 h
  obtain ⟨hResult, rfl⟩ := lift_ok.1 hLift
  obtain ⟨params, _, hLift, h⟩ := bind_ok.1 h
  obtain ⟨rfl, hParams⟩ := mapM_lift_ok hLift
  obtain ⟨exceptions, _, -, h⟩ := bind_ok.1 h
  refine ⟨params, result, ?_, Viewpoint.map_isStorable hParams, (Viewpoint.resolveType_isStorable hResult).1⟩
  dsimp only at h
  generalize (decl.modifiers.forMethod.isAbstract ||
    decl.modifiers.forMethod.contains AccessFlags.nativeFlag) = bodiless at h
  cases hBody : decl.body <;> cases bodiless <;> rw [hBody] at h
  all_goals
    obtain ⟨code, _, -, h⟩ := bind_ok.1 h
    obtain ⟨rfl, -⟩ := pure_ok.1 h
    rfl

end Session

/-- Where `void` gets into the types of values, given that all declarations around have types of values. Every expression
is of such a type unless an array is made over `void` in it, and all arrays that are made over `void` are of no such type.
The descriptor of a field or a parameter that is compiled is that of a type which values can be stored in unless it was
declared `void`. -/
theorem void_in_value_types (ctx : TypingContext) (hCtx : ctx.isProper = true) :
    (∀ e t, ctx.typeOf e = .ok t → t.isProper = true ∨ e.any Expr.writesUnstorable = true) ∧
    (∀ w lengths extra t, ctx.typeOf (.newArray w lengths extra) = .ok t → 0 < lengths.length + extra →
      t.isProper = w.isStorable) ∧
    (∀ w dims items t, ctx.typeOf (.arrayOf w dims items) = .ok t → t.isProper = w.isStorable) ∧
    ∀ source s s',
      (∀ f, Session.compileMember source s = .ok (.field f) s' → ∃ decl r, ∃ type : JavaType,
        Session.read readMember source s = .ok (.field decl) r ∧ f.descriptor = type.descriptor ∧
          type.isStorable = decl.type.isStorable) ∧
      ∀ m, Session.compileMember source s = .ok (.method m) s' → ∃ decl r params result,
        Session.read readMember source s = .ok (.method decl) r ∧ m.descriptor = MethodType.descriptor ⟨params, result⟩ ∧
          params.map JavaType.isStorable = decl.params.map (·.written.isStorable) ∧
          result.isStorable = decl.result.isStorable := by
  refine ⟨fun e _ => TypingContext.typeOf_isProper hCtx e, fun w lengths extra t h hSome => ?_,
    fun w dims items t h => ?_, fun source s s' => ⟨fun f h => ?_, fun m h => ?_⟩⟩
  · obtain ⟨base, hBase, -, rfl⟩ := TypingContext.typeOf_newArray h
    exact Viewpoint.isProper_created hBase (by omega)
  · obtain ⟨base, item, hBase, hItem, -, rfl⟩ := TypingContext.typeOf_arrayOf h
    refine Viewpoint.isProper_created hBase fun hDims => ?_
    rw [JavaType.element?, JavaType.arrayOf, hDims] at hItem
    cases hItem
  · obtain ⟨member, r, hRead, h⟩ := bind_ok.1 h
    cases member with
    | method decl =>
      obtain ⟨_, -, hSame⟩ := map_ok.1 h
      cases hSame
    | field decl =>
      obtain ⟨_, hField, hSame⟩ := map_ok.1 h
      cases hSame
      exact ⟨decl, r, (Session.compileField_ok hField).imp fun _ h => ⟨hRead, h⟩⟩
  · obtain ⟨member, r, hRead, h⟩ := bind_ok.1 h
    cases member with
    | field decl =>
      obtain ⟨_, -, hSame⟩ := map_ok.1 h
      cases hSame
    | method decl =>
      obtain ⟨_, hMethod, hSame⟩ := map_ok.1 h
      cases hSame
      obtain ⟨params, result, hDeclared⟩ := Session.compileMethod_ok hMethod
      exact ⟨decl, r, params, result, hRead, hDeclared⟩

/-- An array of `void` is made, and a field is declared `void`. -/
theorem void_in_value_types_accepted :
    let ctx : TypingContext := { (default : TypingContext) with view := .ofClass ⟨[.ofName "demo/A"]⟩ "demo/A" [] }
    ctx.isProper = true ∧
      ctx.typeOf (.newArray (.primitive .void) [.int 3 .int] 0) = .ok (JavaType.void.arrayOf 1) ∧
      (JavaType.void.arrayOf 1).isProper = false ∧
      ∃ f s', Session.compileMember "void x;" (.start default "A" default default) = .ok (.field f) s' ∧
        f.descriptor = "V" := by
  intro ctx
  have hCtx : ctx.isProper = true := by decide +kernel
  have hType : ctx.typeOf (.newArray (.primitive .void) [.int 3 .int] 0) = .ok (JavaType.void.arrayOf 1) := by rfl
  exact ⟨hCtx, hType, (void_in_value_types ctx hCtx).2.1 _ _ _ _ hType Nat.zero_lt_one, _, _, rfl, rfl⟩

end JavaFragment
