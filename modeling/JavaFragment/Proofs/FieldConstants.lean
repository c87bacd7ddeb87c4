import JavaFragment.Proofs.CheckedTypes
import JavaFragment.Proofs.ExpressionCompilation
import JavaFragment.Proofs.MethodBodies
/-!
The constants that fields are given. A static final field stores the constant of its checked initial value as
it is. The constant is a value of the type of the field exactly if both types are stored alike: they are the
same, or both of the `int` family. An `int` given to a `long`, or a string given to an `Object`, is not.
-/
namespace JavaFragment

open Emit

theorem JavaType.isIntFamily_iff {t : JavaType} : t.isIntFamily ↔ ∃ kind : IntKind, t = .prim kind.primitive := by
  constructor
  · intro h
    unfold isIntFamily at h
    split at h
    · next hPrim => exact ⟨.byte, primitive?_eq_some.1 hPrim⟩
    · next hPrim => exact ⟨.char, primitive?_eq_some.1 hPrim⟩
    · next hPrim => exact ⟨.short, primitive?_eq_some.1 hPrim⟩
    · next hPrim => exact ⟨.int, primitive?_eq_some.1 hPrim⟩
    · cases h
  · rintro ⟨kind, rfl⟩
    cases kind <;> rfl

namespace Const

variable {c : Const} {type : JavaType}

/-- A number of the `int` family is stored in its range. -/
theorem hasType_int {v : Int32} {kind : IntKind} :
    (ConstantValue.int v).hasType (.prim kind.primitive) = (Value.int v).fits kind.primitive := by
  cases kind with
  | int =>
    have hLow := v.le_toInt
    have hHigh := v.toInt_lt
    simp [ConstantValue.hasType, BaseType.holdsConstant, JavaType.isBoolean, JavaType.isIntFamily,
      IntKind.primitive, Value.fits, JavaType.prim, JavaType.primitive?]
    omega
  | _ => rfl

theorem hasType_toFieldValue (h : c.toFieldValue.hasType type) :
    c.type = type ∨ (c.type.isIntFamily ∨ c.type = .boolean) ∧ (type.isIntFamily ∨ type = .boolean) := by
  cases c with
  | int v kind =>
    simp only [toFieldValue, ConstantValue.hasType, Bool.or_eq_true, Bool.and_eq_true] at h
    exact .inr ⟨.inl (JavaType.isIntFamily_iff.2 ⟨kind, rfl⟩),
      h.symm.imp And.left fun h => JavaType.isBoolean_iff.1 h.1⟩
  | bool b =>
    simp only [toFieldValue, ConstantValue.hasType, Bool.or_eq_true, Bool.and_eq_true] at h
    exact .inr ⟨.inr rfl, h.symm.imp And.left fun h => JavaType.isBoolean_iff.1 h.1⟩
  | _ => exact .inl (beq_iff_eq.1 h).symm

/-- A constant that may be assigned to a type is a value of it if both types are stored alike, and then it is
what its conversion gives. -/
theorem hasType_iff {ctx : TypingContext} {e : Expr} (hConst : ctx.constant e = some c)
    (hAssign : ctx.assignable e c.type type = .ok ()) :
    (c.toFieldValue.hasType c.type →
        (c.toFieldValue.hasType type ↔ c.type = type ∨ c.type.isIntFamily ∧ type.isIntFamily)) ∧
      (c.toFieldValue.hasType type →
        c.type = type ∨ ∃ p d, type = .prim p ∧ c.convert p = some d ∧ c.toFieldValue = d.toFieldValue) := by
  have hTruth {p q : Primitive} (hFrom : c.type = .prim p) (hTo : type = .prim q) : p = .boolean ↔ q = .boolean := by
    rw [hFrom, hTo] at hAssign
    rcases TypingContext.assign_ok.1 hAssign with hAssign | hNarrow
    · exact Viewpoint.assignable_truth hAssign
    · exact (TypingContext.narrows_int hNarrow).1
  have hOnly (h : c.toFieldValue.hasType type) : c.type = type ∨ c.type.isIntFamily ∧ type.isIntFamily := by
    rcases hasType_toFieldValue h with hSame | ⟨hFrom | hFrom, hTo | hTo⟩
    · exact .inl hSame
    · exact .inr ⟨hFrom, hTo⟩
    · obtain ⟨kind, hKind⟩ := JavaType.isIntFamily_iff.1 hFrom
      cases kind <;> cases (hTruth hKind hTo).2 rfl
    · obtain ⟨kind, hKind⟩ := JavaType.isIntFamily_iff.1 hTo
      cases kind <;> cases (hTruth hFrom hKind).1 rfl
    · exact .inl (hFrom.trans hTo.symm)
  -- Of two types of the `int` family, the constant is an `int` whatever its type.
  have hInts (h : c.type.isIntFamily ∧ type.isIntFamily) : ∃ v kind kind', c = .int v kind ∧
      type = .prim (IntKind.primitive kind') := by
    obtain ⟨kind', hTo⟩ := JavaType.isIntFamily_iff.1 h.2
    cases c with
    | int v kind => exact ⟨v, kind, kind', rfl, hTo⟩
    | _ => cases h.1
  refine ⟨fun hOwn => ⟨hOnly, ?_⟩, fun h => (hOnly h).imp id fun hAre => ?_⟩
  · rintro (hSame | hAre)
    · exact hSame ▸ hOwn
    · obtain ⟨v, kind, kind', rfl, rfl⟩ := hInts hAre
      refine hasType_int.trans ?_
      rcases TypingContext.assign_ok.1 hAssign with hAssign | hNarrow
      · exact Value.fits_assignable hAssign (hasType_int.symm.trans hOwn) hAre.2
      · rw [hConst] at hNarrow
        obtain ⟨-, a, _, hSame, hFits⟩ := TypingContext.narrows_int hNarrow
        cases hSame
        exact hFits
  · obtain ⟨v, kind, kind', rfl, rfl⟩ := hInts hAre
    obtain ⟨w, hConvert, hMeans⟩ := narrow_means v kind'
    rw [Value.convert_of_fits (hasType_int.symm.trans h)] at hConvert
    generalize hNarrow : narrow v kind' = u at hMeans
    cases hMeans
    cases hConvert
    exact ⟨_, .int (narrow v kind') kind', rfl, by cases kind' <;> rfl, by rw [hNarrow]; rfl⟩

end Const

/-- An initial value that checks and is a constant is an expression that may be assigned to its place. -/
theorem TypingContext.checkInitial_constant {ctx : TypingContext} {type : JavaType} {init e : Expr} {c : Const}
    (h : ctx.checkInitial type init = ⟨e, .ok ()⟩) (hConst : ctx.constant e = some c) :
    ∃ t, ctx.check init = ⟨e, .ok t⟩ ∧ ctx.assignable e t type = .ok () := by
  unfold checkInitial at h
  split at h
  · obtain ⟨items, -, rfl⟩ := Checked.map_ok.1 h
    simp [constant, constantWith] at hConst
  · exact Checked.require_ok.1 h

/-- A static final field stores the constant of its checked initial value. This is a value of the type of the
field exactly if it is of that type or both are of the `int` family. The field is then read as a constant of
its type, and what it stores is the constant converted to that type. -/
theorem Session.field_constant_type {s s' : Session} {decl : FieldDecl} {f : CompiledField}
    {stored : ConstantValue} (hTable : s.table.constantsFit) (hCheck : s.options.typeCheck)
    (h : compileField decl s = .ok f s') (hStored : f.constant = some stored) :
    let ctx := { s.context with isStatic := f.access.isStatic, result := .void }
    ∃ type init e t c, s.view.resolveType decl.type = .ok type ∧ f.descriptor = type.descriptor ∧
      decl.init = some init ∧ ctx.check init = ⟨e, .ok t⟩ ∧ ctx.constant e = some c ∧ c.type = t ∧
      stored = c.toFieldValue ∧
      (stored.hasType t → (stored.hasType type ↔ t = type ∨ t.isIntFamily ∧ type.isIntFamily)) ∧
      (stored.hasType type → (Const.ofField stored type).type = type ∧
        (t = type ∨ ∃ p d, type = .prim p ∧ c.convert p = some d ∧ stored = d.toFieldValue)) := by
  intro ctx
  obtain ⟨_, _, hGet, h⟩ := bind_ok.1 h
  obtain ⟨rfl, rfl⟩ := get_ok.1 hGet
  obtain ⟨type, _, hLift, h⟩ := bind_ok.1 h
  obtain ⟨hType, rfl⟩ := lift_ok.1 hLift
  cases hInit : decl.init with
  | none =>
    rw [hInit] at h
    obtain ⟨rfl, -⟩ := pure_ok.1 h
    cases hStored
  | some init =>
    rw [hInit] at h
    obtain ⟨e, _, hChecked, h⟩ := bind_ok.1 h
    obtain ⟨rfl, hLeft⟩ := checked_ok hChecked
    rw [if_pos hCheck] at hLeft
    obtain ⟨⟨_, hOutcome⟩, hTree⟩ := hLeft
    generalize hConst : (if decl.modifiers.forField.isStatic && decl.modifiers.forField.isFinal then
      TypingContext.constant _ e else none) = constant at h
    cases constant with
    | none =>
      obtain ⟨_, _, -, h⟩ := bind_ok.1 h
      obtain ⟨rfl, -⟩ := pure_ok.1 h
      cases hStored
    | some c =>
      obtain ⟨rfl, -⟩ := pure_ok.1 h
      cases hStored
      have hConst : ctx.constant e = some c := by
        split at hConst
        · exact hConst
        · cases hConst
      obtain ⟨t, hInner, hAssign⟩ := TypingContext.checkInitial_constant (by rw [hTree, ← hOutcome]) hConst
      cases TypingContext.constant_type hTable e (TypingContext.check_type hTable hInner) hConst
      obtain ⟨hFits, hConverts⟩ := Const.hasType_iff hConst hAssign
      exact ⟨type, init, e, _, c, hType, rfl, rfl, hInner, hConst, rfl, rfl, hFits, fun hOf =>
        ⟨Const.ofField_type hOf, hConverts hOf⟩⟩

/-- The constant `1` of a `byte` is one, and that of a `long` is an `int`. -/
theorem Session.field_constant_type_one : let s : Session := .start default "A" default default
    let one (p : Primitive) : FieldDecl := ⟨⟨24⟩, .primitive p, "X", some (.int 1 .int)⟩
    compileField (one .byte) s = .ok ⟨"X", "B", ⟨24⟩, some (.int 1), none⟩ s ∧
      (Const.ofField (.int 1) (.prim .byte)).type = .prim .byte ∧
      compileField (one .long) s = .ok ⟨"X", "J", ⟨24⟩, some (.int 1), none⟩ s ∧
      ¬ (ConstantValue.int 1).hasType (.prim .long) := by
  intro s one
  have hLong : compileField (one .long) s = .ok ⟨"X", "J", ⟨24⟩, some (.int 1), none⟩ s := by
    simp only [s, one]
    rfl
  have hByte : compileField (one .byte) s = .ok ⟨"X", "B", ⟨24⟩, some (.int 1), none⟩ s := by
    simp only [s, one]
    rfl
  refine ⟨hByte, ?_, hLong, ?_⟩
  · obtain ⟨_, _, _, _, _, hType, -, -, -, -, -, -, -, hOf⟩ := field_constant_type (by decide) rfl hByte rfl
    cases hType
    exact (hOf (by decide)).1
  · obtain ⟨_, _, _, _, _, hType, -, hInit, hChecked, -, -, -, hIff, -⟩ := field_constant_type (by decide) rfl hLong rfl
    cases hType
    cases hInit
    cases hChecked
    exact (hIff (by decide)).not.2 (by decide)

end JavaFragment
