import JavaFragment.Proofs.Typing
import Mathlib
/-!
The types of compile-time constants. A constant expression has a constant of its own type, provided that
the constants stored with fields are of the types of these fields.
-/
namespace JavaFragment

/-- Whether a stored constant is a value of a type. Truth values are stored as 0 and 1. -/
def ConstantValue.hasType (c : ConstantValue) (t : JavaType) : Bool :=
  match c with
  | .int v => t.isBoolean && (v == 0 || v == 1) || t.isIntFamily && t.base.holdsConstant v.toInt
  | .long _ => t == .long
  | .float _ => t == .float
  | .double _ => t == .double
  | .string _ => t == .string

/-- Whether the constant of a static final field is a value of the type of the field. -/
def FieldModel.constantFits (f : FieldModel) : Bool :=
  !(f.isStatic && f.access.isFinal) || match f.constant, f.type with
    | some c, .ok t => c.hasType t
    | _, _ => true

/-- Whether all constants stored in a table are values of the types of their fields. -/
def ClassTable.constantsFit (t : ClassTable) : Bool := t.classes.all fun c => c.fields.all FieldModel.constantFits

/-! Fields that are found are fields of the table. -/

namespace ClassTable

variable {table : ClassTable} {name : String}

theorem findFieldWithin_mem {steps : Nat} {owner : String} {found : Declared FieldModel}
    (h : table.findFieldWithin name steps owner = some found) :
    ∃ c ∈ table.classes, found.member ∈ c.fields := by
  induction steps generalizing owner with
  | zero => cases h
  | succ steps ih =>
    obtain ⟨c, hClass, h⟩ := Option.bind_eq_some_iff.1 h
    split at h
    · rename_i f hField
      cases h
      exact ⟨c, List.mem_of_find?_eq_some hClass, List.mem_of_find?_eq_some hField⟩
    · obtain ⟨parent, -, hParent⟩ := List.exists_of_findSome?_eq_some h
      exact ih hParent

theorem constantFits_of_findField (h : table.constantsFit) {owner : String}
    {found : Declared FieldModel} (hFound : table.findField owner name = some found) :
    found.member.constantFits := by
  obtain ⟨c, hc, hField⟩ := findFieldWithin_mem hFound
  exact List.all_eq_true.1 (List.all_eq_true.1 h c hc) _ hField

end ClassTable

/-- An access to a class's own field finds a static one whose constant fits. -/
def FieldTarget.Fits : FieldTarget → Prop
  | .ofClass f => f.member.isStatic ∧ f.member.constantFits
  | .arrayLength | .ofObject _ => True

namespace TypingContext

variable {ctx : TypingContext} {target : FieldTarget}

theorem nameTarget_fits (hTable : ctx.view.table.constantsFit) {name : String}
    (h : ctx.nameTarget name = .ok (some target)) : target.Fits := by
  unfold nameTarget at h
  split at h
  · cases h
  · split at h
    · rename_i field hField
      split at h
      · rename_i hStatic
        cases h
        exact ⟨hStatic, ClassTable.constantFits_of_findField hTable hField⟩
      · split at h <;> cases h
        trivial
    · obtain ⟨field, hField, rfl⟩ := Option.map_eq_some_iff.1 (Except.ok.inj h)
      obtain ⟨c, -, hOuter⟩ := List.exists_of_findSome?_eq_some hField
      obtain ⟨hFound, hStatic⟩ := Option.filter_eq_some_iff.1 hOuter
      exact ⟨hStatic, ClassTable.constantFits_of_findField hTable hFound⟩

theorem memberTarget_fits (hTable : ctx.view.table.constantsFit) {e : Expr} {name : String}
    {d : Denotation} (h : ctx.memberTarget e name d = .ok (some target)) : target.Fits := by
  cases d with
  | value type =>
    simp only [memberTarget] at h
    split at h
    · split at h <;> cases h
      trivial
    · split at h
      · cases h
      · rename_i owner _
        obtain ⟨field, hField, h⟩ := except_bind_ok.1 h
        cases h
        unfold Viewpoint.lookupField at hField
        split at hField <;> cases hField
        rename_i hFound
        split
        · rename_i hStatic
          exact ⟨hStatic, ClassTable.constantFits_of_findField hTable hFound⟩
        · trivial
  | «class» owner =>
    simp only [memberTarget] at h
    split at h
    · rename_i field hFound
      split at h <;> cases h
      rename_i hStatic
      exact ⟨hStatic, ClassTable.constantFits_of_findField hTable hFound⟩
    · split at h <;> cases h
  | package => cases h

end TypingContext

/-! Constants and their types. -/

namespace Const

variable {op : BinaryOp}

/-- The type of a constant. -/
def type : Const → JavaType
  | .int _ kind => .prim kind.primitive
  | .long _ => .long
  | .float _ => .float
  | .double _ => .double
  | .bool _ => .boolean
  | .string _ => .string

variable {c d e : Const} {p : Primitive} {t : JavaType}

theorem type_eq_string (h : c.type = .string) : ∃ text, c = .string text := by
  cases c with
  | string text => exact ⟨text, rfl⟩
  | int _ kind => cases kind <;> cases h
  | _ => cases h

theorem type_eq_boolean (h : c.type = .boolean) : ∃ b, c = .bool b := by
  cases c with
  | bool b => exact ⟨b, rfl⟩
  | int _ kind => cases kind <;> cases h
  | _ => cases h

theorem ofField_type {v : ConstantValue} (h : v.hasType t) : (ofField v t).type = t := by
  cases v with
  | int v =>
    simp only [ConstantValue.hasType, Bool.or_eq_true, Bool.and_eq_true] at h
    rcases h with ⟨hTruth, -⟩ | ⟨hInt, -⟩
    · rw [JavaType.isBoolean_iff.1 hTruth]
      rfl
    · obtain ⟨q, hq⟩ : ∃ q, t.primitive? = some q := by
        unfold JavaType.isIntFamily at hInt
        cases hPrim : t.primitive? with
        | none => rw [hPrim] at hInt; cases hInt
        | some q => exact ⟨q, rfl⟩
      obtain rfl := JavaType.primitive?_eq_some.1 hq
      cases q <;> first | rfl | cases hInt
  | _ => exact (beq_iff_eq.1 h).symm

theorem convert_type (h : c.convert p = some d) : d.type = .prim p := by
  cases c <;> cases p <;> cases h <;> rfl

theorem promoted?_type (c : Const) : c.type.promoted? = c.promoted?.map .prim := by
  cases c with
  | int _ kind => cases kind <;> rfl
  | _ => rfl

theorem promotedWith?_type (c d : Const) : c.type.promotedWith? d.type = (c.promotedWith? d).map .prim := by
  cases c with
  | int _ j =>
    cases d with
    | int _ k => cases j <;> cases k <;> rfl
    | _ => cases j <;> rfl
  | _ =>
    cases d with
    | int _ k => cases k <;> rfl
    | _ => rfl

/-- A constant of the type that an operand is promoted to is an `int` as such. -/
theorem int_of_promoted {rank : Nat} {v : Int32} {kind : IntKind}
    (h : (Const.int v kind).type = .prim (.ofRank rank)) : kind = .int := by
  have h := JavaType.prim_inj h
  match rank with
  | 0 => cases kind <;> first | rfl | cases h
  | 1 | 2 | _ + 3 => cases kind <;> cases h

theorem unary_type {op : UnaryOp} (hOp : TypingContext.unaryType op c.type = some t)
    (h : unary op c = some d) : d.type = t := by
  have hPromoted : c.promoted?.map .prim = some t := by
    rw [← promoted?_type]
    unfold TypingContext.unaryType at hOp
    split at hOp
    · cases hOp
    · exact hOp
  obtain ⟨p, hp, rfl⟩ := Option.map_eq_some_iff.1 hPromoted
  obtain ⟨q, hq, h⟩ := Option.bind_eq_some_iff.1 h
  obtain rfl : q = p := Option.some.inj (hq.symm.trans hp)
  obtain ⟨promoted, hConvert, h⟩ := Option.bind_eq_some_iff.1 h
  rw [← convert_type hConvert]
  cases op <;> cases promoted <;> cases h <;> rfl

theorem shift_type (h : shift op c d = some e) : c.type.promoted? = some e.type := by
  obtain ⟨count, -, h⟩ := Option.bind_eq_some_iff.1 h
  obtain ⟨p, hp, h⟩ := Option.bind_eq_some_iff.1 h
  rw [promoted?_type, hp]
  split at h
  · obtain ⟨v, -, h⟩ := Option.bind_eq_some_iff.1 h
    cases h
    rfl
  · obtain ⟨v, -, h⟩ := Option.bind_eq_some_iff.1 h
    cases h
    rfl
  · cases h

theorem rank_of_promotedWith? (h : c.promotedWith? d = some p) : ∃ rank, p = .ofRank rank := by
  obtain ⟨_, -, h⟩ := Option.bind_eq_some_iff.1 h
  obtain ⟨_, -, h⟩ := Option.bind_eq_some_iff.1 h
  obtain ⟨_, -, h⟩ := Option.bind_eq_some_iff.1 h
  obtain ⟨_, -, h⟩ := Option.bind_eq_some_iff.1 h
  exact ⟨_, (Option.some.inj h).symm⟩

theorem arithmetic_type (h : arithmetic op c d = some e) : c.type.promotedWith? d.type = some e.type := by
  obtain ⟨p, hp, h⟩ := Option.bind_eq_some_iff.1 h
  obtain ⟨a, ha, h⟩ := Option.bind_eq_some_iff.1 h
  obtain ⟨b, -, h⟩ := Option.bind_eq_some_iff.1 h
  have hType := convert_type ha
  rw [promotedWith?_type, hp, Option.map_some, ← hType]
  obtain ⟨rank, hRank⟩ := rank_of_promotedWith? hp
  split at h
  · obtain ⟨v, -, rfl⟩ := Option.map_eq_some_iff.1 h
    obtain rfl := int_of_promoted (hRank ▸ hType)
    rfl
  · obtain ⟨v, -, rfl⟩ := Option.map_eq_some_iff.1 h
    rfl
  · obtain ⟨v, -, rfl⟩ := Option.map_eq_some_iff.1 h
    rfl
  · obtain ⟨v, -, rfl⟩ := Option.map_eq_some_iff.1 h
    rfl
  · cases h

theorem binary_type (hOp : TypingContext.binaryType op c.type d.type = some t)
    (h : binary op c d = some e) : e.type = t := by
  unfold binary at h
  split at h
  · cases h
    cases d with
    | int _ kind => cases kind <;> cases hOp <;> rfl
    | _ => cases hOp; rfl
  · cases h
    cases c with
    | int _ kind => cases kind <;> cases hOp <;> rfl
    | _ => cases hOp; rfl
  · cases op <;> cases h <;> cases hOp <;> rfl
  · rename_i hLeft hRight hTruths
    unfold TypingContext.binaryType at hOp
    split at hOp
    · rename_i hString
      simp only [Bool.and_eq_true, decide_eq_true_eq, Bool.or_eq_true, JavaType.isString_iff] at hString
      obtain ⟨rfl, hString | hString⟩ := hString
      · obtain ⟨text, rfl⟩ := type_eq_string hString
        exact (hLeft text rfl rfl).elim
      · obtain ⟨text, rfl⟩ := type_eq_string hString
        exact (hRight text rfl rfl).elim
    · split at hOp
      · rename_i hBits
        simp only [Bool.and_eq_true, JavaType.isBoolean_iff] at hBits
        obtain ⟨a, rfl⟩ := type_eq_boolean hBits.1.2
        obtain ⟨b, rfl⟩ := type_eq_boolean hBits.2
        exact (hTruths a b rfl rfl).elim
      · split at hOp
        · cases hOp
        · split at h
          · rename_i hShift
            rw [if_pos hShift] at hOp
            exact Option.some.inj ((shift_type h).symm.trans hOp)
          · rename_i hShift
            rw [if_neg hShift] at hOp
            exact Option.some.inj ((arithmetic_type h).symm.trans hOp)

end Const

/-- The constant of an access is the stored one. -/
theorem FieldTarget.Fits.stored {target : FieldTarget} {c : Const} {t : JavaType}
    (h : target.Fits) (hType : target.type = .ok t) (hConst : target.constant? = some c) :
    ∃ value : ConstantValue, value.hasType t ∧ c = .ofField value t := by
  cases target with
  | arrayLength | ofObject => cases hConst
  | ofClass f =>
    simp only [FieldTarget.constant?] at hConst
    split at hConst
    · rename_i hFinal
      obtain ⟨type, hOwn, hConst⟩ := Option.bind_eq_some_iff.1 hConst
      obtain ⟨value, hValue, hConst⟩ := Option.bind_eq_some_iff.1 hConst
      cases hConst
      have hType : f.member.type = .ok t := hType
      rw [hType] at hOwn
      cases hOwn
      have hFits : f.member.constantFits := h.2
      simp only [FieldModel.constantFits, h.1, hFinal, hValue, hType] at hFits
      exact ⟨value, hFits, rfl⟩
    · cases hConst

theorem FieldTarget.Fits.constant_type {target : FieldTarget} {c : Const} {t : JavaType}
    (h : target.Fits) (hType : target.type = .ok t) (hConst : target.constant? = some c) :
    c.type = t := by
  obtain ⟨value, hFits, rfl⟩ := h.stored hType hConst
  exact Const.ofField_type hFits

/-! Classes that are named by what is written in casts of the other kinds. -/

namespace Viewpoint

variable {v : Viewpoint} {name found : String}

theorem simpleName_suffix (internal : String) : (simpleName internal).toList <:+ internal.toList := by
  have h := List.takeWhile_prefix (fun c => c != '/') (l := internal.toList.reverse)
  rw [simpleName, String.toList_ofList]
  simpa using List.reverse_suffix.2 h

theorem existing_eq {other : String} (h : v.existing name = some other) : other = name := by
  unfold existing at h
  split at h <;> cases h
  rfl

/-- The class that a simple name means ends with that name. -/
theorem findSimple_suffix (h : v.findSimple name = some found) : name.toList <:+ found.toList := by
  unfold findSimple at h
  rw [Option.orElse_eq_orElse, Option.orElse_eq_or] at h
  rcases Option.or_eq_some_iff.1 h with h | ⟨-, h⟩
  · obtain ⟨c, -, h⟩ := List.exists_of_findSome?_eq_some h
    split at h
    · rename_i hName
      cases h
      exact hName ▸ simpleName_suffix _
    · rw [existing_eq h, String.toList_append]
      exact List.suffix_append ..
  · rcases List.mem_cons.1 (List.mem_of_find?_eq_some h) with rfl | hImport
    · split
      · rw [String.toList_append]
        exact List.suffix_append ..
      · exact List.suffix_refl _
    · obtain ⟨package, -, rfl⟩ := List.mem_map.1 hImport
      rw [String.toList_append]
      exact List.suffix_append ..

theorem resolveType_named {t : JavaType} (h : v.resolveType (.named name) = .ok t) :
    ∃ c, v.findClass name = some c ∧ t = .ofClass c := by
  obtain ⟨base, hBase, h⟩ := except_bind_ok.1 h
  cases h
  change BaseType.class <$> v.resolveClass name = .ok base at hBase
  unfold resolveClass at hBase
  split at hBase
  · rename_i c hFound
    cases hBase
    exact ⟨c, hFound, rfl⟩
  · cases hBase

/-- The name in a cast to the type of the result, or in one that boxes, is not that of strings. -/
theorem resolveType_marker {written : WrittenType} {t : JavaType}
    (hMarker : written = resultCast ∨ written = boxCast) (h : v.resolveType written = .ok t) :
    t ≠ .string := by
  rintro rfl
  rcases hMarker with rfl | rfl
  · obtain ⟨c, hFound, hString⟩ := resolveType_named h
    cases hString
    rw [findClass, show nameParts "$r" = ["$r"] by cbv] at hFound
    exact absurd (findSimple_suffix hFound) (by decide)
  · obtain ⟨c, hFound, hString⟩ := resolveType_named h
    cases hString
    rw [findClass, show nameParts "$w" = ["$w"] by cbv] at hFound
    exact absurd (findSimple_suffix hFound) (by decide)

end Viewpoint

namespace TypingContext

variable {ctx : TypingContext} {t : JavaType} {target : FieldTarget}

theorem typeOf_toExpr (c : Const) : ctx.typeOf c.toExpr = .ok c.type := by
  cases c <;> rw [typeOf_ok, Const.toExpr, denote, denoteWith] <;> rfl

/-- A choice between constants of two types is of the type of either, unless both are numbers. -/
theorem branchType_constants {c d : Const} (h : ctx.branchType c.type d.type = some t)
    (hNumeric : t.isNumeric = false) : t = c.type ∧ t = d.type := by
  unfold branchType at h
  split at h
  · rename_i hSame
    cases h
    exact ⟨rfl, hSame⟩
  · rename_i hDiffer
    exfalso
    split at h
    · rw [Const.promotedWith?_type] at h
      obtain ⟨p, hp, rfl⟩ := Option.map_eq_some_iff.1 h
      obtain ⟨rank, rfl⟩ := Const.rank_of_promotedWith? hp
      match rank with
      | 0 | 1 | 2 | _ + 3 => cases hNumeric
    · split at h
      · cases h
      · rename_i hReferences
        -- Two constants that are references are strings both.
        have hString (k : Const) (hk : k.type.isReference) : k.type = .string := by
          cases k with
          | string => rfl
          | int _ kind => cases kind <;> cases hk
          | _ => cases hk
        simp only [Bool.not_eq_true, Bool.not_eq_false', Bool.and_eq_true] at hReferences
        exact hDiffer ((hString c hReferences.1).trans (hString d hReferences.2).symm)

/-- The constant of an expression has the type of the expression. -/
theorem constant_type (hTable : ctx.view.table.constantsFit) : (e : Expr) → ∀ {t c},
    ctx.typeOf e = .ok t → ctx.constant e = some c → c.type = t
  | .int _ _, _, _, hType, hConst | .long _, _, _, hType, hConst | .float _, _, _, hType, hConst
  | .double _, _, _, hType, hConst | .string _, _, _, hType, hConst | .bool _, _, _, hType, hConst => by
    rw [constant, constantWith] at hConst
    rw [typeOf_ok, denote, denoteWith] at hType
    cases hConst
    cases hType
    rfl
  | .name n, t, c, hType, hConst => by
    rw [constant, constantWith] at hConst
    obtain ⟨x, hTarget, hConst⟩ := Option.bind_eq_some_iff.1 hConst
    obtain ⟨target, rfl, hConst⟩ := Option.bind_eq_some_iff.1 hConst
    rw [except_toOption] at hTarget
    exact (nameTarget_fits hTable hTarget).constant_type (typeOf_name hType hTarget) hConst
  | .field e n, t, c, hType, hConst => by
    rw [constant, constantWith] at hConst
    obtain ⟨d, hDenote, hConst⟩ := Option.bind_eq_some_iff.1 hConst
    obtain ⟨x, hTarget, hConst⟩ := Option.bind_eq_some_iff.1 hConst
    obtain ⟨target, rfl, hConst⟩ := Option.bind_eq_some_iff.1 hConst
    rw [except_toOption] at hDenote hTarget
    exact (memberTarget_fits hTable hTarget).constant_type (typeOf_field hType hDenote hTarget) hConst
  | .unary op e, t, c, hType, hConst => by
    obtain ⟨a, hTypeE, hUnary⟩ := typeOf_unary.1 hType
    rw [constant, constantWith] at hConst
    obtain ⟨d, hConstE, hConst⟩ := Option.bind_eq_some_iff.1 hConst
    obtain rfl := constant_type hTable e hTypeE hConstE
    exact Const.unary_type hUnary hConst
  | .binary op l r, t, c, hType, hConst => by
    obtain ⟨a, b, hTypeL, hTypeR, hBinary⟩ := typeOf_binary.1 hType
    rw [constant, constantWith] at hConst
    obtain ⟨x, hConstL, hConst⟩ := Option.bind_eq_some_iff.1 hConst
    obtain ⟨y, hConstR, hConst⟩ := Option.bind_eq_some_iff.1 hConst
    obtain rfl := constant_type hTable l hTypeL hConstL
    obtain rfl := constant_type hTable r hTypeR hConstR
    exact Const.binary_type hBinary hConst
  | .compare op l r, t, c, hType, hConst => by
    obtain ⟨_, _, _, _, _, rfl⟩ := typeOf_compare.1 hType
    rw [constant, constantWith] at hConst
    obtain ⟨x, -, hConst⟩ := Option.bind_eq_some_iff.1 hConst
    obtain ⟨y, -, hConst⟩ := Option.bind_eq_some_iff.1 hConst
    obtain ⟨truth, -, hConst⟩ := Option.bind_eq_some_iff.1 hConst
    cases hConst
    rfl
  | .and l r, t, c, hType, hConst => by
    obtain ⟨_, _, rfl⟩ := typeOf_and.1 hType
    rw [constant, constantWith] at hConst
    obtain ⟨x, -, hConst⟩ := Option.bind_eq_some_iff.1 hConst
    obtain ⟨y, -, hConst⟩ := Option.bind_eq_some_iff.1 hConst
    split at hConst <;> cases hConst
    rfl
  | .or l r, t, c, hType, hConst => by
    obtain ⟨_, _, rfl⟩ := typeOf_or.1 hType
    rw [constant, constantWith] at hConst
    obtain ⟨x, -, hConst⟩ := Option.bind_eq_some_iff.1 hConst
    obtain ⟨y, -, hConst⟩ := Option.bind_eq_some_iff.1 hConst
    split at hConst <;> cases hConst
    rfl
  | .not e, t, c, hType, hConst => by
    obtain ⟨_, rfl⟩ := typeOf_not.1 hType
    rw [constant, constantWith] at hConst
    obtain ⟨x, -, hConst⟩ := Option.bind_eq_some_iff.1 hConst
    split at hConst <;> cases hConst
    rfl
  | .cast written e, t, c, hType, hConst => by
    rw [constant, constantWith] at hConst
    obtain ⟨x, -, hConst⟩ := Option.bind_eq_some_iff.1 hConst
    split at hConst
    · obtain ⟨a, -, -, rfl⟩ := typeOf_cast.1 hType
      exact Const.convert_type hConst
    · obtain ⟨target, hTarget, hConst⟩ := Option.bind_eq_some_iff.1 hConst
      rw [except_toOption] at hTarget
      split at hConst
      · rename_i hString
        cases hConst
        obtain ⟨a, -, hCast⟩ := castType_of_typeOf hType
        have hPlain := fun hMarker => Viewpoint.resolveType_marker hMarker hTarget (JavaType.isString_iff.1 hString)
        rw [castType, if_neg fun h => hPlain (.inl h), if_neg fun h => hPlain (.inr h), hTarget] at hCast
        change (if isCastable a target then Except.ok target else _) = _ at hCast
        split at hCast <;> cases hCast
        exact (JavaType.isString_iff.1 hString).symm
      · cases hConst
    · cases hConst
  | .conditional test a b, t, c, hType, hConst => by
    obtain ⟨-, ta, tb, hTypeA, hTypeB, hBranch⟩ := typeOf_conditional.1 hType
    rw [constant, constantWith] at hConst
    obtain ⟨x, -, hConst⟩ := Option.bind_eq_some_iff.1 hConst
    split at hConst
    · rename_i pick
      obtain ⟨x, hConstA, hConst⟩ := Option.bind_eq_some_iff.1 hConst
      obtain ⟨y, hConstB, hConst⟩ := Option.bind_eq_some_iff.1 hConst
      obtain ⟨type, hCond, hConst⟩ := Option.bind_eq_some_iff.1 hConst
      rw [conditionalType_of_typeOf hType] at hCond
      cases hCond
      obtain rfl := constant_type hTable a hTypeA hConstA
      obtain rfl := constant_type hTable b hTypeB hConstB
      have hChosen (hNumeric : t.isNumeric = false) : (if pick then x else y).type = t := by
        obtain ⟨hx, hy⟩ := branchType_constants hBranch hNumeric
        split
        · exact hx.symm
        · exact hy.symm
      dsimp only at hConst
      generalize (if pick then x else y) = chosen at hConst hChosen
      split at hConst
      · rename_i p hPrim
        split at hConst
        · rw [JavaType.primitive?_eq_some.1 hPrim]
          exact Const.convert_type hConst
        · rename_i hNumeric
          cases hConst
          exact hChosen (by simpa using hNumeric)
      · rename_i hPrim
        cases hConst
        exact hChosen (by simp [JavaType.isNumeric, hPrim])
    · cases hConst
  | .thisRef, _, _, _, hConst | .superRef, _, _, _, hConst | .nullRef, _, _, _, hConst
  | .var _, _, _, _, hConst | .instanceOf _ _, _, _, _, hConst | .assign _ _ _, _, _, _, hConst
  | .incDec _ _ _, _, _, _, hConst | .classLit _, _, _, _, hConst | .index _ _, _, _, _, hConst
  | .call _ _, _, _, _, hConst | .callOn _ _ _, _, _, _, hConst | .new _ _, _, _, _, hConst
  | .newArray _ _ _, _, _, _, hConst | .arrayOf _ _ _, _, _, _, hConst | .arrayInit _, _, _, _, hConst
  | .concat _, _, _, _, hConst => by simp [constant, constantWith] at hConst

end TypingContext

end JavaFragment
