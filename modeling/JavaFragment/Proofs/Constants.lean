import JavaFragment.Proofs.ConstantTypes
import JavaFragment.Proofs.Operators
/-!
Compile-time constants over integers and truth values. The operators on constants compute what
evaluation computes, so that a constant expression has its constant as its value.
-/
namespace JavaFragment

/-- A constant of a type stands for a value. -/
inductive Const.Means : Const → Primitive → Value → Prop where
  | int (a : Int32) (kind : IntKind) : Means (.int a kind) kind.primitive (.int a)
  | long (a : Int64) : Means (.long a) .long (.long a)
  | bool (b : Bool) : Means (.bool b) .boolean (.bool b)

namespace Const

variable {c d : Const} {p q : Primitive} {v w : Value} {op : BinaryOp}

theorem Means.fits (h : c.Means p v) : v.fits p.promoted := by
  cases h with
  | int a kind => cases kind <;> rfl
  | long | bool => rfl

theorem Means.ofInt (a : Int32) : (Const.int a .int).Means .int (.int a) := .int a .int

theorem Means.isDiscrete (h : c.Means p v) : p.isDiscrete := by
  cases h with
  | int a kind => cases kind <;> rfl
  | long | bool => rfl

theorem Means.type (h : c.Means p v) : c.type = .prim p := by
  cases h <;> rfl

theorem Means.eq_int (h : c.Means p v) (hp : p.promoted = .int) : ∃ a, v = .int a :=
  Value.eq_int h.fits (by rw [hp]; rfl)

theorem Means.eq_long (h : c.Means p v) (hp : p.promoted = .long) : ∃ a, v = .long a :=
  Value.eq_long h.fits (by rw [hp]; rfl)

theorem Means.eq_bool (h : c.Means p v) (hp : p.promoted = .boolean) : ∃ b, c = .bool b ∧ v = .bool b := by
  cases h with
  | int a kind => cases kind <;> cases hp
  | long => cases hp
  | bool b => exact ⟨b, rfl, rfl⟩

/-! Conversion. -/

/-- Cutting down an `int` is its conversion. -/
theorem narrow_means (a : Int32) (kind : IntKind) : ∃ w, (Value.int a).convert kind.primitive = some w ∧
      (Const.int (narrow a kind) kind).Means kind.primitive w := by
  have hConvert : (Value.int a).convert kind.primitive = some (.int (narrow a kind)) := by
    cases kind with
    | byte => exact congrArg (fun v => some (Value.int v)) (Conversion.toByte_eq a).symm
    | short => exact congrArg (fun v => some (Value.int v)) (Conversion.toShort_eq a).symm
    | char => exact congrArg (fun v => some (Value.int v)) (Conversion.toChar_eq a).symm
    | int => exact congrArg (fun v => some (Value.int v)) (Int32.ofInt_toInt a)
  exact ⟨_, hConvert, .int _ _⟩

theorem Means.convert (h : c.Means p v) (hq : q.isDiscrete) (hConvert : c.convert q = some d) :
    ∃ w, v.convert q = some w ∧ d.Means q w := by
  cases h with
  | bool b =>
    simp only [Const.convert] at hConvert
    split at hConvert <;> cases hConvert
    subst q
    exact ⟨_, rfl, .bool b⟩
  | int a kind =>
    cases q with
    | byte => cases hConvert; exact narrow_means a .byte
    | short => cases hConvert; exact narrow_means a .short
    | char => cases hConvert; exact narrow_means a .char
    | int => cases hConvert; exact narrow_means a .int
    | long => cases hConvert; exact ⟨_, Value.convert_int_long a, .long _⟩
    | boolean => cases hConvert
    | void | float | double => cases hq
  | long a =>
    cases q with
    | byte =>
      cases hConvert
      rw [← Value.convert_through_int a (by decide)]
      exact narrow_means _ .byte
    | short =>
      cases hConvert
      rw [← Value.convert_through_int a (by decide)]
      exact narrow_means _ .short
    | char =>
      cases hConvert
      rw [← Value.convert_through_int a (by decide)]
      exact narrow_means _ .char
    | int =>
      cases hConvert
      rw [← Value.convert_through_int a (by decide)]
      exact narrow_means _ .int
    | long => cases hConvert; exact ⟨_, Value.convert_of_fits rfl, .long a⟩
    | boolean => cases hConvert
    | void | float | double => cases hq

/-- The constant that a choice gives, converted to the type of the choice. -/
theorem Means.choose (h : c.Means p v) (hq : q.isDiscrete) (hTruth : p = .boolean ↔ q = .boolean)
    (hChoice : (if (JavaType.prim q).isNumeric then c.convert q else some c) = some d) :
    ∃ w, v.convert q = some w ∧ d.Means q w := by
  split at hChoice
  · exact h.convert hq hChoice
  · rename_i hNumeric
    obtain rfl : q = .boolean := by
      cases q with
      | boolean => rfl
      | void => cases hq
      | _ => exact (hNumeric rfl).elim
    obtain rfl := hTruth.2 rfl
    cases hChoice
    exact ⟨v, Value.convert_of_fits h.fits, h⟩

/-! Operators. -/

theorem intOperation_arith (o : ArithOp) (a b : Int32) :
    intOperation o.operator a b = o.onInts a b := by cases o <;> rfl

theorem intOperation_bits (o : BitOp) (a b : Int32) :
    intOperation o.operator a b = some (o.onInts a b) := by cases o <;> rfl

theorem longOperation_arith (o : ArithOp) (a b : Int64) :
    longOperation o.operator a b = o.onLongs a b := by cases o <;> rfl

theorem longOperation_bits (o : BitOp) (a b : Int64) :
    longOperation o.operator a b = some (o.onLongs a b) := by cases o <;> rfl

theorem onInts_of_intOperation {a b c : Int32} (h : intOperation op a b = some c) :
    Value.onInts op a.toInt b.toInt = .ok (.int c) := by
  rcases op.operator_cases with ⟨o, rfl⟩ | ⟨o, rfl⟩ | ⟨o, rfl⟩
  · rw [intOperation_arith] at h
    rw [o.onInts_eq, h]
  · cases o <;> cases h
  · rw [intOperation_bits] at h
    cases h
    exact o.onInts_eq a b

theorem onLongs_of_longOperation {a b c : Int64} (h : longOperation op a b = some c) :
    Value.onLongs op a.toInt b.toInt = .ok (.long c) := by
  rcases op.operator_cases with ⟨o, rfl⟩ | ⟨o, rfl⟩ | ⟨o, rfl⟩
  · rw [longOperation_arith] at h
    rw [o.onLongs_eq, h]
  · cases o <;> cases h
  · rw [longOperation_bits] at h
    cases h
    exact o.onLongs_eq a b

theorem shiftInt_eq (o : ShiftOp) (a : Int32) (count : Int64) :
    shiftInt o.operator a count = o.onInt a count.toInt32 := by
  have hCount : count.toUInt64.toUInt32 = count.toInt32.toUInt32 := by
    apply UInt32.toBitVec_inj.1
    rw [UInt64.toBitVec_toUInt32, Int32.toBitVec_toUInt32, Int64.toBitVec_toInt32,
      Int64.toBitVec_toUInt64, BitVec.signExtend_eq_setWidth_of_le _ (by decide)]
  cases o <;> simp only [shiftInt, ShiftOp.operator, ShiftOp.onInt, hCount]

theorem shiftLong_eq (o : ShiftOp) (a count : Int64) : shiftLong o.operator a count = o.onLong a count.toInt32 := by
  have hCount : count.toUInt64 &&& 63 = count.toInt32.toInt64.toUInt64 &&& 63 := by
    apply UInt64.toBitVec_inj.1
    rw [longPlaces_eq, longPlaces_eq, Int32.toInt_toInt64, toInt32_emod count (by decide)]
  cases o <;> simp only [shiftLong, ShiftOp.operator, ShiftOp.onLong, hCount]

theorem onInts_of_shift (hOp : op.isShift) (a : Int32) (count : Int64) :
    Value.onInts op a.toInt count.toInt = .ok (.int (shiftInt op a count)) := by
  rcases op.operator_cases with ⟨o, rfl⟩ | ⟨o, rfl⟩ | ⟨o, rfl⟩
  · rw [o.not_shift] at hOp; cases hOp
  · rw [shiftInt_eq]
    exact o.onInts_eq a _ (toInt32_emod count (by decide)).symm
  · rw [o.not_shift] at hOp; cases hOp

theorem onLongs_of_shift (hOp : op.isShift) (a count : Int64) :
    Value.onLongs op a.toInt count.toInt = .ok (.long (shiftLong op a count)) := by
  rcases op.operator_cases with ⟨o, rfl⟩ | ⟨o, rfl⟩ | ⟨o, rfl⟩
  · rw [o.not_shift] at hOp; cases hOp
  · rw [shiftLong_eq]
    exact o.onLongs_eq a _ (toInt32_emod count (by decide)).symm
  · rw [o.not_shift] at hOp; cases hOp

section

variable (op : BinaryOp)

theorem binary_ints (a b : Int32) (j k : IntKind) : binary op (.int a j) (.int b k) =
    if op.isShift then some (.int (shiftInt op a b.toInt64) .int)
    else (intOperation op a b).map fun c => .int c .int := by
  cases op <;> cases j <;> cases k <;> rfl

theorem binary_intLong (a : Int32) (j : IntKind) (b : Int64) : binary op (.int a j) (.long b) =
    if op.isShift then some (.int (shiftInt op a b) .int)
    else (longOperation op a.toInt64 b).map .long := by
  cases op <;> cases j <;> rfl

theorem binary_longInt (a : Int64) (b : Int32) (k : IntKind) : binary op (.long a) (.int b k) =
    if op.isShift then some (.long (shiftLong op a b.toInt64))
    else (longOperation op a b.toInt64).map .long := by
  cases op <;> cases k <;> rfl

theorem binary_longs (a b : Int64) : binary op (.long a) (.long b) =
    if op.isShift then some (.long (shiftLong op a b)) else (longOperation op a b).map .long := by
  cases op <;> rfl

theorem binary_truths (a b : Bool) : binary op (.bool a) (.bool b) = (boolOperation op a b).map .bool := by
  cases op <;> rfl

end

/-- An operator on constants computes it on their values. -/
theorem Means.binary {e : Const} {r : Primitive} (hc : c.Means p v) (hd : d.Means q w)
    (hType : op.Typed p q r) (h : Const.binary op c d = some e) :
    ∃ u, Value.binary op v w = .ok u ∧ e.Means r u := by
  cases hType with
  | truths hp hq hOp =>
    obtain ⟨a, rfl, rfl⟩ := hc.eq_bool hp
    obtain ⟨b, rfl, rfl⟩ := hd.eq_bool hq
    rw [binary_truths] at h
    cases op <;> cases h <;> exact ⟨_, rfl, .bool _⟩
  | ints hp hq =>
    obtain ⟨a, rfl⟩ := hc.eq_int hp
    obtain ⟨b, rfl⟩ := hd.eq_int hq
    cases hc
    cases hd
    rw [binary_ints] at h
    split at h
    · rename_i hOp
      cases h
      refine ⟨_, ?_, .ofInt _⟩
      rw [← onInts_of_shift hOp, Int32.toInt_toInt64]
      rfl
    · obtain ⟨x, hx, rfl⟩ := Option.map_eq_some_iff.1 h
      exact ⟨_, onInts_of_intOperation hx, .ofInt _⟩
  | shiftedInt hp hq hOp =>
    obtain ⟨a, rfl⟩ := hc.eq_int hp
    obtain ⟨b, rfl⟩ := hd.eq_long hq
    cases hc
    cases hd
    rw [binary_intLong, if_pos hOp] at h
    cases h
    refine ⟨_, ?_, .ofInt _⟩
    rw [Value.binary, if_pos hOp]
    exact onInts_of_shift hOp a b
  | widened hp hq hOp =>
    obtain ⟨a, rfl⟩ := hc.eq_int hp
    obtain ⟨b, rfl⟩ := hd.eq_long hq
    cases hc
    cases hd
    rw [binary_intLong, hOp] at h
    obtain ⟨x, hx, rfl⟩ := Option.map_eq_some_iff.1 h
    refine ⟨_, ?_, .long _⟩
    rw [← onLongs_of_longOperation hx, Int32.toInt_toInt64, Value.binary, hOp]
    rfl
  | longs hp hq =>
    obtain ⟨a, rfl⟩ := hc.eq_long hp
    cases hc
    rcases hq with hq | hq
    · obtain ⟨b, rfl⟩ := hd.eq_int hq
      cases hd
      rw [binary_longInt] at h
      split at h
      · rename_i hOp
        cases h
        refine ⟨_, ?_, .long _⟩
        rw [← onLongs_of_shift hOp, Int32.toInt_toInt64]
        rfl
      · obtain ⟨x, hx, rfl⟩ := Option.map_eq_some_iff.1 h
        refine ⟨_, ?_, .long _⟩
        rw [← onLongs_of_longOperation hx, Int32.toInt_toInt64]
        rfl
    · obtain ⟨b, rfl⟩ := hd.eq_long hq
      cases hd
      rw [binary_longs] at h
      split at h
      · rename_i hOp
        cases h
        exact ⟨_, onLongs_of_shift hOp a b, .long _⟩
      · obtain ⟨x, hx, rfl⟩ := Option.map_eq_some_iff.1 h
        exact ⟨_, onLongs_of_longOperation hx, .long _⟩

theorem unary_int (op : UnaryOp) (a : Int32) (kind : IntKind) :
    Const.unary op (.int a kind) = some (.int (op.onInt a) .int) := by
  cases op <;> cases kind <;> rfl

theorem unary_long (op : UnaryOp) (a : Int64) : Const.unary op (.long a) = some (.long (op.onLong a)) := by
  cases op <;> rfl

theorem Means.unary {op : UnaryOp} (hc : c.Means p v) (hKind : p.promoted = .int ∨ p.promoted = .long)
    (h : Const.unary op c = some d) : ∃ u, Value.unary op v = .ok u ∧ d.Means p.promoted u := by
  rcases hKind with hp | hp <;> rw [hp]
  · obtain ⟨a, rfl⟩ := hc.eq_int hp
    cases hc
    rw [unary_int] at h
    cases h
    exact ⟨_, Value.unary_int op a, .ofInt _⟩
  · obtain ⟨a, rfl⟩ := hc.eq_long hp
    cases hc
    rw [unary_long] at h
    cases h
    exact ⟨_, Value.unary_long op a, .long _⟩

/-! Comparisons. -/

/-- The order of two numbers satisfies a comparison if the numbers do. -/
theorem satisfies_compare (op : CompareOp) (m n : Int) :
    satisfies op (some (Ord.compare m n)) = Value.related op m n := by
  rw [Int.compare_eq_ite_lt, Bool.eq_iff_iff]
  rcases Int.lt_trichotomy m n with h | h | h
  · rw [if_pos h]
    cases op <;> simp [satisfies, Value.related] <;> omega
  · rw [if_neg (by omega), if_neg (by omega)]
    cases op <;> simp [satisfies, Value.related, h]
  · rw [if_neg (by omega), if_pos h]
    cases op <;> simp [satisfies, Value.related] <;> omega

theorem compare_toInt (a b : Int32) : Ord.compare a b = Ord.compare a.toInt b.toInt := by
  show compareOfLessAndEq a b = compareOfLessAndEq a.toInt b.toInt
  simp [compareOfLessAndEq, Int32.lt_iff_toInt_lt, ← Int32.toInt_inj]

theorem compare_long_toInt (a b : Int64) : Ord.compare a b = Ord.compare a.toInt b.toInt := by
  show compareOfLessAndEq a b = compareOfLessAndEq a.toInt b.toInt
  simp [compareOfLessAndEq, Int64.lt_iff_toInt_lt, ← Int64.toInt_inj]

theorem compare_ints (op : CompareOp) (a b : Int32) (j k : IntKind) :
    Const.compare op (.int a j) (.int b k) = some (Value.related op a.toInt b.toInt) := by
  rw [← satisfies_compare, ← compare_toInt]
  cases j <;> cases k <;> rfl
theorem compare_longs (op : CompareOp) (a b : Int64) :
    Const.compare op (.long a) (.long b) = some (Value.related op a.toInt b.toInt) := by
  rw [← satisfies_compare, ← compare_long_toInt]
  rfl
theorem compare_intLong (op : CompareOp) (a : Int32) (b : Int64) (j : IntKind) :
    Const.compare op (.int a j) (.long b) = some (Value.related op a.toInt b.toInt) := by
  rw [← satisfies_compare, ← Int32.toInt_toInt64, ← compare_long_toInt]
  cases j <;> rfl
theorem compare_longInt (op : CompareOp) (a : Int64) (b : Int32) (k : IntKind) :
    Const.compare op (.long a) (.int b k) = some (Value.related op a.toInt b.toInt) := by
  rw [← satisfies_compare, ← Int32.toInt_toInt64, ← compare_long_toInt]
  cases k <;> rfl

theorem Means.compare {op : CompareOp} {b : Bool} (hc : c.Means p v) (hd : d.Means q w)
    (h : Const.compare op c d = some b) : Value.compare op v w = .ok b := by
  cases hc with
  | int x j =>
    cases hd with
    | int y k => rw [compare_ints] at h; cases h; rfl
    | long y => rw [compare_intLong] at h; cases h; rfl
    | bool y => cases j <;> cases h
  | long x =>
    cases hd with
    | int y k => rw [compare_longInt] at h; cases h; rfl
    | long y => rw [compare_longs] at h; cases h; rfl
    | bool y => cases h
  | bool x =>
    cases hd with
    | bool y => cases op <;> cases h <;> rfl
    | int y k => cases k <;> cases h
    | long y => cases h

end Const

/-- An access reaches a static final field of an integer or truth type, which stores a constant of this
type. -/
def TypingContext.ReachesConstant (ctx : TypingContext) (e : Expr) : Prop :=
  ∃ field stored p, ctx.fieldTarget e = .ok (some (.ofClass field)) ∧
    field.member.access.isFinal ∧ field.member.constant = some stored ∧
    field.member.type = .ok (.prim p) ∧ p.isDiscrete ∧ stored.hasType (.prim p)

/-- Expressions over integers and truth values whose variables satisfy a condition, and in which classes
may be asked for their constants. -/
def Expr.Scalar (ctx : TypingContext) (known : Variable → Prop) : Expr → Prop
  | .int _ _ | .long _ | .bool _ => True
  | .var v => known v
  | .name n => ctx.ReachesConstant (.name n)
  | .field target n => (∃ owner, ctx.denote target = .ok (.class owner)) ∧ ctx.ReachesConstant (.field target n)
  | .unary _ e | .not e => e.Scalar ctx known
  | .binary _ l r | .compare _ l r | .and l r | .or l r => l.Scalar ctx known ∧ r.Scalar ctx known
  | .cast (.primitive p) e => p.isDiscrete ∧ e.Scalar ctx known
  | .conditional c a b => c.Scalar ctx known ∧ a.Scalar ctx known ∧ b.Scalar ctx known
  | .assign _ (.var v) value => known v ∧ value.Scalar ctx known
  | .incDec _ _ (.var v) => known v
  | _ => False

section

variable {ctx : TypingContext} {known : Variable → Prop}

theorem Expr.scalar_of_discrete : (e : Expr) → e.Discrete known → e.Scalar ctx known
  | .int _ _, _ | .long _, _ | .bool _, _ => trivial
  | .var _, h | .incDec _ _ (.var _), h => h
  | .unary _ e, h => scalar_of_discrete e h
  | .not e, h => scalar_of_discrete e h
  | .binary _ l r, h | .compare _ l r, h | .and l r, h | .or l r, h =>
    ⟨scalar_of_discrete l h.1, scalar_of_discrete r h.2⟩
  | .cast (.primitive _) e, h => ⟨h.1, scalar_of_discrete e h.2⟩
  | .conditional c a b, h => ⟨scalar_of_discrete c h.1, scalar_of_discrete a h.2.1, scalar_of_discrete b h.2.2⟩
  | .assign _ (.var _) value, h => ⟨h.1, scalar_of_discrete value h.2⟩

/-- The constant that a class stores stands for the value of an access to it. -/
theorem TypingContext.ReachesConstant.means {e : Expr} (h : ctx.ReachesConstant e) :
    ∃ target p v c, ctx.fieldTarget e = .ok (some target) ∧ target.type = .ok (.prim p) ∧
      target.constant? = some c ∧ c.Means p v ∧ ctx.fieldValue? e = some v := by
  obtain ⟨field, stored, p, hTarget, hFinal, hStored, hType, hp, hFits⟩ := h
  have hConst : (FieldTarget.ofClass field).constant? = some (.ofField stored (.prim p)) := by
    simp [FieldTarget.constant?, hFinal, hStored, hType, Except.toOption]
  have hValue {v : Value} (h : (FieldTarget.ofClass field).value? = some v) : ctx.fieldValue? e = some v := by
    simpa [fieldValue?, hTarget, Except.toOption] using h
  refine ⟨.ofClass field, p, ?_⟩
  cases stored with
  | int a =>
    cases p with
    | boolean =>
      refine ⟨.bool (a != 0), _, hTarget, hType, hConst, .bool _, hValue ?_⟩
      simp [FieldTarget.value?, hFinal, hStored, hType, Except.toOption]
    | byte | char | short | int =>
      refine ⟨.int a, _, hTarget, hType, hConst, .int a _, hValue ?_⟩
      simp [FieldTarget.value?, hFinal, hStored, hType, Except.toOption]
    | long => cases hFits
    | void | float | double => cases hp
  | long a =>
    obtain rfl : p = .long := JavaType.prim_inj (beq_iff_eq.1 hFits)
    refine ⟨.long a, _, hTarget, hType, hConst, .long a, hValue ?_⟩
    simp [FieldTarget.value?, hFinal, hStored, hType, Except.toOption]
  | float =>
    obtain rfl : p = .float := JavaType.prim_inj (beq_iff_eq.1 hFits)
    cases hp
  | double =>
    obtain rfl : p = .double := JavaType.prim_inj (beq_iff_eq.1 hFits)
    cases hp
  | string => cases beq_iff_eq.1 hFits

/-- A constant of the type of an expression is its value. -/
def Expr.Constantly (ctx : TypingContext) (e : Expr) (t : JavaType) (c : Const) : Prop :=
  ∃ p v, t = .prim p ∧ c.Means p v ∧ eval ctx e = pure v

theorem Expr.Constantly.truth {e : Expr} {c : Const} (h : e.Constantly ctx .boolean c) :
    ∃ b, c = .bool b ∧ eval ctx e = pure (.bool b) := by
  obtain ⟨p, v, hType, hMeans, hEval⟩ := h
  cases hType
  obtain ⟨b, rfl, rfl⟩ := hMeans.eq_bool rfl
  exact ⟨b, rfl, hEval⟩

/-- A constant expression has its constant as its value and changes nothing. -/
theorem constant_value : (e : Expr) → e.Scalar ctx known → ∀ {t c}, ctx.typeOf e = .ok t →
    ctx.constant e = some c → e.Constantly ctx t c
  | .int a kind, _, t, c, hType, hConst => by
    rw [TypingContext.typeOf_int] at hType
    rw [TypingContext.constant, constantWith] at hConst
    cases hType
    cases hConst
    exact ⟨_, _, rfl, .int _ kind, rfl⟩
  | .long a, _, t, c, hType, hConst => by
    rw [TypingContext.typeOf_long] at hType
    rw [TypingContext.constant, constantWith] at hConst
    cases hType
    cases hConst
    exact ⟨_, _, rfl, .long a, rfl⟩
  | .bool b, _, t, c, hType, hConst => by
    rw [TypingContext.typeOf_bool] at hType
    rw [TypingContext.constant, constantWith] at hConst
    cases hType
    cases hConst
    exact ⟨_, _, rfl, .bool b, rfl⟩
  | .name n, hReaches, t, c, hType, hConst => by
    obtain ⟨target, p, v, d, hTarget, hOwn, hStored, hMeans, hValue⟩ := TypingContext.ReachesConstant.means hReaches
    have hTarget : ctx.nameTarget n = .ok (some target) := hTarget
    obtain rfl : t = .prim p := Except.ok.inj ((TypingContext.typeOf_name hType hTarget).symm.trans hOwn)
    rw [TypingContext.constant, constantWith, hTarget] at hConst
    obtain rfl : d = c := Option.some.inj (hStored.symm.trans hConst)
    refine ⟨p, v, rfl, hMeans, ?_⟩
    rw [eval, hValue]
    rfl
  | .field e n, ⟨_, hReaches⟩, t, c, hType, hConst => by
    obtain ⟨target, p, v, d, hTarget, hOwn, hStored, hMeans, hValue⟩ := TypingContext.ReachesConstant.means hReaches
    obtain ⟨q, hDenote, hTarget⟩ := except_bind_ok.1 hTarget
    obtain rfl : t = .prim p := Except.ok.inj ((TypingContext.typeOf_field hType hDenote hTarget).symm.trans hOwn)
    have hDenote : denoteWith ctx ctx.forward e = .ok q := hDenote
    rw [TypingContext.constant, constantWith, hDenote] at hConst
    change (ctx.memberTarget e n q).toOption.bind _ = _ at hConst
    rw [hTarget] at hConst
    obtain rfl : d = c := Option.some.inj (hStored.symm.trans hConst)
    refine ⟨p, v, rfl, hMeans, ?_⟩
    rw [eval, hValue]
    rfl
  | .unary op e, he, t, c, hType, hConst => by
    obtain ⟨a, hTypeE, hUnary⟩ := TypingContext.typeOf_unary.1 hType
    rw [TypingContext.constant, constantWith] at hConst
    obtain ⟨d, hConstE, hConst⟩ := Option.bind_eq_some_iff.1 hConst
    obtain ⟨p, v, rfl, hMeans, hEval⟩ := constant_value e he hTypeE hConstE
    obtain ⟨rfl, hKind⟩ := TypingContext.unaryType_discrete hUnary hMeans.isDiscrete
    obtain ⟨u, hu, hMeans'⟩ := hMeans.unary hKind hConst
    refine ⟨_, u, rfl, hMeans', ?_⟩
    rw [eval, hEval]
    show Evaluation.answer (Value.unary op v) = _
    rw [hu]
    rfl
  | .binary op l r, he, t, c, hType, hConst => by
    obtain ⟨a, b, hTypeL, hTypeR, hBinary⟩ := TypingContext.typeOf_binary.1 hType
    rw [TypingContext.constant, constantWith] at hConst
    obtain ⟨x, hConstL, hConst⟩ := Option.bind_eq_some_iff.1 hConst
    obtain ⟨y, hConstR, hConst⟩ := Option.bind_eq_some_iff.1 hConst
    obtain ⟨p, v, rfl, hMeans, hEval⟩ := constant_value l he.1 hTypeL hConstL
    obtain ⟨q, w, rfl, hMeans', hEval'⟩ := constant_value r he.2 hTypeR hConstR
    obtain ⟨s, rfl, hTyped⟩ := TypingContext.binaryType_discrete hBinary hMeans.isDiscrete hMeans'.isDiscrete
    obtain ⟨u, hu, hMeans''⟩ := hMeans.binary hMeans' hTyped hConst
    refine ⟨_, u, rfl, hMeans'', ?_⟩
    rw [eval, hEval, hEval']
    show Evaluation.answer (Value.binary op v w) = _
    rw [hu]
    rfl
  | .compare op l r, he, t, c, hType, hConst => by
    obtain ⟨a, b, hTypeL, hTypeR, _, rfl⟩ := TypingContext.typeOf_compare.1 hType
    rw [TypingContext.constant, constantWith] at hConst
    obtain ⟨x, hConstL, hConst⟩ := Option.bind_eq_some_iff.1 hConst
    obtain ⟨y, hConstR, hConst⟩ := Option.bind_eq_some_iff.1 hConst
    obtain ⟨truth, hCompare, hConst⟩ := Option.bind_eq_some_iff.1 hConst
    cases hConst
    obtain ⟨p, v, rfl, hMeans, hEval⟩ := constant_value l he.1 hTypeL hConstL
    obtain ⟨q, w, rfl, hMeans', hEval'⟩ := constant_value r he.2 hTypeR hConstR
    refine ⟨_, _, rfl, .bool truth, ?_⟩
    rw [eval, hEval, hEval']
    show (Evaluation.answer (Value.compare op v w) >>= fun b => pure (Value.bool b)) = _
    rw [hMeans.compare hMeans' hCompare]
    rfl
  | .and l r, he, t, c, hType, hConst => by
    obtain ⟨hTypeL, hTypeR, rfl⟩ := TypingContext.typeOf_and.1 hType
    rw [TypingContext.constant, constantWith] at hConst
    obtain ⟨x, hConstL, hConst⟩ := Option.bind_eq_some_iff.1 hConst
    obtain ⟨y, hConstR, hConst⟩ := Option.bind_eq_some_iff.1 hConst
    obtain ⟨a, rfl, hEval⟩ := (constant_value l he.1 hTypeL hConstL).truth
    obtain ⟨b, rfl, hEval'⟩ := (constant_value r he.2 hTypeR hConstR).truth
    cases hConst
    refine ⟨_, _, rfl, .bool _, ?_⟩
    rw [eval, hEval, hEval']
    cases a <;> rfl
  | .or l r, he, t, c, hType, hConst => by
    obtain ⟨hTypeL, hTypeR, rfl⟩ := TypingContext.typeOf_or.1 hType
    rw [TypingContext.constant, constantWith] at hConst
    obtain ⟨x, hConstL, hConst⟩ := Option.bind_eq_some_iff.1 hConst
    obtain ⟨y, hConstR, hConst⟩ := Option.bind_eq_some_iff.1 hConst
    obtain ⟨a, rfl, hEval⟩ := (constant_value l he.1 hTypeL hConstL).truth
    obtain ⟨b, rfl, hEval'⟩ := (constant_value r he.2 hTypeR hConstR).truth
    cases hConst
    refine ⟨_, _, rfl, .bool _, ?_⟩
    rw [eval, hEval, hEval']
    cases a <;> rfl
  | .not e, he, t, c, hType, hConst => by
    obtain ⟨hTypeE, rfl⟩ := TypingContext.typeOf_not.1 hType
    rw [TypingContext.constant, constantWith] at hConst
    obtain ⟨x, hConstE, hConst⟩ := Option.bind_eq_some_iff.1 hConst
    obtain ⟨a, rfl, hEval⟩ := (constant_value e he hTypeE hConstE).truth
    cases hConst
    refine ⟨_, _, rfl, .bool _, ?_⟩
    rw [eval, hEval]
    rfl
  | .cast (.primitive q) e, he, t, c, hType, hConst => by
    obtain ⟨a, hTypeE, _, rfl⟩ := TypingContext.typeOf_cast.1 hType
    rw [TypingContext.constant, constantWith] at hConst
    obtain ⟨x, hConstE, hConst⟩ := Option.bind_eq_some_iff.1 hConst
    obtain ⟨p, v, rfl, hMeans, hEval⟩ := constant_value e he.2 hTypeE hConstE
    obtain ⟨w, hConvert, hMeans'⟩ := hMeans.convert he.1 hConst
    refine ⟨_, w, rfl, hMeans', ?_⟩
    rw [eval, hEval]
    show Evaluation.expect .illTyped (v.convert q) = _
    rw [hConvert]
    rfl
  | .conditional test a b, he, t, c, hType, hConst => by
    obtain ⟨hTypeC, ta, tb, hTypeA, hTypeB, hBranch⟩ := TypingContext.typeOf_conditional.1 hType
    rw [TypingContext.constant, constantWith] at hConst
    obtain ⟨x, hConstC, hConst⟩ := Option.bind_eq_some_iff.1 hConst
    obtain ⟨pick, rfl, hEval⟩ := (constant_value test he.1 hTypeC hConstC).truth
    obtain ⟨x, hConstA, hConst⟩ := Option.bind_eq_some_iff.1 hConst
    obtain ⟨y, hConstB, hConst⟩ := Option.bind_eq_some_iff.1 hConst
    obtain ⟨type, hCond, hConst⟩ := Option.bind_eq_some_iff.1 hConst
    rw [TypingContext.conditionalType_of_typeOf hType] at hCond
    cases hCond
    obtain ⟨p, v, rfl, hMeans, hEval'⟩ := constant_value a he.2.1 hTypeA hConstA
    obtain ⟨q, w, rfl, hMeans', hEval''⟩ := constant_value b he.2.2 hTypeB hConstB
    obtain ⟨r, rfl, hr, hp, hq⟩ := TypingContext.branchType_discrete hBranch hMeans.isDiscrete hMeans'.isDiscrete
    rw [Expr.Constantly, eval, hType, hEval, hEval', hEval'']
    cases pick with
    | true =>
      obtain ⟨u, hConvert, hMeans''⟩ := hMeans.choose hr hp hConst
      refine ⟨r, u, rfl, hMeans'', ?_⟩
      show Evaluation.expect .illTyped (v.convert r) = _
      rw [hConvert]
      rfl
    | false =>
      obtain ⟨u, hConvert, hMeans''⟩ := hMeans'.choose hr hq hConst
      refine ⟨r, u, rfl, hMeans'', ?_⟩
      show Evaluation.expect .illTyped (w.convert r) = _
      rw [hConvert]
      rfl
  | .var _, _, t, c, hType, hConst | .assign _ _ _, _, t, c, hType, hConst
  | .incDec _ _ _, _, t, c, hType, hConst => by simp [TypingContext.constant, constantWith] at hConst

end

end JavaFragment
