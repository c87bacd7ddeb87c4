import JavaFragment.Proofs.Constants
/-!
Conversions between integer types at compile time and at run time. A constant is converted by cutting it down, a value on
the stack by instructions, of which none is emitted where the value already lies in the range of the target. Both keep
the low bits, so that a folded conversion and an executed one give the same value. A detour over a type that the source
widens to changes nothing.
-/
namespace JavaFragment

/-- `byte`, `char`, `short`, `int` and `long`. -/
def Primitive.isInteger : Primitive → Bool
  | .byte | .char | .short | .int | .long => true
  | .void | .boolean | .float | .double => false

theorem Primitive.isDiscrete_of_isInteger {p : Primitive} (h : p.isInteger) : p.isDiscrete := by
  cases p <;> first | rfl | cases h

theorem Primitive.isInteger_ne_boolean {p : Primitive} (h : p.isInteger) : p ≠ .boolean := by
  rintro rfl
  cases h

namespace Value

variable {u v : Value} {p q r : Primitive}

/-- What a conversion to an integer type gives depends on the number alone, not on how many words hold it. -/
theorem convert_congr (hq : q.isInteger) (h : u.number? = v.number?) : u.convert q = v.convert q := by
  cases q with
  | byte | char | short | int | long => simp only [convert, h]
  | void | boolean | float | double => cases hq

/-- An integer is held in one word or, if its type is `long`, in two. -/
theorem eq_of_isInteger (hp : p.isInteger) (h : v.fits p) :
    (∃ a, v = .int a ∧ p ≠ .long) ∨ ∃ a, v = .long a ∧ p = .long := by
  cases v with
  | int a => exact .inl ⟨a, rfl, by rintro rfl; cases h⟩
  | long a => exact .inr ⟨a, rfl, by cases p <;> first | rfl | cases h⟩
  | bool b => cases p <;> cases hp <;> cases h

/-- The range of a type lies in that of each type that it widens to. -/
theorem fits_of_widensTo {a : Int32} (hr : r.isInteger) (hLong : r ≠ .long)
    (hWidens : (BaseType.primitive p).widensTo (.primitive r)) (h : (Value.int a).fits p) : (Value.int a).fits r := by
  cases r with
  | int => rfl
  | byte | char => cases p <;> first | exact h | cases hWidens
  | short =>
    cases p with
    | byte =>
      simp only [fits, Bool.and_eq_true, decide_eq_true_eq] at h ⊢
      omega
    | short => exact h
    | _ => cases hWidens
  | long => exact absurd rfl hLong
  | void | boolean | float | double => cases hr

/-- Widening keeps the number. -/
theorem number?_of_widensTo (hp : p.isInteger) (hr : r.isInteger)
    (hWidens : (BaseType.primitive p).widensTo (.primitive r)) (hFits : v.fits p) (h : v.convert r = some u) :
    u.number? = v.number? := by
  rcases eq_of_isInteger hp hFits with ⟨a, rfl, -⟩ | ⟨a, rfl, rfl⟩
  · by_cases hLong : r = .long
    · subst hLong
      cases (convert_int_long a).symm.trans h
      simp [number?]
    · cases (convert_of_fits (fits_of_widensTo hr hLong hWidens hFits)).symm.trans h
      rfl
  · obtain rfl : r = .long := by cases r <;> cases hr <;> first | rfl | cases hWidens
    cases (convert_of_fits hFits).symm.trans h
    rfl

end Value

namespace Const

variable {c : Const} {p q : Primitive} {v : Value}

/-- Integer constants can be converted to every integer type. -/
theorem exists_convert (h : c.Means p v) (hp : p.isInteger) (hq : q.isInteger) : ∃ d, c.convert q = some d := by
  cases h with
  | int a kind => cases q <;> first | exact ⟨_, rfl⟩ | cases hq
  | long a => cases q <;> first | exact ⟨_, rfl⟩ | cases hq
  | bool b => cases hp

/-- The instructions of a conversion leave the value that the constant is converted to. -/
theorem Means.convert_takes (h : c.Means p v) (hFits : v.fits p) (hp : p.isInteger) (hq : q.isInteger) :
    ∃ d w, c.convert q = some d ∧ d.Means q w ∧ v.convert q = some w ∧
      Conversion.TakeAll ((BaseType.primitive p).conversions (.primitive q)) v w := by
  obtain ⟨d, hConvert⟩ := exists_convert h hp hq
  obtain ⟨w, hValue, hMeans⟩ := h.convert (Primitive.isDiscrete_of_isInteger hq) hConvert
  have hTruth : p = .boolean ↔ q = .boolean :=
    iff_of_false (Primitive.isInteger_ne_boolean hp) (Primitive.isInteger_ne_boolean hq)
  obtain ⟨w', hSame, hTakes⟩ := Conversion.takeAll_conversions (Primitive.isDiscrete_of_isInteger hq) hTruth hFits
  cases hValue.symm.trans hSame
  exact ⟨d, w, hConvert, hMeans, hValue, hTakes⟩

/-- The constant of a type that stands for a value is determined by it. -/
theorem Means.const_unique {d : Const} (h : c.Means p v) (h' : d.Means p v) : d = c := by
  cases h with
  | int a kind =>
    generalize hp : kind.primitive = q at h'
    cases h' with
    | int _ kind' => cases kind <;> cases kind' <;> first | rfl | cases hp
  | long a =>
    generalize hp : Primitive.long = q at h'
    cases h' with
    | long => rfl
  | bool b =>
    generalize hp : Primitive.boolean = q at h'
    cases h' with
    | bool => rfl

/-- Converting an integer constant and executing the instructions of the conversion on its value give the same result,
which lies in the range of the target and has the low bits of the number. It stays the same if the constant or the value
is first converted to a type that its own widens to. -/
theorem integer_conversions_agree (hp : p.isInteger) (hq : q.isInteger) (hMeans : c.Means p v) (hFits : v.fits p) :
    ∃ d w, c.convert q = some d ∧ d.Means q w ∧ w.fits q ∧ v.convert q = some w ∧
      Conversion.TakeAll ((BaseType.primitive p).conversions (.primitive q)) v w ∧
      ∀ r : Primitive, r.isInteger → (BaseType.primitive p).widensTo (.primitive r) →
        ∃ e u, c.convert r = some e ∧ e.Means r u ∧ e.convert q = some d ∧
          Conversion.TakeAll ((BaseType.primitive p).conversions (.primitive r)) v u ∧
          Conversion.TakeAll ((BaseType.primitive r).conversions (.primitive q)) u w := by
  obtain ⟨d, w, hConvert, hMeansTo, hValue, hTakes⟩ := hMeans.convert_takes hFits hp hq
  refine ⟨d, w, hConvert, hMeansTo, Value.convert_fits hValue, hValue, hTakes, fun r hr hWidens => ?_⟩
  obtain ⟨e, u, hFirst, hMeansOver, hOver, hTakesOver⟩ := hMeans.convert_takes hFits hp hr
  obtain ⟨d', w', hSecond, hMeansTo', hValue', hTakes'⟩ := hMeansOver.convert_takes (Value.convert_fits hOver) hr hq
  have hNumber := Value.number?_of_widensTo hp hr hWidens hFits hOver
  cases (Value.convert_congr hq hNumber).symm.trans hValue' |>.symm.trans hValue
  exact ⟨e, u, hFirst, hMeansOver, hMeansTo.const_unique hMeansTo' ▸ hSecond, hTakesOver, hTakes'⟩

/-- The sign of a byte is extended before its low bits make up a character. -/
theorem integer_conversions_agree_negative_byte :
    (Value.int (-1)).fits .byte ∧ (Const.int (-1) .byte).convert .char = some (.int 65535 .char) ∧
      Conversion.TakeAll ((BaseType.primitive .byte).conversions (.primitive .char)) (.int (-1)) (.int 65535) := by
  have hFits : (Value.int (-1)).fits .byte := rfl
  obtain ⟨d, w, hConvert, -, -, hValue, hTakes, -⟩ :=
    integer_conversions_agree (p := .byte) (q := .char) rfl rfl (.int (-1) .byte) hFits
  cases hConvert
  cases hValue
  exact ⟨hFits, rfl, hTakes⟩

end Const

end JavaFragment
