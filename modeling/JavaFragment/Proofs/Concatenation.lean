import JavaFragment.Proofs.CheckedTypes
import JavaFragment.Text.Utf16
/-!
The text of strings that are built with `+`. Checking folds what is constant and joins literals that stand
next to each other, and keeps every 16-bit unit of the text. Half of a surrogate pair has no text of its own:
it stays a part among others, but is lost where it is folded into a constant string.
-/
namespace JavaFragment

/-- The units of a text. -/
def Utf16.encode (text : String) : List UInt16 := text.toList.flatMap Utf16.units

theorem Utf16.encode_append (a b : String) : encode (a ++ b) = encode a ++ encode b := by simp [encode]

/-- A character below 2^16 is one unit. -/
theorem Utf16.encode_charString {code : UInt32} {text : String} (h : charString? code = some text)
    (hCode : code.toNat < 65536) : encode text = [code.toUInt16] := by
  unfold charString? at h
  split at h
  · next hValid =>
    cases h
    have hNat : (Char.ofNat code.toNat).toNat = code.toNat := by rw [Char.toNat_ofNat, if_pos hValid]
    simp [encode, units, hNat, hCode]
  · cases h

/-- The units that a part adds to a string, given the texts of variables. -/
def Expr.spelling (texts : Variable → List UInt16) : Expr → List UInt16
  | .var v => texts v
  | .string text => Utf16.encode text
  | .int value .char => match charString? value.toUInt64.toUInt32 with
    | some text => Utf16.encode text
    | none => [value.toUInt64.toUInt16]
  | .int value _ | .long value => Utf16.encode (toString value)
  | .float value => Utf16.encode value.stringValue
  | .double value => Utf16.encode value.stringValue
  | .bool value => Utf16.encode (if value then "true" else "false")
  | _ => []

/-- Whether a constant is a real number, the texts of which are left aside. -/
def Const.isReal : Const → Bool
  | .float _ | .double _ => true
  | _ => false

/-- Whether a constant has a text. Half of a surrogate pair has none. -/
def Const.isWhole : Const → Bool
  | .int value .char => (charString? value.toUInt32).isSome
  | _ => true

/-- The text that a sum of strings and constants stands for, given the texts of its variables, and its value
if it is constant. A sum of constants is a number, or it is a string and has the texts of both. -/
inductive TypingContext.Spells (ctx : TypingContext) :
    Expr → Option Const → ((Variable → List UInt16) → List UInt16) → Prop
  | literal {c : Const} (hReal : c.isReal = false) : ctx.Spells c.toExpr (some c) (c.toExpr.spelling ·)
  | ofVariable {v : Variable} (hType : ctx.typeOf (.var v) = .ok .string) : ctx.Spells (.var v) none (· v)
  | named {n : String} {c : Const} (hReal : c.isReal = false) (hConst : ctx.constant (.name n) = some c)
      (hType : ctx.typeOf (.name n) = .ok c.type) : ctx.Spells (.name n) (some c) (c.toExpr.spelling ·)
  | cast {p : Primitive} {e : Expr} {c d : Const} {f} (h : ctx.Spells e (some c) f) (hReal : d.isReal = false)
      (hConvert : c.convert p = some d) : ctx.Spells (.cast (.primitive p) e) (some d) (d.toExpr.spelling ·)
  | number {l r : Expr} {a b c : Const} {f g} (hl : ctx.Spells l (some a) f) (hr : ctx.Spells r (some b) g)
      (hReal : c.isReal = false) (hNumber : c.primitive?.isSome) (hSum : Const.binary .add a b = some c) :
      ctx.Spells (.binary .add l r) (some c) (c.toExpr.spelling ·)
  | fold {l r : Expr} {a b : Const} {f g} (hl : ctx.Spells l (some a) f) (hr : ctx.Spells r (some b) g)
      (hString : a.primitive? = none ∨ b.primitive? = none) (hWhole : a.isWhole ∧ b.isWhole) :
      ctx.Spells (.binary .add l r) (some (.string (a.text ++ b.text))) fun texts => f texts ++ g texts
  | join {l r : Expr} {x y f g} (hl : ctx.Spells l x f) (hr : ctx.Spells r y g) (hNot : x = none ∨ y = none) :
      ctx.Spells (.binary .add l r) none fun texts => f texts ++ g texts

namespace Expr

variable {texts : Variable → List UInt16}

/-- A character is one unit, also if it is half of a pair. -/
theorem spelling_char {value : Int64} (h : value.toUInt64.toNat < 65536) :
    (Expr.int value .char).spelling texts = [value.toUInt64.toUInt16] := by
  rw [spelling]
  split
  · next hText =>
    rw [Utf16.encode_charString hText (by simp; omega)]
    simp
  · rfl

theorem spelling_of_literalText {e : Expr} {text : String} (h : e.literalText? = some text) :
    e.spelling texts = Utf16.encode text := by
  unfold literalText? at h
  split at h
  case h_2 => simp [spelling, h]
  case h_3 =>
    rw [spelling]
    cases h
    rfl
    assumption
  case h_8 => cases h
  all_goals
    cases h
    rfl

/-- Literals that are joined keep the text. -/
theorem spelling_mergeLiterals (parts : List Expr) :
    (mergeLiterals parts).flatMap (·.spelling texts) = parts.flatMap (·.spelling texts) := by
  induction parts with
  | nil => rfl
  | cons part rest ih =>
    rw [List.flatMap_cons, ← ih, mergeLiterals]
    cases mergeLiterals rest with
    | nil => rfl
    | cons next others =>
      dsimp only
      split
      · next a b ha hb =>
        simp only [List.flatMap_cons, spelling_of_literalText ha, spelling_of_literalText hb]
        simp only [spelling, Utf16.encode_append, List.append_assoc]
      · rfl

/-- What is no literal stays among the parts. -/
theorem mem_mergeLiterals {parts : List Expr} {p : Expr} (hMem : p ∈ parts) (hp : p.literalText? = none) :
    p ∈ mergeLiterals parts := by
  induction parts with
  | nil => exact hMem
  | cons part rest ih =>
    rw [mergeLiterals]
    cases hRest : mergeLiterals rest with
    | nil => grind
    | cons next others => grind

end Expr

namespace Const

variable {a b c d : Const}

theorem toUInt32_toInt64 (value : Int32) : value.toInt64.toUInt64.toUInt32 = value.toUInt32 := by
  apply UInt32.toBitVec_inj.1
  ext i hi
  simp [BitVec.getLsbD_signExtend, hi]
  omega

theorem concatParts_toExpr (c : Const) : c.toExpr.concatParts = [c.toExpr] := by
  cases c <;> rfl

/-- The text of a constant is that of its literal. -/
theorem encode_text {texts : Variable → List UInt16} (hReal : c.isReal = false) (h : c.isWhole) :
    Utf16.encode c.text = c.toExpr.spelling texts := by
  cases c with
  | int value kind =>
    have hValue : toString value.toInt64 = toString value :=
      congrArg (toString : Int → String) (Int32.toInt_toInt64 value)
    cases kind with
    | char =>
      obtain ⟨text, hText⟩ := Option.isSome_iff_exists.1 h
      simp [toExpr, Const.text, Expr.spelling, toUInt32_toInt64, hText]
    | _ => simp [toExpr, Const.text, Expr.spelling, hValue]
  | float | double => cases hReal
  | _ => rfl

theorem constant_toExpr {ctx : TypingContext} (hReal : c.isReal = false) : ctx.constant c.toExpr = some c := by
  cases c with
  | float | double => cases hReal
  | _ => simp [toExpr, TypingContext.constant, constantWith]

theorem isCastable_of_convert {p : Primitive} (h : c.convert p = some d) :
    TypingContext.isCastable c.type (.prim p) = true := by
  cases c with
  | int value kind => cases kind <;> cases p <;> cases h <;> rfl
  | _ => cases p <;> cases h <;> rfl

theorem isVoid_type (c : Const) : c.type.isVoid = false := by
  cases c with
  | int _ kind => cases kind <;> rfl
  | _ => rfl

theorem binary_add_string (h : a.primitive? = none ∨ b.primitive? = none) :
    binary .add a b = some (.string (a.text ++ b.text)) := by
  rcases h with h | h
  · cases a with
    | string => rfl
    | _ => cases h
  · cases b with
    | string => cases a <;> rfl
    | _ => cases h

/-- Constants that have a sum have a type for it. -/
theorem binaryType_add (h : binary .add a b = some c) : TypingContext.binaryType .add a.type b.type = some c.type := by
  have hString (text : String) : (Const.string text).type.isString = true := rfl
  have hType : (TypingContext.binaryType .add a.type b.type).isSome := by
    unfold TypingContext.binaryType
    unfold binary at h
    split at h
    · simp [isVoid_type, hString]
    · simp [isVoid_type, hString]
    · cases h
    · split
      · simp [isVoid_type]
      · simp [BinaryOp.isBitwise, BinaryOp.isShift, arithmetic_type h]
  obtain ⟨t, ht⟩ := Option.isSome_iff_exists.1 hType
  rw [ht, binary_type ht h]

end Const

namespace TypingContext

variable {ctx : TypingContext} {l r l' r' e e' : Expr} {x y : Option Const} {c : Const}
  {f : (Variable → List UInt16) → List UInt16}

/-- The type of a sum, which is a string unless it is constant. -/
def sumType (x : Option Const) : JavaType := x.elim .string Const.type

theorem sumType_string (h : x.bind Const.primitive? = none) : sumType x = .string := by
  rcases x with _ | c
  · rfl
  · cases c with
    | string => rfl
    | _ => cases h

theorem isVoid_sumType (x : Option Const) : (sumType x).isVoid = false := by
  rcases x with _ | c
  · rfl
  · exact c.isVoid_type

theorem conclude_constant (hType : ctx.typeOf e = .ok c.type) (hConst : ctx.constant e = some c)
    (hLiteral : e.isLiteral = false) : ctx.conclude e = ⟨c.toExpr, .ok c.type⟩ :=
  conclude_ok.2 ⟨hType, by simp [simplified, hLiteral, hConst]⟩

/-- A sum as it is checked, with the text that it stands for. If it is not constant, some part of it is no
literal. -/
structure SpelledBy (ctx : TypingContext) (e : Expr) (x : Option Const)
    (f : (Variable → List UInt16) → List UInt16) (e' : Expr) : Prop where
  check : ctx.check e = ⟨e', .ok (sumType x)⟩
  type : ctx.typeOf e' = .ok (sumType x)
  constant : ctx.constant e' = x
  literal : ∀ c, x = some c → e' = c.toExpr
  real : ∀ c, x = some c → c.isReal = false
  varies : x = none → ∃ p ∈ e'.concatParts, p.literalText? = none
  built : x = none → (∃ v, e = .var v) ∨ ∃ parts, e' = .concat parts
  text : ∀ texts, e'.concatParts.flatMap (·.spelling texts) = f texts

/-- A constant that is checked to its literal. -/
theorem SpelledBy.ofConst (hReal : c.isReal = false) (hCheck : ctx.check e = ⟨c.toExpr, .ok c.type⟩)
    (hText : ∀ texts, c.toExpr.spelling texts = f texts) : ctx.SpelledBy e (some c) f c.toExpr where
  check := hCheck
  type := typeOf_toExpr c
  constant := c.constant_toExpr hReal
  literal _ h := by cases h; rfl
  real _ h := by cases h; exact hReal
  varies h := by cases h
  built h := by cases h
  text texts := by simp [c.concatParts_toExpr, hText]

theorem SpelledBy.spelling_eq (h : ctx.SpelledBy e (some c) f e') (texts : Variable → List UInt16) :
    c.toExpr.spelling texts = f texts := by
  rw [← h.text, h.literal c rfl, c.concatParts_toExpr, List.flatMap_singleton]

/-- A sum of constants is folded. -/
theorem SpelledBy.check_sum {a b : Const} {g} (hl : ctx.SpelledBy l (some a) f l') (hr : ctx.SpelledBy r (some b) g r')
    (hSum : Const.binary .add a b = some c) : ctx.check (.binary .add l r) = ⟨c.toExpr, .ok c.type⟩ := by
  rw [TypingContext.check]
  simp only [hl.check, hr.check, Checked.andThen, Checked.map, concluded, Checked.bind]
  refine conclude_constant (typeOf_binary.2 ⟨_, _, hl.type, hr.type, Const.binaryType_add hSum⟩) ?_ rfl
  have hLeft : constantWith ctx ctx.forward l' = some a := hl.constant
  have hRight : constantWith ctx ctx.forward r' = some b := hr.constant
  rw [TypingContext.constant, constantWith, hLeft, hRight]
  exact hSum

/-- Other sums are joined. -/
theorem SpelledBy.check_join {g} (hl : ctx.SpelledBy l x f l') (hr : ctx.SpelledBy r y g r')
    (hNot : x = none ∨ y = none) : ctx.check (.binary .add l r) = ⟨Expr.joined l' r', .ok .string⟩ := by
  have hType : binaryType .add (sumType x) (sumType y) = some .string := by
    have hString : (sumType none).isString = true := rfl
    rcases hNot with rfl | rfl
    · simp [binaryType, isVoid_sumType, hString]
    · simp [binaryType, isVoid_sumType, hString]
  have hLeft : constantWith ctx ctx.forward l' = x := hl.constant
  have hRight : constantWith ctx ctx.forward r' = y := hr.constant
  have hConst : ctx.constant (.binary .add l' r') = none := by
    rw [TypingContext.constant, constantWith, hLeft, hRight]
    rcases hNot with rfl | rfl
    · rfl
    · cases x <;> rfl
  rw [TypingContext.check]
  simp only [hl.check, hr.check, Checked.andThen, Checked.map, concluded, Checked.bind]
  refine conclude_ok.2 ⟨typeOf_binary.2 ⟨_, _, hl.type, hr.type, hType⟩, ?_⟩
  unfold simplified
  rw [hConst]
  rfl

theorem Spells.checked (h : ctx.Spells e x f) : ∃ e', ctx.SpelledBy e x f e' := by
  induction h with
  | @literal c hReal =>
    refine ⟨_, .ofConst hReal ?_ fun _ => rfl⟩
    have hLiteral : c.toExpr.isLiteral = true := by cases c <;> rfl
    have hCheck : ctx.check c.toExpr = ctx.conclude c.toExpr := by
      cases c <;> simp only [Const.toExpr, TypingContext.check]
    exact hCheck.trans (conclude_ok.2 ⟨typeOf_toExpr c, by simp [simplified, hLiteral]⟩)
  | named hReal hConst hType =>
    refine ⟨_, .ofConst hReal ?_ fun _ => rfl⟩
    simp only [TypingContext.check]
    exact conclude_constant hType hConst rfl
  | @cast p e c d f h hReal hConvert ih =>
    obtain ⟨e', he⟩ := ih
    refine ⟨_, .ofConst hReal ?_ fun _ => rfl⟩
    rw [TypingContext.check]
    simp only [he.check, Checked.map, concluded, Checked.bind]
    refine conclude_constant (typeOf_cast.2 ⟨c.type, he.type, Const.isCastable_of_convert hConvert,
      Const.convert_type hConvert⟩) ?_ rfl
    have hOperand : constantWith ctx ctx.forward e' = some c := he.constant
    rw [TypingContext.constant, constantWith, hOperand]
    exact hConvert
  | number _ _ hReal _ hSum ihl ihr =>
    obtain ⟨l', hl⟩ := ihl
    obtain ⟨r', hr⟩ := ihr
    exact ⟨_, .ofConst hReal (hl.check_sum hr hSum) fun _ => rfl⟩
  | @ofVariable v hType =>
    have hConst : ctx.constant (.var v) = none := by simp [TypingContext.constant, constantWith]
    refine ⟨.var v, ?_, hType, hConst, fun _ h => (by cases h), fun _ h => (by cases h),
      fun _ => ⟨.var v, .head _, rfl⟩,
      fun _ => .inl ⟨v, rfl⟩, fun texts => List.append_nil _⟩
    simp only [TypingContext.check]
    exact conclude_ok.2 ⟨hType, by simp [simplified, Expr.isLiteral, Expr.isKeyword, hConst]⟩
  | @fold l r a b f g _ _ hString hWhole ihl ihr =>
    obtain ⟨l', hl⟩ := ihl
    obtain ⟨r', hr⟩ := ihr
    refine ⟨_, .ofConst rfl (hl.check_sum hr (Const.binary_add_string hString)) fun texts => ?_⟩
    rw [← hl.spelling_eq, ← hr.spelling_eq, ← Const.encode_text (hl.real a rfl) hWhole.1,
      ← Const.encode_text (hr.real b rfl) hWhole.2]
    exact Utf16.encode_append ..
  | @join l r x y f g _ _ hNot ihl ihr =>
    obtain ⟨l', hl⟩ := ihl
    obtain ⟨r', hr⟩ := ihr
    obtain ⟨p, hMem, hp⟩ : ∃ p ∈ l'.concatParts ++ r'.concatParts, p.literalText? = none := by
      rcases hNot with hNot | hNot
      · obtain ⟨p, hMem, hp⟩ := hl.varies hNot
        exact ⟨p, List.mem_append_left _ hMem, hp⟩
      · obtain ⟨p, hMem, hp⟩ := hr.varies hNot
        exact ⟨p, List.mem_append_right _ hMem, hp⟩
    have hStays := Expr.mem_mergeLiterals hMem hp
    have hJoined : Expr.joined l' r' = .concat (Expr.mergeLiterals (l'.concatParts ++ r'.concatParts)) := by
      unfold Expr.joined
      split
      · next hOne =>
        rw [hOne, List.mem_singleton] at hStays
        rw [hStays] at hp
        cases hp
      · rfl
    refine ⟨Expr.joined l' r', ?_, typeOf_joined l' r', ?_, fun _ h => (by cases h),
      fun _ h => (by cases h), fun _ => ?_, fun _ => .inr ⟨_, hJoined⟩, fun texts => ?_⟩
    · exact hl.check_join hr hNot
    · simp [hJoined, TypingContext.constant, constantWith]
    · exact ⟨p, hJoined ▸ hStays, hp⟩
    · rw [hJoined, Expr.concatParts, Expr.spelling_mergeLiterals, List.flatMap_append, hl.text, hr.text]

/-- A sum that is a string is checked to one string or to a concatenation of the same text, whatever the texts
of its variables, if no half of a pair is folded into a constant. Each character is one unit of the text. -/
theorem concatenation_keeps_text (h : ctx.Spells (.binary .add l r) x f) (hString : x.bind Const.primitive? = none) :
    (∃ e', ctx.check (.binary .add l r) = ⟨e', .ok .string⟩ ∧
      ((∃ text, e' = .string text) ∨ ∃ parts, e' = .concat parts) ∧
      ∀ texts, e'.concatParts.flatMap (·.spelling texts) = f texts) ∧
    ∀ (value : Int64) (texts : Variable → List UInt16), value.toUInt64.toNat < 65536 →
      (Expr.int value .char).spelling texts = [value.toUInt64.toUInt16] := by
  refine ⟨?_, fun _ _ => Expr.spelling_char⟩
  obtain ⟨e', hChecked⟩ := h.checked
  refine ⟨e', ?_, ?_, hChecked.text⟩
  · rw [hChecked.check, sumType_string hString]
  · cases x with
    | none =>
      rcases hChecked.built rfl with ⟨v, hSame⟩ | hParts
      · cases hSame
      · exact .inr hParts
    | some c =>
      cases c with
      | string text => exact .inl ⟨text, hChecked.literal _ rfl⟩
      | _ => cases hString

/-- Half of a pair stays between a variable and the constant `ab`. -/
theorem concatenation_keeps_text_half :
    let ctx : TypingContext := { (default : TypingContext) with types := #[some .string] }
    let s : Variable := ⟨0, "s", .named "String"⟩
    let sum : Expr := .binary .add (.binary .add (.var s) (.int 0xd800 .char))
      (.binary .add (.string "a") (.int 98 .char))
    ∃ e', ctx.check sum = ⟨e', .ok .string⟩ ∧
      ∀ texts, e'.concatParts.flatMap (·.spelling texts) = texts s ++ [0xd800] ++ [97, 98] := by
  intro ctx s sum
  have hSum : ctx.Spells sum none _ :=
    .join (.join (.ofVariable (typeOf_var.trans rfl)) (.literal (c := .int 0xd800 .char) rfl) (.inl rfl))
      (.fold (.literal (c := .string "a") rfl) (.literal (c := .int 98 .char) rfl) (.inl rfl) (by decide)) (.inl rfl)
  obtain ⟨⟨e', hCheck, -, hText⟩, hOne⟩ := concatenation_keeps_text hSum rfl
  refine ⟨e', hCheck, fun texts => (hText texts).trans ?_⟩
  rfl

end TypingContext

end JavaFragment
