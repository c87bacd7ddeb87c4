import JavaFragment.Proofs.Tokens
import Mathlib.Data.Nat.Digits.Defs
import Mathlib.Tactic.NormNum
/-!
Integer literals. Underscores between the digits of a literal do not count. A literal after `0x` or with a leading zero
is a bit pattern: it stands for the signed number with these bits, and is malformed if there are more bits than its
width has or a digit that its base does not have.
-/
namespace JavaFragment

namespace Lexer

variable {c : Char} {rest : List Char}

/-! Numbers that digits spell. -/

section Numbers

variable {limit base : Nat} {digits : List Char}

theorem le_foldl {step : Nat → Char → Nat} (hStep : ∀ n c, n ≤ step n c) (digits : List Char) (n : Nat) :
    n ≤ digits.foldl step n := by
  induction digits generalizing n with
  | nil => exact Nat.le_refl n
  | cons c digits ih => exact Nat.le_trans (hStep n c) (ih _)

theorem le_append_digit (hBase : 0 < base) (n : Nat) (c : Char) : n ≤ n * base + digitValue c :=
  Nat.le_add_right_of_le (Nat.le_mul_of_pos_right n hBase)

/-- A number below the limit is read exactly. -/
theorem numberWithin_eq_numberOf (hBase : 0 < base) (h : numberOf base digits < limit) :
    numberWithin limit base digits = numberOf base digits := by
  rw [numberWithin, numberOf]
  rw [numberOf] at h
  generalize 0 = n at h ⊢
  induction digits generalizing n with
  | nil => rfl
  | cons c digits ih =>
    have hBelow : n < limit := Nat.lt_of_le_of_lt (le_foldl (le_append_digit hBase) (c :: digits) n) h
    simp only [List.foldl_cons, hBelow, ↓reduceIte]
    exact ih _ h

/-- A number that reaches the limit is read as one that does. -/
theorem le_numberWithin (hBase : 0 < base) (h : limit ≤ numberOf base digits) :
    limit ≤ numberWithin limit base digits := by
  rw [numberWithin]
  rw [numberOf] at h
  generalize 0 = n at h ⊢
  induction digits generalizing n with
  | nil => exact h
  | cons c digits ih =>
    by_cases hBelow : n < limit
    · simp only [List.foldl_cons, hBelow, ↓reduceIte]
      exact ih _ h
    · refine Nat.le_trans (Nat.le_of_not_lt hBelow) (le_foldl (fun n c => ?_) (c :: digits) n)
      split
      · exact le_append_digit hBase n c
      · exact Nat.le_refl n

/-- Reading up to a limit tells the numbers below any bound up to the limit. -/
theorem numberWithin_lt_iff {bound : Nat} (hBase : 0 < base) (hBound : bound ≤ limit) :
    numberWithin limit base digits < bound ↔ numberOf base digits < bound := by
  by_cases h : numberOf base digits < limit
  · rw [numberWithin_eq_numberOf hBase h]
  · have := le_numberWithin hBase (Nat.le_of_not_lt h)
    omega

theorem numberOf_eq_ofDigits (base : Nat) (digits : List Char) :
    numberOf base digits = Nat.ofDigits base (digits.reverse.map digitValue) := by
  rw [Nat.ofDigits_eq_foldr, List.foldr_map, List.foldr_reverse, numberOf]
  congr 1
  funext n c
  simp [Nat.mul_comm, Nat.add_comm]

theorem digitValue_lt_eight_iff {c : Char} (h : c.isDigit = true) : digitValue c < 8 ↔ isOctal c = true := by
  have hCode := Char.isDigit_iff_toNat.1 h
  have hLow : '0'.toNat = 48 := rfl
  simp only [digitValue, h, if_true, isOctal, Bool.and_eq_true, decide_eq_true_eq, Char.le_def, UInt32.le_iff_toNat_le]
  change c.toNat - 48 < 8 ↔ 48 ≤ c.toNat ∧ c.toNat ≤ 55
  omega

theorem digitValue_lt_sixteen {c : Char} (h : isHex c = true) : digitValue c < 16 := by
  have h0 : '0'.toNat = 48 := rfl
  have h9 : '9'.toNat = 57 := rfl
  have ha : 'a'.toNat = 97 := rfl
  have hA : 'A'.toNat = 65 := rfl
  unfold digitValue
  split_ifs with hDigit hLower
  · have := Char.isDigit_iff_toNat.1 hDigit
    omega
  all_goals
    simp only [isHex, hDigit, Bool.or_eq_true, Bool.and_eq_true, decide_eq_true_eq, Bool.false_eq_true, false_or] at h
    change (97 ≤ c.toNat ∧ c.toNat ≤ 102) ∨ 65 ≤ c.toNat ∧ c.toNat ≤ 70 at h
    first | change 97 ≤ c.toNat at hLower | change ¬ 97 ≤ c.toNat at hLower
    omega

end Numbers

/-! Where a number ends. -/

/-- What may follow a number: the end, or a character that goes on with neither a number nor a word. -/
def IsParted (rest : List Char) : Prop := ∀ c ∈ rest.head?, CharClass.isNamePart c = false ∧ c ≠ '.'

/-- How a literal is marked as a `long`, if it is one. -/
inductive Suffix where
  | none
  | upper
  | lower

namespace Suffix

def text : Suffix → List Char
  | .none => []
  | .upper => ['L']
  | .lower => ['l']

def isLong : Suffix → Bool
  | .none => false
  | .upper | .lower => true

end Suffix

theorem IsParted.ne {d : Char} (h : IsParted (c :: rest)) (hd : CharClass.isNamePart d = true) : c ≠ d := by
  rintro rfl
  simp [h c rfl] at hd

/-! Digits with underscores between them. -/

/-- Underscores and digits. -/
def IsRun (isDigit : Char → Bool) (run : List Char) : Prop := ∀ c ∈ run, c = '_' ∨ isDigit c = true

section Runs

variable {isDigit : Char → Bool} {run rest : List Char} (suffix : Suffix)

/-- Digits end before the mark of a `long` and before what follows a number. -/
theorem digitRun_run (hPart : ∀ c, isDigit c = true → CharClass.isNamePart c = true)
    (hMark : isDigit 'L' = false ∧ isDigit 'l' = false) (hRun : IsRun isDigit run) (hRest : IsParted rest) :
    digitRun isDigit (run ++ (suffix.text ++ rest)) = ⟨run.filter (· != '_'), run.length⟩ := by
  have hTake : (run ++ (suffix.text ++ rest)).takeWhile (fun c => c == '_' || isDigit c) = run := by
    rw [List.takeWhile_append_of_pos fun c hc => by simpa using hRun c hc]
    cases suffix with
    | none =>
      cases rest with
      | nil => simp [Suffix.text]
      | cons c rest =>
        have hDigit : isDigit c = false := Bool.eq_false_iff.2 fun h => hRest.ne (hPart c h) rfl
        simp [Suffix.text, hDigit, hRest.ne (d := '_') (by decide)]
    | upper => simp [Suffix.text, hMark.1]
    | lower => simp [Suffix.text, hMark.2]
  simp only [digitRun, hTake]

theorem startsWith_suffix (hRest : IsParted rest) : startsWith ['L', 'l'] (suffix.text ++ rest) = suffix.isLong := by
  cases suffix with
  | none =>
    cases rest with
    | nil => rfl
    | cons c rest =>
      simp [startsWith, Suffix.text, Suffix.isLong, hRest.ne (d := 'L') (by decide), hRest.ne (d := 'l') (by decide)]
  | upper => rfl
  | lower => rfl

theorem isNamePart_of_isHex {c : Char} (h : isHex c = true) : CharClass.isNamePart c = true := by
  simp only [isHex, Bool.or_eq_true, Bool.and_eq_true, decide_eq_true_eq] at h
  have hAlpha : c.isAlpha = true ∨ c.isDigit = true := by
    rcases h with (hDigit | hLower) | hUpper
    · exact .inr hDigit
    · have hLast : c ≤ 'z' := Nat.le_trans hLower.2 (by decide)
      exact .inl (Bool.or_eq_true_iff.2 (.inr (Bool.and_eq_true_iff.2 ⟨decide_eq_true hLower.1, decide_eq_true hLast⟩)))
    · have hLast : c ≤ 'Z' := Nat.le_trans hUpper.2 (by decide)
      exact .inl (Bool.or_eq_true_iff.2 (.inl (decide_eq_true ⟨hUpper.1, hLast⟩)))
  rcases hAlpha with h | h <;> simp [CharClass.isNamePart, CharClass.isLetter, CharClass.isNumber, h]

/-- A literal without point, exponent and other marks. -/
theorem decimalNumber_run (hRun : IsRun Char.isDigit run) (hRest : IsParted rest) :
    decimalNumber (run ++ (suffix.text ++ rest)) =
      ⟨integerToken (run.filter (· != '_')) suffix.isLong, (run ++ suffix.text).length⟩ := by
  have hDigits := digitRun_run suffix
    (fun c h => by simp [CharClass.isNamePart, CharClass.isNumber, h]) (by decide) hRun hRest
  rw [decimalNumber]
  simp only [hDigits, List.drop_left]
  cases suffix with
  | none =>
    cases rest with
    | nil => simp [exponentPart, startsWith, Suffix.text, Suffix.isLong]
    | cons c rest =>
      have hPoint : c ≠ '.' := (hRest c rfl).2
      simp [exponentPart, startsWith, Suffix.text, Suffix.isLong, hPoint, hRest.ne (d := 'e') (by decide),
        hRest.ne (d := 'E') (by decide), hRest.ne (d := 'f') (by decide), hRest.ne (d := 'F') (by decide),
        hRest.ne (d := 'd') (by decide), hRest.ne (d := 'D') (by decide), hRest.ne (d := 'L') (by decide),
        hRest.ne (d := 'l') (by decide)]
  | upper => simp [exponentPart, startsWith, Suffix.text, Suffix.isLong]
  | lower => simp [exponentPart, startsWith, Suffix.text, Suffix.isLong]

/-- A literal of digits is not taken for a hexadecimal one. -/
theorem number_run (hRun : IsRun Char.isDigit run) (hSome : run ≠ []) (hRest : IsParted rest) :
    number (run ++ (suffix.text ++ rest)) =
      ⟨integerToken (run.filter (· != '_')) suffix.isLong, (run ++ suffix.text).length⟩ := by
  obtain ⟨c, run, rfl⟩ := List.exists_cons_of_ne_nil hSome
  have hSecond : ∀ x ∈ (run ++ (suffix.text ++ rest)).head?, (x == 'x' || x == 'X') = false := by
    rintro x hx
    cases run with
    | cons d run =>
      cases hx
      rcases hRun x (by simp) with rfl | hDigit
      · rfl
      · rw [Bool.or_eq_false_iff, beq_eq_false_iff_ne, beq_eq_false_iff_ne]
        constructor <;> (rintro rfl; cases hDigit)
    | nil =>
      cases suffix with
      | none =>
        cases rest with
        | nil => cases hx
        | cons d rest =>
          cases hx
          simp [hRest.ne (d := 'x') (by decide), hRest.ne (d := 'X') (by decide)]
      | upper => cases hx; rfl
      | lower => cases hx; rfl
  rw [← decimalNumber_run suffix hRun hRest]
  unfold number
  split
  · next x after hChars =>
    rw [List.cons_append] at hChars ⊢
    obtain ⟨rfl, hTail⟩ := List.cons.inj hChars
    rw [hTail] at hSecond ⊢
    exact if_neg (ne_true_of_eq_false (hSecond x rfl))
  · rfl

end Runs

theorem scan_digit (h : c.isDigit = true) : scan (c :: rest) = number (c :: rest) := by simp [scan, h]

theorem skip_digit {pos : Position} (h : c.isDigit = true) : skip .blanks (c :: rest) pos = (c :: rest, pos) := by
  refine skip_start ?_ (by rintro rfl; cases h)
  have hCode := Char.isDigit_iff_toNat.1 h
  have h0 : '0'.toNat = 48 := rfl
  have h9 : '9'.toNat = 57 := rfl
  have hSpace : c ≠ ' ' := by rintro rfl; cases h
  simp [CharClass.isBlank, CharClass.beyondAscii, hSpace]
  omega

/-! Decimal literals. -/

/-- A literal in decimal digits: a single zero, or digits of which the first is not zero. -/
structure DecimalLiteral where
  digits : List Char
  suffix : Suffix
  isDigits : ∀ c ∈ digits, c.isDigit = true
  nonempty : digits ≠ []
  plain : digits = ['0'] ∨ digits.head? ≠ some '0'

namespace DecimalLiteral

def text (l : DecimalLiteral) : List Char := l.digits ++ l.suffix.text

/-- The number that the digits spell, the last of them first. -/
def value (l : DecimalLiteral) : Nat := Nat.ofDigits 10 (l.digits.reverse.map digitValue)

/-- The largest number that may be written with a sign before it. -/
def limit (l : DecimalLiteral) : Nat := if l.suffix.isLong then 9223372036854775808 else 2147483648

def token (l : DecimalLiteral) : Token := integerToken l.digits l.suffix.isLong

variable (l : DecimalLiteral) {rest : List Char}

theorem token_eq : l.token = if l.value ≤ l.limit then
      if l.suffix.isLong then .long (Int64.ofNat l.value) else .int (Int64.ofNat l.value)
    else .bad (.integerTooLarge (String.ofList l.digits)) := by
  have hToken : l.token =
      (if l.suffix.isLong && numberWithin wordLimit 10 l.digits ≤ 9223372036854775808 then
        .long (numberWithin wordLimit 10 l.digits).toUInt64.toInt64
      else if !l.suffix.isLong && numberWithin wordLimit 10 l.digits ≤ 2147483648 then
        .int (Int64.ofNat (numberWithin wordLimit 10 l.digits))
      else .bad (.integerTooLarge (String.ofList l.digits))) := by
    unfold token integerToken
    split
    · next hDigits => rcases l.plain with h | h <;> simp [hDigits] at h
    · rfl
  have hLimit : wordLimit = 18446744073709551616 := rfl
  have hLt (bound : Nat) (hBound : bound ≤ wordLimit) :
      numberWithin wordLimit 10 l.digits < bound ↔ l.value < bound := by
    rw [numberWithin_lt_iff (by decide) hBound, numberOf_eq_ofDigits, value]
  have hExact (h : l.value < wordLimit) : numberWithin wordLimit 10 l.digits = l.value := by
    rw [value, ← numberOf_eq_ofDigits] at h ⊢
    exact numberWithin_eq_numberOf (by decide) h
  have hLong : (Int64.ofNat l.value) = l.value.toUInt64.toInt64 := rfl
  have hLongFits := hLt 9223372036854775809 (by decide)
  have hIntFits := hLt 2147483649 (by decide)
  rw [hToken, limit, hLong]
  grind

theorem scan_text (hRest : IsParted rest) : scan (l.text ++ rest) = ⟨l.token, l.text.length⟩ := by
  obtain ⟨c, digits, hDigits⟩ := List.exists_cons_of_ne_nil l.nonempty
  have hRun : IsRun Char.isDigit l.digits := fun c hc => .inr (l.isDigits c hc)
  have hFilter : l.digits.filter (· != '_') = l.digits := by
    refine List.filter_eq_self.2 fun c hc => bne_iff_ne.2 ?_
    rintro rfl
    cases l.isDigits _ hc
  have hNumber := number_run l.suffix hRun l.nonempty hRest
  rw [hFilter, ← List.append_assoc] at hNumber
  rw [token, text, ← hNumber, hDigits]
  exact scan_digit (l.isDigits c (by simp [hDigits]))

theorem skip_text (rest : List Char) (pos : Position) : skip .blanks (l.text ++ rest) pos = (l.text ++ rest, pos) := by
  obtain ⟨c, digits, hDigits⟩ := List.exists_cons_of_ne_nil l.nonempty
  rw [text, hDigits]
  exact skip_digit (l.isDigits c (by simp [hDigits]))

end DecimalLiteral

/-! Bit patterns. -/

/-- The base of a bit pattern, as it is written. -/
inductive PatternBase where
  | hex
  | upperHex
  | octal

namespace PatternBase

/-- What is written between the zero and the digits. -/
def mark : PatternBase → List Char
  | .hex => ['x']
  | .upperHex => ['X']
  | .octal => []

def radix : PatternBase → Nat
  | .hex | .upperHex => 16
  | .octal => 8

/-- The characters that are taken as digits. -/
def isDigit : PatternBase → Char → Bool
  | .hex | .upperHex => isHex
  | .octal => Char.isDigit

end PatternBase

/-- A literal that is written as a bit pattern. There is a digit among its underscores. -/
structure PatternLiteral where
  base : PatternBase
  run : List Char
  suffix : Suffix
  isRun : IsRun base.isDigit run
  hasDigit : ∃ c ∈ run, c ≠ '_'

namespace PatternLiteral

def text (l : PatternLiteral) : List Char := '0' :: (l.base.mark ++ (l.run ++ l.suffix.text))

def digits (l : PatternLiteral) : List Char := l.run.filter (· != '_')

/-- The number that the digits spell, the last of them first. -/
def value (l : PatternLiteral) : Nat := Nat.ofDigits l.base.radix (l.digits.reverse.map digitValue)

/-- The number of bit patterns of the literal's width. -/
def patterns (l : PatternLiteral) : Nat := if l.suffix.isLong then 18446744073709551616 else 4294967296

/-- The digits are of the base and the width has enough bits for them. -/
def Fits (l : PatternLiteral) : Prop := (∀ c ∈ l.digits, digitValue c < l.base.radix) ∧ l.value < l.patterns

/-- What a bit pattern is read as: the signed number with these bits, or nothing if it does not fit. -/
def Denotes (l : PatternLiteral) (t : Token) : Prop :=
  (l.Fits → ∃ value : Int64, value.toInt = (l.value : Int).bmod l.patterns ∧
    t = if l.suffix.isLong then .long value else .int value) ∧
  (¬ l.Fits → ∃ fault, t = .bad fault)

variable {l : PatternLiteral} {rest : List Char}

theorem text_ne_nil (l : PatternLiteral) : l.text ≠ [] := List.cons_ne_nil _ _

theorem digits_ne_nil (l : PatternLiteral) : l.digits ≠ [] := by
  obtain ⟨c, hc, hDigit⟩ := l.hasDigit
  exact List.ne_nil_of_mem (List.mem_filter.2 ⟨hc, by simpa using hDigit⟩)

theorem isDigit_of_mem {c : Char} (h : c ∈ l.digits) : l.base.isDigit c = true := by
  obtain ⟨hRun, hDigit⟩ := List.mem_filter.1 h
  exact (l.isRun c hRun).resolve_left (by simpa using hDigit)

/-- The number is read up to the limit of 64 bits, which is enough to tell whether it fits. -/
theorem denotes_of_read {t : Token} {n : Nat} (fault : LexFault) (hn : n = numberWithin wordLimit l.base.radix l.digits)
    (hYes : (∀ c ∈ l.digits, digitValue c < l.base.radix) → n < l.patterns →
      t = if l.suffix.isLong then .long n.toUInt64.toInt64 else .int (intPattern n))
    (hNo : ¬ ((∀ c ∈ l.digits, digitValue c < l.base.radix) ∧ n < l.patterns) → t = .bad fault) :
    l.Denotes t := by
  have hBase : 0 < l.base.radix := by cases l.base <;> decide
  have hLimit : l.patterns ≤ wordLimit := by
    unfold patterns wordLimit
    split <;> decide
  have hLt : n < l.patterns ↔ l.value < l.patterns := by
    rw [hn, numberWithin_lt_iff hBase hLimit, numberOf_eq_ofDigits, value]
  refine ⟨fun ⟨hDigits, hFits⟩ => ?_, fun hFits => ⟨fault, hNo fun h => hFits ⟨h.1, hLt.1 h.2⟩⟩⟩
  have hValue : n = l.value := by
    rw [value, ← numberOf_eq_ofDigits] at hFits ⊢
    rw [hn, numberWithin_eq_numberOf hBase (Nat.lt_of_lt_of_le hFits hLimit)]
  have hToken := hYes hDigits (hLt.2 hFits)
  rw [hValue] at hToken
  unfold patterns
  cases hLong : l.suffix.isLong with
  | true => exact ⟨l.value.toUInt64.toInt64, by simp, by simpa [hLong] using hToken⟩
  | false => exact ⟨intPattern l.value, by simp [toInt_intPattern], by simpa [hLong] using hToken⟩

theorem hexNumber_run (hRadix : l.base.radix = 16) (hDigit : l.base.isDigit = isHex) (hRest : IsParted rest) :
    l.Denotes (hexNumber (l.run ++ (l.suffix.text ++ rest))).found ∧
      (hexNumber (l.run ++ (l.suffix.text ++ rest))).width = (l.run ++ l.suffix.text).length := by
  have hDigits : digitRun isHex (l.run ++ (l.suffix.text ++ rest)) = ⟨l.digits, l.run.length⟩ :=
    digitRun_run l.suffix (fun _ => isNamePart_of_isHex) (by decide) (hDigit ▸ l.isRun) hRest
  have hAll : ∀ c ∈ l.digits, digitValue c < 16 := fun c hc => digitValue_lt_sixteen (hDigit ▸ isDigit_of_mem hc)
  have hSome : ¬ l.digits.isEmpty = true := by simpa using l.digits_ne_nil
  unfold hexNumber
  simp only [hDigits, List.drop_left, startsWith_suffix _ hRest, if_neg hSome]
  have hLimit : wordLimit = 18446744073709551616 := rfl
  refine ⟨denotes_of_read .invalidHex (by rw [hRadix]) ?_ ?_, ?_⟩
  · rw [patterns]
    generalize numberWithin wordLimit 16 l.digits = n
    intro _ hFits
    grind
  · rw [hRadix, patterns]
    generalize numberWithin wordLimit 16 l.digits = n
    intro hFits
    grind
  · cases l.suffix <;> simp [Suffix.text, Suffix.isLong]

theorem integerToken_octal (hRadix : l.base.radix = 8) (hDigit : l.base.isDigit = Char.isDigit) :
    l.Denotes (integerToken ('0' :: l.digits) l.suffix.isLong) := by
  have hAll : (∀ c ∈ l.digits, digitValue c < 8) ↔ l.digits.all isOctal = true := by
    rw [List.all_eq_true]
    exact forall₂_congr fun c hc => digitValue_lt_eight_iff (hDigit ▸ isDigit_of_mem hc)
  have hToken : integerToken ('0' :: l.digits) l.suffix.isLong =
      (if !l.digits.all isOctal || wordLimit ≤ numberWithin wordLimit 8 l.digits then
        .bad (.integerTooLarge (String.ofList ('0' :: l.digits)))
      else if l.suffix.isLong then .long (numberWithin wordLimit 8 l.digits).toUInt64.toInt64
      else if numberWithin wordLimit 8 l.digits < 4294967296 then .int (intPattern (numberWithin wordLimit 8 l.digits))
      else .bad (.integerTooLarge (String.ofList ('0' :: l.digits)))) := by
    obtain ⟨d, others, hDigits⟩ := List.exists_cons_of_ne_nil l.digits_ne_nil
    rw [hDigits]
    rfl
  rw [hToken]
  have hLimit : wordLimit = 18446744073709551616 := rfl
  refine denotes_of_read (.integerTooLarge (String.ofList ('0' :: l.digits))) rfl ?_ ?_
  · rw [hRadix, hAll, patterns]
    generalize numberWithin wordLimit 8 l.digits = n
    intro hOctal hFits
    grind
  · rw [hRadix, hAll, patterns]
    generalize numberWithin wordLimit 8 l.digits = n
    intro hFits
    grind

theorem number_octal (hBase : l.base = .octal) (hRest : IsParted rest) :
    number (l.text ++ rest) = ⟨integerToken ('0' :: l.digits) l.suffix.isLong, l.text.length⟩ := by
  have hRun : IsRun Char.isDigit ('0' :: l.run) := by
    refine List.forall_mem_cons.2 ⟨.inr (by decide), ?_⟩
    have := l.isRun
    rwa [hBase] at this
  have hNumber := number_run l.suffix hRun (List.cons_ne_nil _ _) hRest
  rw [← List.append_assoc] at hNumber
  have hText : l.text = '0' :: l.run ++ l.suffix.text := by simp [text, hBase, PatternBase.mark]
  rw [hText]
  exact hNumber

/-- A bit pattern is scanned as one token, whatever follows it. -/
theorem scan_text (hRest : IsParted rest) :
    l.Denotes (scan (l.text ++ rest)).found ∧ (scan (l.text ++ rest)).width = l.text.length := by
  have hScan : scan (l.text ++ rest) = number (l.text ++ rest) := rfl
  have hHex (mark : Char) (hMark : l.base.mark = [mark]) (hIs : (mark == 'x' || mark == 'X') = true) :
      number (l.text ++ rest) = ⟨(hexNumber (l.run ++ (l.suffix.text ++ rest))).found,
        (hexNumber (l.run ++ (l.suffix.text ++ rest))).width + 2⟩ := by
    have hText : l.text ++ rest = '0' :: mark :: (l.run ++ (l.suffix.text ++ rest)) := by simp [text, hMark]
    rw [hText]
    exact if_pos hIs
  rw [hScan]
  cases hBase : l.base with
  | hex =>
    obtain ⟨hFound, hWidth⟩ := hexNumber_run (l := l) (by rw [hBase]; rfl) (by rw [hBase]; rfl) hRest
    rw [hHex 'x' (by rw [hBase]; rfl) rfl]
    exact ⟨hFound, by rw [hWidth, text, hBase]; rfl⟩
  | upperHex =>
    obtain ⟨hFound, hWidth⟩ := hexNumber_run (l := l) (by rw [hBase]; rfl) (by rw [hBase]; rfl) hRest
    rw [hHex 'X' (by rw [hBase]; rfl) rfl]
    exact ⟨hFound, by rw [hWidth, text, hBase]; rfl⟩
  | octal =>
    rw [number_octal hBase hRest]
    exact ⟨integerToken_octal (by rw [hBase]; rfl) (by rw [hBase]; rfl), rfl⟩

theorem newline_not_mem (l : PatternLiteral) : '\n' ∉ l.text := by
  have hRun : '\n' ∉ l.run := by
    intro h
    rcases l.isRun _ h with h | h
    · exact absurd h (by decide)
    · cases hBase : l.base <;> rw [hBase] at h <;> exact absurd h (by decide)
  have hMark : '\n' ∉ l.base.mark := by cases l.base <;> decide
  have hSuffix : '\n' ∉ l.suffix.text := by cases l.suffix <;> decide
  simp [text, hRun, hMark, hSuffix]

end PatternLiteral

/-- A bit pattern before a character that goes on with neither a number nor a word is one token, at any place. It is the
signed number of its width with these bits, and malformed if it has a digit that is not of its base or more bits than
its width. Underscores are not counted among the digits. -/
theorem tokens_of_pattern (l : PatternLiteral) {rest : List Char} (hRest : IsParted rest) : ∃ t, l.Denotes t ∧
      (∀ pos, tokensAt (l.text ++ rest) pos = ⟨t, pos⟩ :: tokensAt rest ⟨pos.line, pos.column + l.text.length⟩) ∧
      tokenize (String.ofList (l.text ++ rest)) = ⟨t, ⟨1, 1⟩⟩ :: tokensAt rest ⟨1, 1 + l.text.length⟩ := by
  obtain ⟨hDenotes, hWidth⟩ := PatternLiteral.scan_text (l := l) hRest
  have hTokens (pos : Position) : tokensAt (l.text ++ rest) pos =
      ⟨(scan (l.text ++ rest)).found, pos⟩ :: tokensAt rest ⟨pos.line, pos.column + l.text.length⟩ := by
    have hSkip : skip .blanks (l.text ++ rest) pos = (l.text ++ rest, pos) := rfl
    have hScan : scan (l.text ++ rest) = ⟨(scan (l.text ++ rest)).found, l.text.length⟩ := by rw [← hWidth]
    rw [tokensAt_text l.text_ne_nil hSkip hScan, advance_snd l.newline_not_mem]
  refine ⟨_, hDenotes, hTokens, ?_⟩
  rw [tokenize_eq_tokensAt, String.toList_ofList]
  exact hTokens ⟨1, 1⟩

/-- The least number of 32 bits, written with underscores. -/
theorem tokens_of_pattern_minimum : IsParted [';'] ∧ tokenize "0x_8000_0000;" =
      [⟨.int (-2147483648), ⟨1, 1⟩⟩, ⟨.symbol .semicolon, ⟨1, 13⟩⟩, ⟨.eof, ⟨1, 14⟩⟩] := by
  have hRest : IsParted [';'] := by
    rintro c ⟨⟩
    decide
  have hRun : IsRun isHex ['_', '8', '0', '0', '0', '_', '0', '0', '0', '0'] := by simp [IsRun, isHex]
  let l : PatternLiteral := ⟨.hex, _, .none, hRun, '8', by decide, by decide⟩
  have hDigits : ∀ c ∈ l.digits, digitValue c < 16 := fun c hc => digitValue_lt_sixteen (l.isDigit_of_mem hc)
  have hValue : l.value = 2147483648 := by
    change Nat.ofDigits 16 [0, 0, 0, 0, 0, 0, 0, 8] = _
    norm_num [Nat.ofDigits_cons]
  obtain ⟨t, ⟨hFits, -⟩, -, hTokens⟩ := tokens_of_pattern l hRest
  obtain ⟨value, hPattern, rfl⟩ := hFits ⟨hDigits, hValue ▸ (by decide : 2147483648 < 4294967296)⟩
  refine ⟨hRest, hTokens.trans ?_⟩
  rw [hValue] at hPattern
  have hBits : Int.bmod 2147483648 4294967296 = (-2147483648 : Int64).toInt := by decide
  have : value = -2147483648 := Int64.toInt_inj.1 (hPattern.trans hBits)
  rw [this]
  rfl

end Lexer

end JavaFragment
