import JavaFragment.Proofs.Numerals
import Mathlib
/-!
Spellings of tokens. Numbers are spelled in decimal digits and texts by one escape for each unit. Tokens that
are spelled with a blank between any two of them are read back as they were.
-/
namespace JavaFragment

/-! Texts and their units. -/

namespace Utf16

theorem decodeOnto_single {text : String} {u : UInt16} {rest : List UInt16} (h : isHigh u = false) :
    decodeOnto text (u :: rest) = decodeOnto (text.push (single u)) rest := by
  cases rest with
  | nil => simp [decodeOnto]
  | cons v rest => simp [decodeOnto, h]

theorem toNat_valid (c : Char) : c.toNat < 0xd800 ∨ 0xdfff < c.toNat ∧ c.toNat < 0x110000 := c.valid

/-- The units of a character stand for it, whatever follows them. -/
theorem decodeOnto_units (text : String) (c : Char) (rest : List UInt16) :
    decodeOnto text (units c ++ rest) = decodeOnto (text.push c) rest := by
  have hValid := toNat_valid c
  by_cases hShort : c.toNat < 0x10000
  · have hUnit : c.toNat.toUInt16.toNat = c.toNat := by simpa using Nat.mod_eq_of_lt hShort
    have hHigh : isHigh c.toNat.toUInt16 = false := by
      simp only [isHigh, Bool.and_eq_false_iff, decide_eq_false_iff_not, UInt16.le_iff_toNat_le, hUnit]
      simp only [UInt16.reduceToNat]
      omega
    have hLow : isLow c.toNat.toUInt16 = false := by
      simp only [isLow, Bool.and_eq_false_iff, decide_eq_false_iff_not, UInt16.le_iff_toNat_le, hUnit]
      simp only [UInt16.reduceToNat]
      omega
    simp only [units, hShort, ↓reduceIte, List.cons_append, List.nil_append, decodeOnto_single hHigh]
    simp [single, hHigh, hLow, hUnit]
  · have hOffset : c.toNat - 0x10000 < 0x100000 := by omega
    generalize hHighUnit : (0xd800 + (c.toNat - 0x10000) / 0x400).toUInt16 = high
    generalize hLowUnit : (0xdc00 + (c.toNat - 0x10000) % 0x400).toUInt16 = low
    have hHigh : high.toNat = 0xd800 + (c.toNat - 0x10000) / 0x400 := by
      subst hHighUnit
      simp
      omega
    have hLow : low.toNat = 0xdc00 + (c.toNat - 0x10000) % 0x400 := by
      subst hLowUnit
      simp
      omega
    have hIsHigh : isHigh high = true := by
      simp only [isHigh, Bool.and_eq_true, decide_eq_true_eq, UInt16.le_iff_toNat_le, hHigh]
      simp only [UInt16.reduceToNat]
      omega
    have hIsLow : isLow low = true := by
      simp only [isLow, Bool.and_eq_true, decide_eq_true_eq, UInt16.le_iff_toNat_le, hLow]
      simp only [UInt16.reduceToNat]
      omega
    have hPaired : paired high low = c := by
      have hSum : 0x10000 + (high.toNat - 0xd800) * 0x400 + (low.toNat - 0xdc00) = c.toNat := by omega
      rw [paired, hSum, Char.ofNat_toNat]
    simp only [units, hShort, ↓reduceIte, hHighUnit, hLowUnit, List.cons_append, List.nil_append, decodeOnto,
      hIsHigh, hIsLow, Bool.and_self, hPaired]

theorem decodeOnto_flatMap_units (text : String) (chars : List Char) :
    decodeOnto text (chars.flatMap units) = text ++ String.ofList chars := by
  induction chars generalizing text with
  | nil => simp [decodeOnto]
  | cons c chars ih =>
    rw [List.flatMap_cons, decodeOnto_units, ih]
    simp [← String.toList_inj]

theorem decode_flatMap_units (text : String) : decode (text.toList.flatMap units) = text := by
  simp [decode, decodeOnto_flatMap_units]

end Utf16

/-! Spellings. -/

/-- The escape of a unit, with four hexadecimal digits. -/
def unitEscape (unit : UInt16) : List Char :=
  let n := unit.toNat
  '\\' :: 'u' :: [n / 4096, n / 256 % 16, n / 16 % 16, n % 16].map Nat.digitChar

def Keyword.spelling (k : Keyword) : String := ((table.find? (·.2 = k)).map Prod.fst).getD ""

def Symbol.spelling (s : Symbol) : String := ((table.find? (·.2 = s)).map Prod.fst).getD ""

def Modifier.spelling : Modifier → String
  | .publicAccess => "public"
  | .privateAccess => "private"
  | .protectedAccess => "protected"
  | .static => "static"
  | .final => "final"
  | .synchronized => "synchronized"
  | .volatile => "volatile"
  | .transient => "transient"
  | .native => "native"
  | .abstract => "abstract"
  | .strictfp => "strictfp"

/-- A word that begins like a name and is not reserved. -/
def isName (word : String) : Bool :=
  (match word.toList with
    | [] => false
    | c :: rest => CharClass.isNameStart c && rest.all CharClass.isNamePart) &&
  (Keyword.ofText? word).isNone && (Modifier.ofKeyword? word).isNone && (Primitive.ofKeyword? word).isNone

namespace Token

/-- How a token is written. Numbers with a fraction, malformed tokens and the end of input have no
spelling here. -/
def spelling : Token → String
  | .int value => toString value.toInt
  | .long value => toString value.toInt ++ "L"
  | .string text => String.ofList ('"' :: ((text.toList.flatMap Utf16.units).flatMap unitEscape ++ ['"']))
  | .char unit => String.ofList ('\'' :: (unitEscape unit ++ ['\'']))
  | .ident name => name
  | .keyword k => k.spelling
  | .modifier m => m.spelling
  | .primitive p => p.keyword
  | .symbol s => s.spelling
  | .float _ | .double _ | .bad _ | .eof => ""

/-- The tokens that stand for what they are written as. A sign is a token of its own, so that numbers are
not negative, and the word `synchronized` is a keyword. -/
def hasSpelling : Token → Bool
  | .int value => 0 ≤ value.toInt && value.toInt ≤ 2147483648
  | .long value => 0 ≤ value.toInt
  | .ident name => isName name
  | .modifier m => m ≠ .synchronized
  | .string _ | .char _ | .keyword _ | .primitive _ | .symbol _ => true
  | .float _ | .double _ | .bad _ | .eof => false

end Token

namespace Lexer

variable {rest : List Char} {c : Char} {n : Nat}

/-! Between tokens there is nothing or a blank. -/

/-- What may follow a token: a blank or the end. -/
def IsSeparated : List Char → Prop
  | [] => True
  | c :: _ => c = ' '

/-- A text that is read as a token wherever it stands before a blank or the end. -/
structure Reads (text : List Char) (t : Token) : Prop where
  nonempty : 0 < text.length
  skip_eq : ∀ rest pos, IsSeparated rest → skip .blanks (text ++ rest) pos = (text ++ rest, pos)
  scan_eq : ∀ rest, IsSeparated rest → scan (text ++ rest) = ⟨t, text.length⟩

theorem IsSeparated.isParted (h : IsSeparated rest) : IsParted rest := by
  intro c hc
  cases rest with
  | nil => cases hc
  | cons d rest =>
    cases h
    cases hc
    decide

theorem Reads.tokensAt {text : List Char} {t : Token} (h : Reads text t) (rest : List Char) (hRest : IsSeparated rest)
    (pos : Position) : tokensAt (text ++ rest) pos = ⟨t, pos⟩ :: tokensAt rest (advance text.length (text ++ rest) pos).2 :=
  tokensAt_text (List.ne_nil_of_length_pos h.nonempty) (h.skip_eq rest pos hRest) (h.scan_eq rest hRest)

/-! Words. -/

theorem toNat_of_isLetter (h : CharClass.isLetter c = true) : 65 ≤ c.toNat := by
  simp only [CharClass.isLetter, CharClass.beyondAscii, Bool.or_eq_true, Bool.and_eq_true, decide_eq_true_eq,
    Char.isAlpha, Char.isUpper, Char.isLower, ge_iff_le, UInt32.le_iff_toNat_le] at h
  have hA : 'A'.val.toNat = 65 := rfl
  have ha : 'a'.val.toNat = 97 := rfl
  rcases h with (h | h) | h
  · exact hA ▸ h.1
  · exact Nat.le_trans (by decide) (ha ▸ h.1)
  · omega

theorem isLetter_not_blank (h : CharRange.holds CharRange.blank n = true) :
    CharRange.holds CharRange.alphabetic n = false := by
  have hMem : n ∈ [0x85, 0xa0, 0x1680, 0x2000, 0x2001, 0x2002, 0x2003, 0x2004, 0x2005, 0x2006, 0x2007, 0x2008,
      0x2009, 0x200a, 0x2028, 0x2029, 0x202f, 0x205f, 0x3000] := by
    simp [CharRange.holds, CharRange.blank] at h
    simp only [List.mem_cons, List.not_mem_nil, or_false]
    omega
  have hNone : ∀ n ∈ [0x85, 0xa0, 0x1680, 0x2000, 0x2001, 0x2002, 0x2003, 0x2004, 0x2005, 0x2006, 0x2007, 0x2008,
      0x2009, 0x200a, 0x2028, 0x2029, 0x202f, 0x205f, 0x3000],
      CharRange.holds CharRange.alphabetic n = false := by
    decide +kernel
  exact hNone n hMem

theorem isBlank_of_isNameStart (h : CharClass.isNameStart c = true) : CharClass.isBlank c = false := by
  simp only [CharClass.isNameStart, Bool.or_eq_true, beq_iff_eq] at h
  rcases h with (hLetter | rfl) | rfl
  · have hLow := toNat_of_isLetter hLetter
    have hSpace : c ≠ ' ' := by rintro rfl; exact absurd hLow (by decide)
    simp only [CharClass.isBlank, Bool.or_eq_false_iff, beq_eq_false_iff_ne, ne_eq, hSpace, not_false_eq_true, true_and]
    refine ⟨by simp; omega, ?_⟩
    simp only [CharClass.isLetter, CharClass.beyondAscii, Bool.or_eq_true, Bool.and_eq_true] at hLetter ⊢
    rcases hLetter with hAlpha | ⟨-, hLetter⟩
    · have : ¬ 128 ≤ c.toNat := by
        simp only [Char.isAlpha, Char.isUpper, Char.isLower, ge_iff_le, UInt32.le_iff_toNat_le, Bool.or_eq_true,
          Bool.and_eq_true, decide_eq_true_eq] at hAlpha
        have hZ : 'Z'.val.toNat = 90 := rfl
        have hz : 'z'.val.toNat = 122 := rfl
        change ¬ 128 ≤ c.val.toNat
        omega
      simp [this]
    · cases hBlank : CharRange.holds CharRange.blank c.toNat with
      | false => simp
      | true => simp [isLetter_not_blank hBlank] at hLetter
  · decide
  · decide

theorem isDigit_of_isNameStart (h : CharClass.isNameStart c = true) : c.isDigit = false := by
  simp only [CharClass.isNameStart, Bool.or_eq_true, beq_iff_eq] at h
  rcases h with (hLetter | rfl) | rfl
  · have hLow := toNat_of_isLetter hLetter
    have h9 : '9'.toNat = 57 := rfl
    rw [Bool.eq_false_iff, ne_eq, Char.isDigit_iff_toNat]
    omega
  · decide
  · decide

theorem takeWhile_append_separated {p : Char → Bool} {word : List Char} (hWord : word.all p = true)
    (hBlank : p ' ' = false) (hRest : IsSeparated rest) : (word ++ rest).takeWhile p = word := by
  rw [List.takeWhile_append_of_pos (by simpa using hWord)]
  cases rest with
  | nil => simp
  | cons c rest => cases hRest; simp [hBlank]

theorem reads_word (hStart : CharClass.isNameStart c = true) (hRest : rest.all CharClass.isNamePart = true) :
    Reads (c :: rest) (wordToken (String.ofList (c :: rest))) where
  nonempty := by simp
  skip_eq after pos _ := by
    refine skip_start (isBlank_of_isNameStart hStart) ?_
    rintro rfl
    exact absurd hStart (by decide)
  scan_eq after hAfter := by
    have hDot : (c == '.') = false := by
      rw [beq_eq_false_iff_ne]
      rintro rfl
      exact absurd hStart (by decide)
    simp only [List.cons_append, scan, isDigit_of_isNameStart hStart, hDot, Bool.false_and, Bool.or_self,
      Bool.false_eq_true, ↓reduceIte, hStart, takeWhile_append_separated hRest (by decide) hAfter]

/-! Symbols. -/

theorem reads_symbol (s : Symbol) : Reads s.spelling.toList (.symbol s) where
  nonempty := by cases s <;> decide
  skip_eq rest pos h := by
    cases rest with
    | nil => cases s <;> rfl
    | cons c rest => cases h; cases s <;> rfl
  scan_eq rest h := by
    cases rest with
    | nil => cases s <;> rfl
    | cons c rest => cases h; cases s <;> rfl

/-! Numbers. -/

theorem isDigit_toDigits : ∀ c ∈ Nat.toDigits 10 n, c.isDigit = true :=
  fun _ hc => Nat.isDigit_of_mem_toDigits (by decide) (by decide) hc

theorem numberOf_toDigits (n : Nat) : numberOf 10 (Nat.toDigits 10 n) = n := by
  have hSame : ∀ (digits : List Char), (∀ c ∈ digits, c.isDigit = true) → ∀ init,
      digits.foldl (fun n c => n * 10 + digitValue c) init = Nat.ofDigitChars 10 digits init := by
    intro digits
    induction digits with
    | nil => simp
    | cons c digits ih =>
      intro h init
      rw [List.foldl_cons, Nat.ofDigitChars_cons, ih (fun d hd => h d (by simp [hd])), digitValue, h c (by simp),
        Nat.mul_comm]
      rfl
  rw [numberOf, hSame _ isDigit_toDigits, Nat.ofDigitChars_ten_toDigits]

theorem toDigits_head_ne_zero (h : 0 < n) : (Nat.toDigits 10 n).head? ≠ some '0' := by
  induction n using Nat.strongRecOn with
  | ind n ih =>
    by_cases hSmall : n < 10
    · rw [Nat.toDigits_of_lt_base hSmall]
      simp [Nat.digitChar_eq_zero]
      omega
    · rw [Nat.toDigits_of_base_le (by decide) (by omega), List.head?_append]
      have hHead := ih (n / 10) (by omega) (by omega)
      cases hDigits : Nat.toDigits 10 (n / 10) with
      | nil => exact absurd hDigits Nat.toDigits_ne_nil
      | cons c digits => simpa [hDigits] using hHead

theorem toDigits_plain (n : Nat) : Nat.toDigits 10 n = ['0'] ∨ (Nat.toDigits 10 n).head? ≠ some '0' := by
  rcases Nat.eq_zero_or_pos n with rfl | hPos
  · exact .inl rfl
  · exact .inr (toDigits_head_ne_zero hPos)

/-- The literal that spells a number. -/
def DecimalLiteral.ofNat (n : Nat) (suffix : Suffix) : DecimalLiteral :=
  ⟨Nat.toDigits 10 n, suffix, isDigit_toDigits, Nat.toDigits_ne_nil, toDigits_plain n⟩

theorem DecimalLiteral.value_ofNat (n : Nat) (suffix : Suffix) : (ofNat n suffix).value = n := by
  rw [value, ← numberOf_eq_ofDigits]
  exact numberOf_toDigits n

theorem reads_literal (l : DecimalLiteral) : Reads l.text l.token where
  nonempty := List.length_pos_iff.2 (List.append_ne_nil_of_left_ne_nil l.nonempty _)
  skip_eq rest pos _ := l.skip_text rest pos
  scan_eq _ hRest := l.scan_text hRest.isParted

theorem reads_number {value : Int64} (hValue : value.toInt = n) (suffix : Suffix)
    (hLimit : n ≤ (DecimalLiteral.ofNat n suffix).limit) :
    Reads (Nat.toDigits 10 n ++ suffix.text) (if suffix.isLong then .long value else .int value) := by
  have hBound := value.toInt_lt
  have hInt : Int64.ofNat n = value := by rw [← Int64.toInt_inj, hValue, Int64.toInt_ofNat_of_lt (by omega)]
  have hReads := reads_literal (.ofNat n suffix)
  rw [DecimalLiteral.token_eq, DecimalLiteral.value_ofNat, if_pos hLimit, hInt] at hReads
  exact hReads

/-! Texts and characters. -/

theorem hexDigit_facts : ∀ d < 16, isHex (Nat.digitChar d) = true ∧ digitValue (Nat.digitChar d) = d ∧
    (Nat.digitChar d == 'u') = false := by decide

theorem escape_unitEscape (unit : UInt16) (rest : List Char) :
    escape ((unitEscape unit ++ rest).drop 1) = ⟨.ok unit, 5⟩ := by
  have hLt : unit.toNat < 65536 := unit.toNat_lt
  obtain ⟨h1, v1, u1⟩ := hexDigit_facts (unit.toNat / 4096) (by omega)
  obtain ⟨h2, v2, -⟩ := hexDigit_facts (unit.toNat / 256 % 16) (by omega)
  obtain ⟨h3, v3, -⟩ := hexDigit_facts (unit.toNat / 16 % 16) (by omega)
  obtain ⟨h4, v4, -⟩ := hexDigit_facts (unit.toNat % 16) (by omega)
  have hValue : (((unit.toNat / 4096) * 16 + unit.toNat / 256 % 16) * 16 + unit.toNat / 16 % 16) * 16 +
      unit.toNat % 16 = unit.toNat := by omega
  simp [unitEscape, escape, h1, h2, h3, h4, u1, numberOf, v1, v2, v3, v4, hValue]

@[simp]
theorem unitEscape_length (unit : UInt16) : (unitEscape unit).length = 6 := rfl

theorem flatMap_unitEscape_length (units : List UInt16) : (units.flatMap unitEscape).length = 6 * units.length := by
  induction units with
  | nil => rfl
  | cons u units ih => simp [ih]; omega

theorem stringBody_escapes (units read : List UInt16) (rest : List Char) (fuel width : Nat)
    (hFuel : units.length < fuel) :
    stringBody fuel (units.flatMap unitEscape ++ '"' :: rest) read width =
      ⟨.string (Utf16.decode (read.reverse ++ units)), width + 6 * units.length + 1⟩ := by
  induction units generalizing fuel read width with
  | nil =>
    cases fuel with
    | zero => simp at hFuel
    | succ fuel => simp [stringBody]
  | cons u units ih =>
    cases fuel with
    | zero => simp at hFuel
    | succ fuel =>
      have hEscape := escape_unitEscape u (units.flatMap unitEscape ++ '"' :: rest)
      have hNext := ih (u :: read) fuel (width + 6) (by simpa using hFuel)
      simp only [List.flatMap_cons, List.append_assoc]
      rw [unitEscape] at hEscape ⊢
      simp only [List.cons_append, List.drop_succ_cons, List.drop_zero] at hEscape ⊢
      rw [stringBody]
      simp only [hEscape]
      simpa [Nat.mul_add, Nat.add_assoc, Nat.add_comm, Nat.add_left_comm] using hNext

theorem scan_text (rest : List Char) : scan ('"' :: rest) =
      ⟨(stringBody rest.length rest [] 0).found, (stringBody rest.length rest [] 0).width + 1⟩ := rfl

theorem scan_unit (rest : List Char) : scan ('\'' :: rest) = ⟨(charBody rest).found, (charBody rest).width + 1⟩ := rfl

theorem reads_string (text : String) : Reads (Token.string text).spelling.toList (.string text) where
  nonempty := by simp [Token.spelling]
  skip_eq rest pos _ := by
    simp only [Token.spelling, String.toList_ofList, List.cons_append]
    exact skip_start (by decide) (by decide)
  scan_eq rest _ := by
    generalize hUnits : text.toList.flatMap Utf16.units = units
    have hBody := stringBody_escapes units [] rest (units.flatMap unitEscape ++ '"' :: rest).length 0
      (by rw [List.length_append, flatMap_unitEscape_length]; simp; omega)
    have hDecode : Utf16.decode units = text := hUnits ▸ Utf16.decode_flatMap_units text
    simp only [Token.spelling, hUnits, String.toList_ofList, List.cons_append, List.append_assoc, List.nil_append]
    rw [scan_text, hBody]
    simp only [List.reverse_nil, List.nil_append, hDecode, List.length_cons, List.length_append,
      flatMap_unitEscape_length, List.length_nil, Nat.zero_add]

theorem reads_char (unit : UInt16) : Reads (Token.char unit).spelling.toList (.char unit) where
  nonempty := by simp [Token.spelling]
  skip_eq rest pos _ := by
    simp only [Token.spelling, String.toList_ofList, List.cons_append]
    exact skip_start (by decide) (by decide)
  scan_eq rest _ := by
    have hEscape := escape_unitEscape unit ('\'' :: rest)
    have hBody : charBody (unitEscape unit ++ '\'' :: rest) = ⟨.char unit, 7⟩ := by
      rw [unitEscape] at hEscape ⊢
      simp only [List.cons_append, List.drop_succ_cons, List.drop_zero] at hEscape ⊢
      simp only [charBody, charUnit, hEscape]
      rfl
    simp only [Token.spelling, String.toList_ofList, List.cons_append, List.append_assoc, List.nil_append]
    rw [scan_unit, hBody]
    rfl

/-! Whole texts. -/

theorem decimal_toList (n : Nat) : (toString (n : Int)).toList = Nat.toDigits 10 n := by
  change (toString n).toList = _
  rw [Nat.toString_eq_ofList_toDigits, String.toList_ofList]

theorem reads_spelling {t : Token} (h : t.hasSpelling = true) : Reads t.spelling.toList t := by
  cases t with
  | int value =>
    simp only [Token.hasSpelling, Bool.and_eq_true, decide_eq_true_eq] at h
    obtain ⟨n, hn⟩ := Int.eq_ofNat_of_zero_le h.1
    have hReads := reads_number hn .none (Int.ofNat_le.1 (hn ▸ h.2))
    rw [Token.spelling, hn, decimal_toList]
    simpa [Suffix.text, Suffix.isLong] using hReads
  | long value =>
    simp only [Token.hasSpelling, decide_eq_true_eq] at h
    obtain ⟨n, hn⟩ := Int.eq_ofNat_of_zero_le h
    have hBound := value.toInt_lt
    have hReads := reads_number hn .upper (by change n ≤ 9223372036854775808; omega)
    rw [Token.spelling, hn, String.toList_append, decimal_toList]
    exact hReads
  | string text => exact reads_string text
  | char unit => exact reads_char unit
  | ident name =>
    simp only [Token.hasSpelling, isName, Bool.and_eq_true, Option.isNone_iff_eq_none] at h
    obtain ⟨⟨⟨hChars, hKeyword⟩, hModifier⟩, hPrimitive⟩ := h
    rw [Token.spelling]
    cases hList : name.toList with
    | nil => simp [hList] at hChars
    | cons c rest =>
      have hWord : String.ofList (c :: rest) = name := by rw [← hList, String.ofList_toList]
      have hToken : wordToken name = .ident name := by simp [wordToken, hKeyword, hModifier, hPrimitive]
      simp only [hList, Bool.and_eq_true] at hChars
      simpa [hWord, hToken] using reads_word hChars.1 hChars.2
  | keyword k => cases k <;> exact reads_word (by decide) (by decide)
  | modifier m =>
    cases m with
    | synchronized => simp [Token.hasSpelling] at h
    | _ => exact reads_word (by decide) (by decide)
  | primitive p => cases p <;> exact reads_word (by decide) (by decide)
  | symbol s => exact reads_symbol s
  | float value => cases h
  | double value => cases h
  | bad fault => cases h
  | eof => cases h

theorem tokensAt_blank (chars : List Char) (pos : Position) :
    tokensAt (' ' :: chars) pos = tokensAt chars (pos.next ' ') := by
  have hSkip : skip .blanks (' ' :: chars) pos = skip .blanks chars (pos.next ' ') := by
    rw [skip]
    · simp [CharClass.isBlank]
    · simp
    · simp
  rcases hRest : skip .blanks chars (pos.next ' ') with ⟨_ | ⟨c, rest⟩, start⟩
  · rw [tokensAt_end (hSkip.trans hRest), tokensAt_end hRest]
  · rw [tokensAt_next (hSkip.trans hRest), tokensAt_next hRest]

theorem tokensAt_spellings (tokens : List Token) (h : ∀ t ∈ tokens, t.hasSpelling = true) (pos : Position) :
    (tokensAt ([' '].intercalate (tokens.map fun t => t.spelling.toList)) pos).map PlacedToken.token =
      tokens ++ [.eof] := by
  induction tokens generalizing pos with
  | nil => rfl
  | cons t tokens ih =>
    obtain ⟨hOwn, hMore⟩ := List.forall_mem_cons.1 h
    have hReads := reads_spelling hOwn
    cases tokens with
    | nil =>
      have hTokens := hReads.tokensAt [] trivial pos
      rw [List.append_nil] at hTokens
      simp only [List.map_cons, List.map_nil, List.intercalate_singleton, hTokens]
      rfl
    | cons s tokens =>
      have hTokens := hReads.tokensAt (' ' :: [' '].intercalate ((s :: tokens).map fun t => t.spelling.toList)) rfl pos
      rw [tokensAt_blank] at hTokens
      rw [List.map_cons, List.map_cons, List.intercalate_cons_cons, List.append_assoc]
      simp only [List.map_cons, List.cons_append, List.nil_append] at hTokens ih ⊢
      rw [hTokens, List.map_cons, ih hMore]

end Lexer

/-- Tokens that are spelled with a blank between any two of them are read back, with the end of input after
them. -/
theorem tokenize_spellings (tokens : List Token) (h : ∀ t ∈ tokens, t.hasSpelling = true) :
    (tokenize (" ".intercalate (tokens.map Token.spelling))).map PlacedToken.token = tokens ++ [.eof] := by
  have hChars : (" ".intercalate (tokens.map Token.spelling)).toList =
      [' '].intercalate (tokens.map fun t => t.spelling.toList) := by
    simp [String.toList_intercalate, Function.comp_def]
  rw [tokenize_eq_tokensAt, hChars]
  exact Lexer.tokensAt_spellings tokens h ⟨1, 1⟩

/-- Tokens that would run together without the blanks, numbers at their limits, a pair of surrogates in a text
and half a pair in a character. -/
theorem tokenize_spellings_adjacent :
    (∀ t ∈ ([.symbol .slash, .symbol .slash, .symbol .star, .int 2147483648, .symbol .dot, .int 0,
        .long 9223372036854775807, .ident "é$1", .ident "L", .keyword .synchronizedKw, .modifier .final,
        .string "a😀\n\"", .char 0xd83d, .symbol .rightShift, .symbol .greaterEqual] : List Token),
      t.hasSpelling = true) ∧
    (tokenize (" ".intercalate (([.symbol .slash, .symbol .slash, .symbol .star, .int 2147483648, .symbol .dot,
        .int 0, .long 9223372036854775807, .ident "é$1", .ident "L", .keyword .synchronizedKw, .modifier .final,
        .string "a😀\n\"", .char 0xd83d, .symbol .rightShift, .symbol .greaterEqual] : List Token).map
        Token.spelling))).map PlacedToken.token =
      [.symbol .slash, .symbol .slash, .symbol .star, .int 2147483648, .symbol .dot, .int 0,
        .long 9223372036854775807, .ident "é$1", .ident "L", .keyword .synchronizedKw, .modifier .final,
        .string "a😀\n\"", .char 0xd83d, .symbol .rightShift, .symbol .greaterEqual] ++ [.eof] :=
  ⟨by decide +kernel, tokenize_spellings _ (by decide +kernel)⟩

end JavaFragment
