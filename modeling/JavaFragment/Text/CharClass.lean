import JavaFragment.Text.CharRange
/-!
Classes of characters used when reading source text and when quoting it.
-/
namespace JavaFragment.CharClass

/-- Whether a character is beyond ASCII and in one of the ranges. -/
def beyondAscii (ranges : List (Nat × Nat)) (c : Char) : Bool :=
  128 ≤ c.toNat && CharRange.holds ranges c.toNat

/-- Letters of any script. -/
def isLetter (c : Char) : Bool := c.isAlpha || beyondAscii CharRange.alphabetic c

/-- Digits and other number characters of any script. -/
def isNumber (c : Char) : Bool := c.isDigit || beyondAscii CharRange.numeric c

/-- White space, which separates tokens. -/
def isBlank (c : Char) : Bool :=
  c == ' ' || (9 ≤ c.toNat && c.toNat ≤ 13) || beyondAscii CharRange.blank c

/-- A character that may begin a name. -/
def isNameStart (c : Char) : Bool := isLetter c || c == '_' || c == '$'

/-- A character that may continue a name. -/
def isNamePart (c : Char) : Bool := isLetter c || isNumber c || c == '_' || c == '$'

/-- A character that can be shown as itself in quoted text. -/
def isPrintable (c : Char) : Bool :=
  if c.toNat < 128 then 32 ≤ c.toNat && c.toNat < 127
  else !CharRange.holds CharRange.unprintable c.toNat && !CharRange.holds CharRange.extending c.toNat

end JavaFragment.CharClass
