import JavaFragment.Text.Utf16
import JavaFragment.Syntax.Token
/-!
Reading source text as tokens. Each token is scanned from the characters at hand and says how many of
them it takes; blanks and comments between tokens are skipped.
-/
namespace JavaFragment

namespace Lexer

/-- What is being skipped between tokens. -/
inductive Gap where
  | blanks
  | lineComment
  | blockComment

/-- Skips blanks and comments. A block comment that is never closed runs to the end. -/
def skip : Gap → List Char → Position → List Char × Position
  | _, [], pos => ([], pos)
  | .blanks, '/' :: '/' :: rest, pos => skip .lineComment rest ((pos.next '/').next '/')
  | .blanks, '/' :: '*' :: rest, pos => skip .blockComment rest ((pos.next '/').next '*')
  | .blanks, c :: rest, pos =>
    if CharClass.isBlank c then skip .blanks rest (pos.next c) else (c :: rest, pos)
  | .lineComment, c :: rest, pos =>
    skip (if c == '\n' then .blanks else .lineComment) rest (pos.next c)
  | .blockComment, '*' :: '/' :: rest, pos => skip .blanks rest ((pos.next '*').next '/')
  | .blockComment, c :: rest, pos => skip .blockComment rest (pos.next c)

/-- What a scan finds and how many characters it takes. -/
structure Scan (α : Type) where
  found : α
  width : Nat

def isOctal (c : Char) : Bool := '0' ≤ c && c ≤ '7'

def isHex (c : Char) : Bool :=
  c.isDigit || ('a' ≤ c && c ≤ 'f') || ('A' ≤ c && c ≤ 'F')

/-- The value of a digit in any base up to sixteen. -/
def digitValue (c : Char) : Nat :=
  if c.isDigit then c.toNat - '0'.toNat
  else if 'a' ≤ c then c.toNat - 'a'.toNat + 10
  else c.toNat - 'A'.toNat + 10

/-- The number that digits spell in a base. -/
def numberOf (base : Nat) (digits : List Char) : Nat :=
  digits.foldl (fun n c => n * base + digitValue c) 0

/-- The number that digits spell in a base, read until it reaches a limit; the digits after that
are dropped. A number below the limit is read exactly, and any other gives one at least as large
as the limit. -/
def numberWithin (limit base : Nat) (digits : List Char) : Nat :=
  digits.foldl (fun n c => if n < limit then n * base + digitValue c else n) 0

/-- The first number that does not fit 64 bits. -/
def wordLimit : Nat := 18446744073709551616

/-- Scans what follows the backslash of an escape. -/
def escape : List Char → Scan (Except LexFault UInt16)
  | [] => ⟨.error .unterminatedEscape, 0⟩
  | 'n' :: _ => ⟨.ok 10, 1⟩
  | 't' :: _ => ⟨.ok 9, 1⟩
  | 'r' :: _ => ⟨.ok 13, 1⟩
  | 'f' :: _ => ⟨.ok 12, 1⟩
  | 'b' :: _ => ⟨.ok 8, 1⟩
  | '\\' :: _ => ⟨.ok 92, 1⟩
  | '"' :: _ => ⟨.ok 34, 1⟩
  | '\'' :: _ => ⟨.ok 39, 1⟩
  | 'u' :: rest =>
    let marks := (rest.takeWhile (· == 'u')).length
    let after := rest.drop marks
    let digits := (after.take 4).takeWhile isHex
    if digits.length = 4 then ⟨.ok (numberOf 16 digits).toUInt16, 5 + marks⟩
    else
      -- the character that is no digit is used up as well
      ⟨.error .invalidUnicodeEscape, 1 + marks + min (digits.length + 1) after.length⟩
  | c :: rest =>
    if isOctal c then
      let most := if c ≤ '3' then 2 else 1
      let others := (rest.take most).takeWhile isOctal
      ⟨.ok (numberOf 8 (c :: others)).toUInt16, 1 + others.length⟩
    else ⟨.error (.invalidEscape c), 1⟩

/-- Scans a string after its opening quotation mark. The units read so far come in reverse order
and `width` counts the characters they took. The fuel bounds the number of characters. -/
def stringBody : Nat → List Char → List UInt16 → Nat → Scan Token
  | 0, _, _, width => ⟨.bad .unterminatedString, width⟩
  | _, [], _, width => ⟨.bad .unterminatedString, width⟩
  | _, '\n' :: _, _, width => ⟨.bad .unterminatedString, width⟩
  | _, '"' :: _, units, width => ⟨.string (Utf16.decode units.reverse), width + 1⟩
  | fuel + 1, '\\' :: rest, units, width =>
    let scan := escape rest
    match scan.found with
    | .ok unit => stringBody fuel (rest.drop scan.width) (unit :: units) (width + 1 + scan.width)
    | .error fault => ⟨.bad fault, width + 1 + scan.width⟩
  | fuel + 1, c :: rest, units, width =>
    stringBody fuel rest ((Utf16.units c).reverse ++ units) (width + 1)

/-- Scans the unit inside a character literal. -/
def charUnit : List Char → Scan (Except LexFault UInt16)
  | [] => ⟨.error .unterminatedChar, 0⟩
  | '\n' :: _ => ⟨.error .unterminatedChar, 0⟩
  | '\'' :: _ => ⟨.error .unterminatedChar, 0⟩
  | '\\' :: rest => let scan := escape rest; ⟨scan.found, 1 + scan.width⟩
  | c :: _ => match Utf16.units c with
    | [unit] => ⟨.ok unit, 1⟩
    | _ => ⟨.error .charTooWide, 1⟩

/-- Scans a character literal after its opening quotation mark. -/
def charBody (chars : List Char) : Scan Token :=
  let scan := charUnit chars
  match scan.found with
  | .error fault => ⟨.bad fault, scan.width⟩
  | .ok unit => match chars.drop scan.width with
    | '\'' :: _ => ⟨.char unit, scan.width + 1⟩
    | _ => ⟨.bad .unclosedChar, scan.width⟩

/-- A run of digits with underscores between them: the digits and the width of the run. -/
def digitRun (isDigit : Char → Bool) (chars : List Char) : Scan (List Char) :=
  let run := chars.takeWhile fun c => c == '_' || isDigit c
  ⟨run.filter (· != '_'), run.length⟩

/-- Whether one of the letters comes first. -/
def startsWith (letters : List Char) : List Char → Bool
  | [] => false
  | c :: _ => letters.contains c

/-- An integer of 32 bits read from its bit pattern. -/
def intPattern (n : Nat) : Int64 := n.toUInt32.toInt32.toInt64

/-- Scans a hexadecimal literal after `0x`. -/
def hexNumber (chars : List Char) : Scan Token :=
  let digits := digitRun isHex chars
  let isLong := startsWith ['L', 'l'] (chars.drop digits.width)
  let value := numberWithin wordLimit 16 digits.found
  let token : Token :=
    if digits.found.isEmpty then .bad .invalidHex
    else if isLong && value < wordLimit then .long value.toUInt64.toInt64
    else if !isLong && value < 4294967296 then .int (intPattern value)
    else .bad .invalidHex
  ⟨token, digits.width + (if isLong then 1 else 0)⟩

/-- Whether what follows a point after a whole number makes the point part of the number. -/
def pointBelongs : List Char → Bool
  | [] => true
  | c :: rest =>
    if c == 'e' || c == 'E' then
      match rest with
      | [] => false
      | d :: _ => d.isDigit || d == '+' || d == '-'
    else if c == 'f' || c == 'F' || c == 'd' || c == 'D' then
      match rest with
      | [] => true
      | d :: _ => !CharClass.isNamePart d
    else !CharClass.isNameStart c

/-- An exponent part, if there is one: whether there is, its sign and its digits. -/
structure ExponentPart where
  present : Bool
  negative : Bool
  digits : List Char

def exponentPart (chars : List Char) : Scan ExponentPart :=
  match chars with
  | c :: rest =>
    if c == 'e' || c == 'E' then
      let signed := startsWith ['+', '-'] rest
      let digits := digitRun Char.isDigit (rest.drop (if signed then 1 else 0))
      ⟨⟨true, startsWith ['-'] rest, digits.found⟩,
        1 + (if signed then 1 else 0) + digits.width⟩
    else ⟨⟨false, false, []⟩, 0⟩
  | [] => ⟨⟨false, false, []⟩, 0⟩

/-- Digits of an exponent count until it reaches this. -/
def exponentLimit : Nat := 65536

/-- The signed exponent. -/
def ExponentPart.power (e : ExponentPart) : Int :=
  let power : Int := numberWithin exponentLimit 10 e.digits
  if e.negative then -power else power

/-- The digits that decide how a number is rounded: the first eight hundred, and a one in place of
all others unless they are zeros. Halfway between two neighbouring values there is no number with
so many digits. -/
def deciding (digits : List Char) : List Char :=
  let kept := digits.take 800
  if (digits.drop 800).all (· == '0') then kept else kept ++ ['1']

/-- The value of a literal with fraction and exponent; `none` if the exponent has no digits. -/
def floatValue (whole fraction : List Char) (e : ExponentPart) : Option Binary64 :=
  if e.present && e.digits.isEmpty then none
  else
    let digits := (whole ++ fraction).dropWhile (· == '0')
    let kept := deciding digits
    let scale := e.power - fraction.length + digits.length - kept.length
    some (Binary64.ofDecimal (numberOf 10 kept) kept.length scale)

/-- The token of a literal without fraction and exponent. A leading zero makes it octal. Decimal
literals up to 2^31 are kept, since a sign may stand before them. -/
def integerToken (digits : List Char) (isLong : Bool) : Token :=
  let fault : Token := .bad (.integerTooLarge (String.ofList digits))
  match digits with
  | '0' :: d :: others =>
    let octal := d :: others
    let value := numberWithin wordLimit 8 octal
    if !octal.all isOctal || wordLimit ≤ value then fault
    else if isLong then .long value.toUInt64.toInt64
    else if value < 4294967296 then .int (intPattern value)
    else fault
  | _ =>
    let value := numberWithin wordLimit 10 digits
    if isLong && value ≤ 9223372036854775808 then .long value.toUInt64.toInt64
    else if !isLong && value ≤ 2147483648 then .int (Int64.ofNat value)
    else fault

/-- Scans a decimal or octal number, which begins with a digit or with a point and a digit. -/
def decimalNumber (chars : List Char) : Scan Token :=
  let whole := digitRun Char.isDigit chars
  let rest := chars.drop whole.width
  let pointed := match rest with
    | '.' :: after => whole.found.isEmpty || pointBelongs after
    | _ => false
  let fraction := if pointed then digitRun Char.isDigit (rest.drop 1) else ⟨[], 0⟩
  let rest := rest.drop (if pointed then 1 + fraction.width else 0)
  let exponent := exponentPart rest
  let rest := rest.drop exponent.width
  let width := whole.width + (if pointed then 1 + fraction.width else 0) + exponent.width
  let value := floatValue whole.found fraction.found exponent.found
  if startsWith ['f', 'F'] rest then
    ⟨match value with
      | some v => .float v.toBinary32
      | none => .bad .invalidFloat, width + 1⟩
  else
    let marked := startsWith ['d', 'D'] rest
    if marked || pointed || exponent.found.present then
      ⟨match value with
        | some v => .double v
        | none => .bad .invalidDouble, if marked then width + 1 else width⟩
    else
      let isLong := startsWith ['L', 'l'] rest
      ⟨integerToken whole.found isLong, if isLong then width + 1 else width⟩

/-- Scans a number. -/
def number : List Char → Scan Token
  | '0' :: x :: rest =>
    if x == 'x' || x == 'X' then
      let scan := hexNumber rest
      ⟨scan.found, scan.width + 2⟩
    else decimalNumber ('0' :: x :: rest)
  | chars => decimalNumber chars

/-- The token of a word: a modifier, a keyword, the name of a primitive type or a name. The word
`synchronized` counts as a keyword. -/
def wordToken (word : String) : Token :=
  match Keyword.ofText? word with
  | some k => .keyword k
  | none => match Modifier.ofKeyword? word with
    | some m => .modifier m
    | none => match Primitive.ofKeyword? word with
      | some p => .primitive p
      | none => .ident word

/-- Scans the longest symbol at the start of the characters. -/
def symbol? (chars : List Char) : Option (Scan Token) :=
  (Symbol.table.find? fun (text, _) => text.toList.isPrefixOf chars).map
    fun (text, s) => ⟨.symbol s, text.length⟩

/-- Scans one token. There is a first character, which belongs to it. -/
def scan : List Char → Scan Token
  | [] => ⟨.eof, 0⟩
  | c :: rest =>
    if c.isDigit || (c == '.' && match rest with | d :: _ => d.isDigit | [] => false) then
      number (c :: rest)
    else if CharClass.isNameStart c then
      let word := c :: rest.takeWhile CharClass.isNamePart
      ⟨wordToken (String.ofList word), word.length⟩
    else if c == '"' then
      let body := stringBody rest.length rest [] 0
      ⟨body.found, body.width + 1⟩
    else if c == '\'' then
      let body := charBody rest
      ⟨body.found, body.width + 1⟩
    else match symbol? (c :: rest) with
      | some s => s
      | none => ⟨.bad (.unexpectedCharacter c), 1⟩

/-- Moves over a number of characters. -/
def advance : Nat → List Char → Position → List Char × Position
  | n + 1, c :: rest, pos => advance n rest (pos.next c)
  | _, chars, pos => (chars, pos)

/-- Reads tokens onto those found so far. Every token takes a character, so that fuel for each
character and the end suffices. -/
def tokensOnto : Nat → List Char → Position → Array PlacedToken → Array PlacedToken
  | 0, _, pos, found => found.push ⟨.eof, pos⟩
  | fuel + 1, chars, pos, found =>
    match skip .blanks chars pos with
    | ([], pos) => found.push ⟨.eof, pos⟩
    | (chars, pos) =>
      let next := scan chars
      let (rest, after) := advance next.width chars pos
      tokensOnto fuel rest after (found.push ⟨next.found, pos⟩)

end Lexer

/-- The tokens of a source text. The last one marks its end. -/
def tokenize (source : String) : List PlacedToken :=
  let chars := source.toList
  (Lexer.tokensOnto (chars.length + 1) chars ⟨1, 1⟩ #[]).toList

end JavaFragment
