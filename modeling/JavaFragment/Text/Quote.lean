import JavaFragment.Text.CharClass
/-!
Ways of writing text with escapes: quoted tokens keep printable characters of every script, while
displayed constants keep those of ASCII only.
-/
namespace JavaFragment.Quote

/-- Hexadecimal digits without leading zeros. -/
def hex (n : Nat) : String := String.ofList (Nat.toDigits 16 n)

/-- Hexadecimal digits, at least `width` of them. -/
def hexPadded (width n : Nat) : String :=
  let digits := hex n
  "".pushn '0' (width - digits.length) ++ digits

/-- An escape by code point. -/
def codePoint (c : Char) : String := "\\u\x7b" ++ hex c.toNat ++ "\x7d"

/-- A character inside a quoted token. -/
def tokenChar (c : Char) : String :=
  match c with
  | '"' => "\\\""
  | '\\' => "\\\\"
  | '\n' => "\\n"
  | '\t' => "\\t"
  | '\r' => "\\r"
  | '\x00' => "\\0"
  | c => if CharClass.isPrintable c then c.toString else codePoint c

/-- A text as it appears in a quoted token, with its quotation marks. -/
def token (text : String) : String :=
  "\"" ++ text.foldl (fun out c => out ++ tokenChar c) "" ++ "\""

/-- A character inside a displayed constant. -/
def constantChar (c : Char) : String :=
  match c with
  | '\t' => "\\t"
  | '\r' => "\\r"
  | '\n' => "\\n"
  | '\'' => "\\'"
  | '"' => "\\\""
  | '\\' => "\\\\"
  | c => if 32 ≤ c.toNat && c.toNat < 127 then c.toString else codePoint c

/-- A text as it appears in a displayed constant, without quotation marks. -/
def constant (text : String) : String :=
  text.foldl (fun out c => out ++ constantChar c) ""

end JavaFragment.Quote
