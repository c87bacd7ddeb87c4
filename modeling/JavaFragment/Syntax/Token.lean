import JavaFragment.Number.Binary
import JavaFragment.Number.Shortest
import JavaFragment.Type.Basic
import JavaFragment.Type.Access
import JavaFragment.Text.Quote
/-!
Tokens of the source language. Malformed input is a token of its own, which carries the reason and
is refused when it is read as part of a phrase.
-/
namespace JavaFragment

/-- Reserved words other than modifiers and the names of primitive types. -/
inductive Keyword where
  | ifKw
  | elseKw
  | whileKw
  | doKw
  | forKw
  | returnKw
  | newKw
  | thisKw
  | superKw
  | throwKw
  | throwsKw
  | breakKw
  | continueKw
  | instanceofKw
  | switchKw
  | caseKw
  | defaultKw
  | tryKw
  | catchKw
  | finallyKw
  | nullKw
  | trueKw
  | falseKw
  | synchronizedKw
  | classKw
deriving DecidableEq, Repr, Inhabited

namespace Keyword

/-- The keywords with their spelling. -/
def table : List (String × Keyword) := [
  ("if", .ifKw), ("else", .elseKw), ("while", .whileKw), ("do", .doKw), ("for", .forKw),
  ("return", .returnKw), ("new", .newKw), ("this", .thisKw), ("super", .superKw),
  ("throw", .throwKw), ("throws", .throwsKw), ("break", .breakKw), ("continue", .continueKw),
  ("instanceof", .instanceofKw), ("switch", .switchKw), ("case", .caseKw),
  ("default", .defaultKw), ("try", .tryKw), ("catch", .catchKw), ("finally", .finallyKw),
  ("null", .nullKw), ("true", .trueKw), ("false", .falseKw), ("synchronized", .synchronizedKw),
  ("class", .classKw)]

def ofText? (word : String) : Option Keyword := table.lookup word

/-- The name of a keyword in messages. -/
def label : Keyword → String
  | .ifKw => "If"
  | .elseKw => "Else"
  | .whileKw => "While"
  | .doKw => "Do"
  | .forKw => "For"
  | .returnKw => "Return"
  | .newKw => "New"
  | .thisKw => "This"
  | .superKw => "Super"
  | .throwKw => "Throw"
  | .throwsKw => "Throws"
  | .breakKw => "Break"
  | .continueKw => "Continue"
  | .instanceofKw => "Instanceof"
  | .switchKw => "Switch"
  | .caseKw => "Case"
  | .defaultKw => "Default"
  | .tryKw => "Try"
  | .catchKw => "Catch"
  | .finallyKw => "Finally"
  | .nullKw => "Null"
  | .trueKw => "True"
  | .falseKw => "False"
  | .synchronizedKw => "Synchronized"
  | .classKw => "Class"

end Keyword

/-- Operators and delimiters. -/
inductive Symbol where
  | unsignedRightAssign
  | leftAssign
  | rightAssign
  | unsignedRight
  | increment
  | decrement
  | plusAssign
  | minusAssign
  | starAssign
  | slashAssign
  | percentAssign
  | andAnd
  | ampAssign
  | orOr
  | pipeAssign
  | caretAssign
  | notEqual
  | equal
  | leftShift
  | lessEqual
  | rightShift
  | greaterEqual
  | plus
  | minus
  | star
  | slash
  | percent
  | amp
  | pipe
  | caret
  | tilde
  | bang
  | assign
  | less
  | greater
  | leftParen
  | rightParen
  | leftBrace
  | rightBrace
  | leftBracket
  | rightBracket
  | semicolon
  | comma
  | dot
  | question
  | colon
deriving DecidableEq, Repr, Inhabited

namespace Symbol

/-- The symbols with their spelling, every symbol before those it extends. -/
def table : List (String × Symbol) := [
  (">>>=", .unsignedRightAssign), ("<<=", .leftAssign), (">>=", .rightAssign),
  (">>>", .unsignedRight), ("++", .increment), ("--", .decrement), ("+=", .plusAssign),
  ("-=", .minusAssign), ("*=", .starAssign), ("/=", .slashAssign), ("%=", .percentAssign),
  ("&&", .andAnd), ("&=", .ampAssign), ("||", .orOr), ("|=", .pipeAssign), ("^=", .caretAssign),
  ("!=", .notEqual), ("==", .equal), ("<<", .leftShift), ("<=", .lessEqual), (">>", .rightShift),
  (">=", .greaterEqual), ("+", .plus), ("-", .minus), ("*", .star), ("/", .slash),
  ("%", .percent), ("&", .amp), ("|", .pipe), ("^", .caret), ("~", .tilde), ("!", .bang),
  ("=", .assign), ("<", .less), (">", .greater), ("(", .leftParen), (")", .rightParen),
  ("\x7b", .leftBrace), ("\x7d", .rightBrace), ("[", .leftBracket), ("]", .rightBracket),
  (";", .semicolon), (",", .comma), (".", .dot), ("?", .question), (":", .colon)]

/-- The name of a symbol in messages. -/
def label : Symbol → String
  | .unsignedRightAssign => "GtGtGtEq"
  | .leftAssign => "LtLtEq"
  | .rightAssign => "GtGtEq"
  | .unsignedRight => "GtGtGt"
  | .increment => "PlusPlus"
  | .decrement => "MinusMinus"
  | .plusAssign => "PlusEq"
  | .minusAssign => "MinusEq"
  | .starAssign => "StarEq"
  | .slashAssign => "SlashEq"
  | .percentAssign => "PercentEq"
  | .andAnd => "AmpAmp"
  | .ampAssign => "AmpEq"
  | .orOr => "PipePipe"
  | .pipeAssign => "PipeEq"
  | .caretAssign => "CaretEq"
  | .notEqual => "BangEq"
  | .equal => "EqEq"
  | .leftShift => "LtLt"
  | .lessEqual => "LtEq"
  | .rightShift => "GtGt"
  | .greaterEqual => "GtEq"
  | .plus => "Plus"
  | .minus => "Minus"
  | .star => "Star"
  | .slash => "Slash"
  | .percent => "Percent"
  | .amp => "Amp"
  | .pipe => "Pipe"
  | .caret => "Caret"
  | .tilde => "Tilde"
  | .bang => "Bang"
  | .assign => "Eq"
  | .less => "Lt"
  | .greater => "Gt"
  | .leftParen => "LParen"
  | .rightParen => "RParen"
  | .leftBrace => "LBrace"
  | .rightBrace => "RBrace"
  | .leftBracket => "LBracket"
  | .rightBracket => "RBracket"
  | .semicolon => "Semicolon"
  | .comma => "Comma"
  | .dot => "Dot"
  | .question => "Question"
  | .colon => "Colon"

end Symbol

/-- Why a piece of source text is no token. -/
inductive LexFault where
  | unexpectedCharacter (c : Char)
  | unterminatedEscape
  | invalidUnicodeEscape
  | invalidEscape (c : Char)
  | unterminatedString
  | unterminatedChar
  | charTooWide
  | unclosedChar
  | invalidHex
  | invalidFloat
  | invalidDouble
  | integerTooLarge (digits : String)
deriving DecidableEq, Repr, Inhabited

def LexFault.message : LexFault → String
  | .unexpectedCharacter c => "unexpected character: '" ++ c.toString ++ "'"
  | .unterminatedEscape => "unterminated escape sequence"
  | .invalidUnicodeEscape => "invalid unicode escape"
  | .invalidEscape c => "invalid escape sequence: \\" ++ c.toString
  | .unterminatedString => "unterminated string literal"
  | .unterminatedChar => "unterminated char literal"
  | .charTooWide => "character literal does not fit in a char"
  | .unclosedChar => "expected closing ' in char literal"
  | .invalidHex => "invalid hex literal"
  | .invalidFloat => "invalid float literal"
  | .invalidDouble => "invalid double literal"
  | .integerTooLarge digits => "integer number too large: " ++ digits

/-- A token. Integer literals of both widths are held in 64 bits. -/
inductive Token where
  | int (value : Int64)
  | long (value : Int64)
  | float (value : Binary32)
  | double (value : Binary64)
  | string (text : String)
  | char (unit : UInt16)
  | ident (name : String)
  | keyword (k : Keyword)
  | modifier (m : Modifier)
  | primitive (p : Primitive)
  | symbol (s : Symbol)
  | bad (fault : LexFault)
  | eof
deriving DecidableEq, Repr, Inhabited

/-- Line and column of a character, both counted from one. -/
structure Position where
  line : Nat
  column : Nat
deriving DecidableEq, Repr, Inhabited

/-- The position after a character. -/
def Position.next (p : Position) (c : Char) : Position :=
  if c == '\n' then ⟨p.line + 1, 1⟩ else ⟨p.line, p.column + 1⟩

/-- A token and the position of its first character. -/
structure PlacedToken where
  token : Token
  position : Position
deriving DecidableEq, Repr, Inhabited

/-- Numbers in quoted tokens: positional from 0.0001 up to sixteen whole digits, with `.0` on whole
numbers. -/
def FloatLayout.quotedToken : FloatLayout :=
  { positional := some (-4, 15)
    wholePoint := true
    mantissaPoint := false
    exponentMark := "e"
    infinity := "inf" }

namespace Token

/-- The name of the sort of token. -/
def label : Token → String
  | .int _ => "IntLiteral"
  | .long _ => "LongLiteral"
  | .float _ => "FloatLiteral"
  | .double _ => "DoubleLiteral"
  | .string _ => "StringLiteral"
  | .char _ => "CharLiteral"
  | .ident _ => "Ident"
  | .keyword k => k.label
  | .modifier _ => "Modifier"
  | .primitive p => "Kw" ++ p.keyword.capitalize
  | .symbol s => s.label
  | .bad _ => "Bad"
  | .eof => "Eof"

/-- What a token holds besides its sort, as written in messages. -/
def payload? : Token → Option String
  | .int value | .long value => some (toString value)
  | .float value =>
    some (FloatLayout.quotedToken.write .double value.toBinary64.bits.toNat)
  | .double value => some (FloatLayout.quotedToken.write .double value.bits.toNat)
  | .string text => some (Quote.token text)
  | .char unit => some (toString unit)
  | .ident name => some (Quote.token name)
  | .modifier m => some ("Modifiers(" ++ toString m.flag.bits ++ ")")
  | .bad fault => some (Quote.token fault.message)
  | .keyword _ | .primitive _ | .symbol _ | .eof => none

/-- A token as quoted in messages. -/
def quoted (t : Token) : String :=
  match t.payload? with
  | some payload => t.label ++ "(" ++ payload ++ ")"
  | none => t.label

/-- Whether a token can begin an operand, which tells a cast from an expression in parentheses. -/
def startsTerm : Token → Bool
  | .int _ | .long _ | .float _ | .double _ | .string _ | .char _ | .ident _ => true
  | .keyword k => match k with
    | .thisKw | .superKw | .newKw | .nullKw | .trueKw | .falseKw => true
    | _ => false
  | .symbol s => match s with
    | .leftParen | .bang | .tilde => true
    | _ => false
  | .modifier _ | .primitive _ | .bad _ | .eof => false

end Token

end JavaFragment
