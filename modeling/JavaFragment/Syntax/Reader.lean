import JavaFragment.Syntax.Token
import JavaFragment.Syntax.Scope
/-!
The state of reading a phrase: the tokens ahead and the scope that is open. The end of input is
never used up. A failed reading leaves the scopes open that it is inside of, and their number tells
how to get back to the scope that was open at the start.
-/
namespace JavaFragment

/-- Why tokens do not make up a phrase. -/
inductive ParseFault where
  | lexical (fault : LexFault)
  | expected (wanted found : Token)
  | expectedIdent (found : Token)
  | expectedType (found : Token)
  | expectedMember
  | expectedNewTail
  | unexpected (found : Token)
  | trailing (found : Token)
  | alreadyDefined (name : String)
  | duplicateDefault
  | outsideCase
  | bareTry
  | integerTooLarge (value : Int64)
  | assignmentTarget (found : Expr)
  | incrementTarget (found : Expr)
  | notAType (found : Expr)
  | notInstantiable (type : WrittenType)
  | tooDeep

/-- A fault at the token where it was noticed, or a phrase that is understood but not supported. -/
inductive SyntaxError where
  | at (position : Position) (fault : ParseFault)
  | multiCatch

/-- Tokens ahead, the open scope and the number of the next variable. -/
structure ReaderState where
  ahead : List PlacedToken
  scope : Scope
  /-- How many scopes were opened since the start and are not closed. -/
  depth : Nat
  next : Nat
deriving Inhabited

abbrev Reader := EStateM SyntaxError ReaderState

namespace Reader

/-- The token that comes first, the end of input if there is none. -/
def first (ahead : List PlacedToken) : PlacedToken := ahead.headD ⟨.eof, ⟨1, 1⟩⟩

def peek : Reader Token := return (first (← get).ahead).token

/-- The token at a distance from the first. -/
def peekAt (distance : Nat) : Reader Token := return (first ((← get).ahead.drop distance)).token

/-- What is ahead after the first token; the last token stays. -/
def after : List PlacedToken → List PlacedToken
  | _ :: second :: rest => second :: rest
  | ahead => ahead

def advance : Reader Unit := modify fun s => { s with ahead := after s.ahead }

/-- Fails at the first token. A malformed token is reported in place of any other fault. -/
def fail {α : Type} (fault : ParseFault) : Reader α := do
  let placed := first (← get).ahead
  match placed.token with
  | .bad lexical => throw (.at placed.position (.lexical lexical))
  | _ => throw (.at placed.position fault)

/-- Whether the first token is the given one. -/
def isAt (token : Token) : Reader Bool := return (← peek) == token

/-- Uses up the first token if it is the given one. -/
def eat (token : Token) : Reader Bool := do
  if ← isAt token then
    advance
    return true
  else return false

def eatSymbol (s : Symbol) : Reader Bool := eat (.symbol s)
def eatKeyword (k : Keyword) : Reader Bool := eat (.keyword k)

def expect (token : Token) : Reader Unit := do
  unless ← eat token do fail (.expected token (← peek))

def expectSymbol (s : Symbol) : Reader Unit := expect (.symbol s)
def expectKeyword (k : Keyword) : Reader Unit := expect (.keyword k)

def expectIdent : Reader String := do
  match ← peek with
  | .ident name =>
    advance
    return name
  | found => fail (.expectedIdent found)

def expectEnd : Reader Unit := do
  unless ← isAt .eof do fail (.trailing (← peek))

/-- Reads inside a scope of its own. A failure leaves the scope open. -/
def inScope {α : Type} (body : Reader α) : Reader α := do
  modify fun s => { s with scope := s.scope.enter, depth := s.depth + 1 }
  let result ← body
  modify fun s => { s with scope := s.scope.exit, depth := s.depth - 1 }
  return result

def lookup (name : String) : Reader (Option Variable) := return (← get).scope.lookup name

/-- Declares a variable in the open scope. -/
def declare (type : WrittenType) (name : String) : Reader Variable := do
  let s ← get
  if s.scope.declares name then fail (.alreadyDefined name)
  let v : Variable := ⟨s.next, name, type⟩
  set { s with scope := s.scope.declare v, next := s.next + 1 }
  return v

/-- Modifiers at the start of the tokens, and what follows. The word `synchronized` before a
parenthesis begins a statement instead. -/
def splitModifiers (flags : AccessFlags) : List PlacedToken → AccessFlags × List PlacedToken
  | ⟨.modifier m, _⟩ :: rest => splitModifiers (flags.union m.flag) rest
  | ⟨.keyword .synchronizedKw, position⟩ :: rest =>
    if (first rest).token = .symbol .leftParen then
      (flags, ⟨.keyword .synchronizedKw, position⟩ :: rest)
    else splitModifiers (flags.union Modifier.synchronized.flag) rest
  | ahead => (flags, ahead)

def modifiers : Reader AccessFlags :=
  modifyGet fun s =>
    let (flags, ahead) := splitModifiers .none s.ahead
    (flags, { s with ahead := ahead })

/-- Names joined to a first one by points, and what follows. -/
def splitDotted (name : String) : List PlacedToken → String × List PlacedToken
  | ⟨.symbol .dot, _⟩ :: ⟨.ident part, _⟩ :: rest => splitDotted (name ++ "." ++ part) rest
  | ahead => (name, ahead)

/-- Empty pairs of brackets, and what follows. -/
def splitBrackets (dims : Nat) : List PlacedToken → Nat × List PlacedToken
  | ⟨.symbol .leftBracket, _⟩ :: ⟨.symbol .rightBracket, _⟩ :: rest => splitBrackets (dims + 1) rest
  | ahead => (dims, ahead)

def brackets : Reader Nat :=
  modifyGet fun s =>
    let (dims, ahead) := splitBrackets 0 s.ahead
    (dims, { s with ahead := ahead })

/-- Dimensions written after the name of a variable. -/
def bracketsAfter (type : WrittenType) : Reader WrittenType := return type.arrayOf (← brackets)

def writtenType : Reader WrittenType := do
  match ← peek with
  | .primitive p =>
    advance
    bracketsAfter (.primitive p)
  | .ident name =>
    advance
    let dotted ← modifyGet fun s =>
      let (dotted, ahead) := splitDotted name s.ahead
      (dotted, { s with ahead := ahead })
    bracketsAfter (.named dotted)
  | found => fail (.expectedType found)

/-- Whether the tokens begin with a class type and a name, which makes them a declaration. -/
def startsDeclaration : List PlacedToken → Bool
  | ⟨.ident name, _⟩ :: rest =>
    let (_, rest) := splitDotted name rest
    let (_, rest) := splitBrackets 0 rest
    match (first rest).token with
    | .ident _ => true
    | _ => false
  | _ => false

/-- Whether a type in parentheses, of which the opening one is not included, is a cast. For a plain
class name that depends on what follows. -/
def startsCast : List PlacedToken → Bool
  | ⟨.primitive _, _⟩ :: rest =>
    let (_, rest) := splitBrackets 0 rest
    (first rest).token == .symbol .rightParen
  | ⟨.ident name, _⟩ :: rest =>
    let (_, rest) := splitDotted name rest
    let (dims, rest) := splitBrackets 0 rest
    (first rest).token == .symbol .rightParen &&
      (0 < dims || (first (rest.drop 1)).token.startsTerm)
  | _ => false

end Reader

end JavaFragment
