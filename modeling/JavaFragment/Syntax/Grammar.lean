import JavaFragment.Syntax.Lexer
import JavaFragment.Syntax.Reader
/-!
The grammar: one production for each sort of phrase. A production reads its parts through a given
reader of phrases; tying the two together takes fuel, of which the number of tokens gives enough.
-/
namespace JavaFragment

/-- Where a run of statements ends. -/
inductive StatementsEnd where
  | input
  | block
  | case
deriving DecidableEq, Repr

/-- Whether a token ends a run of statements. -/
def StatementsEnd.includes : StatementsEnd → Token → Bool
  | _, .eof => true
  | .block, .symbol .rightBrace => true
  | .case, .symbol .rightBrace | .case, .keyword .caseKw | .case, .keyword .defaultKw => true
  | _, _ => false

/-- Sorts of phrases. Lists come with what was read of them so far, in reverse. -/
inductive Phrase where
  | expression
  | ternary
  | binary (level : Nat)
  | binaryTail (level : Nat) (left : Expr)
  | unary
  | postfixTail (operand : Expr)
  | primary
  | arguments
  | expressions (found : List Expr)
  | lengths (found : List Expr)
  | initializer
  | arrayItems (found : List Expr)
  | statement
  | branch
  | block
  | statements (stop : StatementsEnd) (found : List Stmt)
  | declarators (type : WrittenType) (found : List VariableDecl)
  | switchCases (found : List SwitchCase)
  | caseLabels (defaultSeen : Bool) (labels : List Expr) (isDefault : Bool)
  | catches (found : List CatchClause)
  | parameters (found : List Variable)

/-- What a phrase is read as. -/
@[reducible]
def Phrase.Tree : Phrase → Type
  | .expression | .ternary | .binary _ | .binaryTail _ _ | .unary | .postfixTail _ => Expr
  | .primary | .initializer => Expr
  | .arguments | .expressions _ | .lengths _ | .arrayItems _ => List Expr
  | .statement | .branch => Stmt
  | .block | .statements _ _ => List Stmt
  | .declarators _ _ => List VariableDecl
  | .switchCases _ => List SwitchCase
  | .caseLabels _ _ _ => List Expr × Bool
  | .catches _ => List CatchClause
  | .parameters _ => List Variable

/-- A reader for every sort of phrase. -/
abbrev PhraseReader := (p : Phrase) → Reader p.Tree

/-- What a binary operator makes of its operands. -/
inductive Infix where
  | or
  | and
  | arith (op : BinaryOp)
  | compare (op : CompareOp)
  | instanceOf

namespace Grammar

open Reader

/-- Binary operators with their level; higher ones bind closer. -/
def operator? : Token → Option (Nat × Infix)
  | .symbol s => match s with
    | .orOr => some (1, .or)
    | .andAnd => some (2, .and)
    | .pipe => some (3, .arith .bitOr)
    | .caret => some (4, .arith .bitXor)
    | .amp => some (5, .arith .bitAnd)
    | .equal => some (6, .compare .eq)
    | .notEqual => some (6, .compare .ne)
    | .less => some (7, .compare .lt)
    | .lessEqual => some (7, .compare .le)
    | .greater => some (7, .compare .gt)
    | .greaterEqual => some (7, .compare .ge)
    | .leftShift => some (8, .arith .shl)
    | .rightShift => some (8, .arith .shr)
    | .unsignedRight => some (8, .arith .ushr)
    | .plus => some (9, .arith .add)
    | .minus => some (9, .arith .sub)
    | .star => some (10, .arith .mul)
    | .slash => some (10, .arith .div)
    | .percent => some (10, .arith .rem)
    | _ => none
  | .keyword .instanceofKw => some (7, .instanceOf)
  | _ => none

/-- Assignment operators, with the operation they apply first. -/
def assignment? : Token → Option (Option BinaryOp)
  | .symbol s => match s with
    | .assign => some none
    | .plusAssign => some (some .add)
    | .minusAssign => some (some .sub)
    | .starAssign => some (some .mul)
    | .slashAssign => some (some .div)
    | .percentAssign => some (some .rem)
    | .ampAssign => some (some .bitAnd)
    | .pipeAssign => some (some .bitOr)
    | .caretAssign => some (some .bitXor)
    | .leftAssign => some (some .shl)
    | .rightAssign => some (some .shr)
    | .unsignedRightAssign => some (some .ushr)
    | _ => none
  | _ => none

def expression (read : PhraseReader) : Reader Expr := do
  let target ← read .ternary
  match assignment? (← peek) with
  | none => return target
  | some op =>
    unless target.isAssignable do fail (.assignmentTarget target)
    advance
    return .assign op target (← read .expression)

def parenthesized (read : PhraseReader) : Reader Expr := do
  expectSymbol .leftParen
  let e ← read .expression
  expectSymbol .rightParen
  return e

def ternary (read : PhraseReader) : Reader Expr := do
  let test ← read (.binary 1)
  if ← eatSymbol .question then
    let whenTrue ← read .expression
    expectSymbol .colon
    return .conditional test whenTrue (← read .ternary)
  else return test

/-- The rest of a chain of operators of at least a level, all of which group to the left. -/
def binaryTail (read : PhraseReader) (level : Nat) (left : Expr) : Reader Expr := do
  match operator? (← peek) with
  | none => return left
  | some (own, op) =>
    if own < level then return left
    advance
    let joined ← match op with
      | .instanceOf => return ← read (.binaryTail level (.instanceOf left (← writtenType)))
      | .or => pure (.or left (← read (.binary (own + 1))))
      | .and => pure (.and left (← read (.binary (own + 1))))
      | .arith op => pure (.binary op left (← read (.binary (own + 1))))
      | .compare op => pure (.compare op left (← read (.binary (own + 1))))
    read (.binaryTail level joined)

/-- An operand after a minus sign, which belongs to a literal that follows it. -/
def negated (read : PhraseReader) : Reader Expr := do
  match ← peek with
  | .int value =>
    advance
    return .int (-value) .int
  | .long value =>
    advance
    return .long (-value)
  | .float value =>
    advance
    return .float value.neg
  | .double value =>
    advance
    return .double value.neg
  | _ => return .unary .neg (← read .unary)

def unary (read : PhraseReader) : Reader Expr := do
  match ← peek with
  | .symbol .minus =>
    advance
    negated read
  | .symbol .plus =>
    advance
    return .unary .plus (← read .unary)
  | .symbol .tilde =>
    advance
    return .unary .bitNot (← read .unary)
  | .symbol .bang =>
    advance
    return .not (← read .unary)
  | .symbol .increment => step true
  | .symbol .decrement => step false
  | .symbol .leftParen =>
    if startsCast ((← get).ahead.drop 1) then
      advance
      let type ← writtenType
      expectSymbol .rightParen
      return .cast type (← read .unary)
    else read (.postfixTail (← read .primary))
  | _ => read (.postfixTail (← read .primary))
where
  step (increment : Bool) : Reader Expr := do
    advance
    let target ← read .unary
    unless target.isAssignable do fail (.incrementTarget target)
    return .incDec increment true target

/-- The name that an expression spells, as a class type. -/
def namedType (e : Expr) : Reader WrittenType := do
  match e.dottedName? with
  | some name => return .named name
  | none => fail (.notAType e)

/-- Selections, indices and increments after an operand. -/
def postfixTail (read : PhraseReader) (operand : Expr) : Reader Expr := do
  match ← peek with
  | .symbol .dot =>
    advance
    if ← eatKeyword .classKw then
      read (.postfixTail (.classLit (← namedType operand)))
    else
      let name ← expectIdent
      if ← isAt (.symbol .leftParen) then
        read (.postfixTail (.callOn operand name (← read .arguments)))
      else read (.postfixTail (.field operand name))
  | .symbol .leftBracket =>
    if (← peekAt 1) = .symbol .rightBracket then
      let type ← bracketsAfter (← namedType operand)
      expectSymbol .dot
      expectKeyword .classKw
      read (.postfixTail (.classLit type))
    else
      advance
      let position ← read .expression
      expectSymbol .rightBracket
      read (.postfixTail (.index operand position))
  | .symbol .increment => step true
  | .symbol .decrement => step false
  | _ => return operand
where
  step (increment : Bool) : Reader Expr := do
    unless operand.isAssignable do fail (.incrementTarget operand)
    advance
    read (.postfixTail (.incDec increment false operand))

/-- What follows `new`. -/
def creation (read : PhraseReader) : Reader Expr := do
  let type ← writtenType
  match type.split with
  | (element, dims + 1) =>
    expectSymbol .leftBrace
    return .arrayOf element (dims + 1) (← read (.arrayItems []))
  | (element, 0) =>
    if ← isAt (.symbol .leftParen) then
      match type with
      | .named _ => return .new type (← read .arguments)
      | _ => fail (.notInstantiable type)
    else
      unless ← isAt (.symbol .leftBracket) do fail .expectedNewTail
      let lengths ← read (.lengths [])
      return .newArray element lengths (← brackets)

/-- A reference to the class itself or its superclass, or a call of one of its constructors. -/
def selfReference (read : PhraseReader) (reference : Expr) : Reader Expr := do
  advance
  if ← isAt (.symbol .leftParen) then
    return .callOn reference constructorName (← read .arguments)
  else return reference

/-- A literal, which is used up. -/
def literal (e : Expr) : Reader Expr := do
  advance
  return e

def primary (read : PhraseReader) : Reader Expr := do
  match ← peek with
  | .int value =>
    if value > 2147483647 then fail (.integerTooLarge value)
    literal (.int value .int)
  | .long value => literal (.long value)
  | .char unit => literal (.int (Int64.ofNat unit.toNat) .char)
  | .float value => literal (.float value)
  | .double value => literal (.double value)
  | .string text => literal (.string text)
  | .keyword .trueKw => literal (.bool true)
  | .keyword .falseKw => literal (.bool false)
  | .keyword .nullKw => literal .nullRef
  | .keyword .thisKw => selfReference read .thisRef
  | .keyword .superKw => selfReference read .superRef
  | .keyword .newKw =>
    advance
    creation read
  | .symbol .leftParen => parenthesized read
  | .ident name =>
    advance
    if ← isAt (.symbol .leftParen) then return .call name (← read .arguments)
    match ← lookup name with
    | some v => return .var v
    | none => return .name name
  | .primitive _ =>
    let type ← writtenType
    expectSymbol .dot
    expectKeyword .classKw
    return .classLit type
  | found => fail (.unexpected found)

/-- Expressions divided by commas, at least one. -/
def expressions (read : PhraseReader) (found : List Expr) : Reader (List Expr) := do
  let found := (← read .expression) :: found
  if ← eatSymbol .comma then read (.expressions found) else return found.reverse

def arguments (read : PhraseReader) : Reader (List Expr) := do
  expectSymbol .leftParen
  let args ← if ← isAt (.symbol .rightParen) then pure [] else read (.expressions [])
  expectSymbol .rightParen
  return args

/-- Lengths of the dimensions of a new array. -/
def lengths (read : PhraseReader) (found : List Expr) : Reader (List Expr) := do
  if (← isAt (.symbol .leftBracket)) && (← peekAt 1) != .symbol .rightBracket then
    advance
    let length ← read .expression
    expectSymbol .rightBracket
    read (.lengths (length :: found))
  else return found.reverse

def initializer (read : PhraseReader) : Reader Expr := do
  if ← eatSymbol .leftBrace then return .arrayInit (← read (.arrayItems []))
  else read .expression

/-- Items of an array up to the closing brace. A comma may follow the last one. -/
def arrayItems (read : PhraseReader) (found : List Expr) : Reader (List Expr) := do
  if ← eatSymbol .rightBrace then return found.reverse
  let found := (← read .initializer) :: found
  if ← eatSymbol .comma then read (.arrayItems found)
  else
    expectSymbol .rightBrace
    return found.reverse

/-- Statements up to a token that ends them. -/
def statements (read : PhraseReader) (stop : StatementsEnd) (found : List Stmt) :
    Reader (List Stmt) := do
  if stop.includes (← peek) then return found.reverse
  let s ← read .statement
  read (.statements stop (s :: found))

/-- Statements in braces, in a scope of their own. -/
def block (read : PhraseReader) : Reader (List Stmt) := do
  expectSymbol .leftBrace
  inScope do
    let body ← read (.statements .block [])
    expectSymbol .rightBrace
    return body

def declarators (read : PhraseReader) (type : WrittenType) (found : List VariableDecl) :
    Reader (List VariableDecl) := do
  let name ← expectIdent
  let declared ← declare (← bracketsAfter type) name
  let init ← if ← eatSymbol .assign then some <$> read .initializer else pure none
  let found := ⟨declared, init⟩ :: found
  if ← eatSymbol .comma then read (.declarators type found) else return found.reverse

/-- A declaration without the semicolon. -/
def declaration (read : PhraseReader) : Reader Stmt := do
  let type ← writtenType
  return .decl (← read (.declarators type []))

def declarationStatement (read : PhraseReader) : Reader Stmt := do
  let s ← declaration read
  expectSymbol .semicolon
  return s

def ifStatement (read : PhraseReader) : Reader Stmt := do
  let test ← parenthesized read
  let body ← read .branch
  if ← eatKeyword .elseKw then return .ifElse test body (← read .branch)
  else return .ifThen test body

def whileStatement (read : PhraseReader) : Reader Stmt := do
  let test ← parenthesized read
  return .whileLoop test (← read .branch)

def doStatement (read : PhraseReader) : Reader Stmt := do
  let body ← read .branch
  expectKeyword .whileKw
  let test ← parenthesized read
  expectSymbol .semicolon
  return .doLoop body test

/-- Whether the head of a `for` loop begins with a declaration. -/
def forDeclares : Reader Bool := do
  match ← peek with
  | .primitive _ | .modifier _ => return true
  | _ => return startsDeclaration (← get).ahead

def forInit (read : PhraseReader) : Reader (List Stmt) := do
  if ← isAt (.symbol .semicolon) then return []
  if ← forDeclares then
    let _ ← modifiers
    return [← declaration read]
  else return (← read (.expressions [])).map .expr

def forStatement (read : PhraseReader) : Reader Stmt := do
  expectSymbol .leftParen
  inScope do
    let init ← forInit read
    expectSymbol .semicolon
    let test ← if ← isAt (.symbol .semicolon) then pure none else some <$> read .expression
    expectSymbol .semicolon
    let update ← if ← isAt (.symbol .rightParen) then pure [] else read (.expressions [])
    expectSymbol .rightParen
    return .forLoop init test update (← read .branch)

/-- Labels that stand together before statements. -/
def caseLabels (read : PhraseReader) (defaultSeen : Bool) (labels : List Expr)
    (isDefault : Bool) : Reader (List Expr × Bool) := do
  if ← eatKeyword .caseKw then
    let label ← read .ternary
    expectSymbol .colon
    read (.caseLabels defaultSeen (label :: labels) isDefault)
  else if ← eatKeyword .defaultKw then
    if defaultSeen || isDefault then fail .duplicateDefault
    expectSymbol .colon
    read (.caseLabels defaultSeen labels true)
  else return (labels.reverse, isDefault)

def switchCases (read : PhraseReader) (found : List SwitchCase) : Reader (List SwitchCase) := do
  if StatementsEnd.block.includes (← peek) then return found.reverse
  let (labels, isDefault) ← read (.caseLabels (found.any SwitchCase.isDefault) [] false)
  if labels.isEmpty && !isDefault then fail .outsideCase
  let body ← read (.statements .case [])
  read (.switchCases (.mk labels isDefault body :: found))

def switchStatement (read : PhraseReader) : Reader Stmt := do
  let selector ← parenthesized read
  expectSymbol .leftBrace
  inScope do
    let cases ← read (.switchCases [])
    expectSymbol .rightBrace
    return .switch selector cases

def catches (read : PhraseReader) (found : List CatchClause) : Reader (List CatchClause) := do
  if ← eatKeyword .catchKw then
    expectSymbol .leftParen
    let clause ← inScope do
      let _ ← modifiers
      let type ← writtenType
      if ← isAt (.symbol .pipe) then throw .multiCatch
      let param ← declare type (← expectIdent)
      expectSymbol .rightParen
      return CatchClause.mk param (← read .block)
    read (.catches (clause :: found))
  else return found.reverse

def tryStatement (read : PhraseReader) : Reader Stmt := do
  let body ← read .block
  let clauses ← read (.catches [])
  if ← eatKeyword .finallyKw then return .tryFinally body clauses (← read .block)
  if clauses.isEmpty then fail .bareTry
  return .tryCatch body clauses

def synchronizedStatement (read : PhraseReader) : Reader Stmt := do
  let lock ← parenthesized read
  return .synchronized lock (← read .block)

def returnStatement (read : PhraseReader) : Reader Stmt := do
  let value ← if ← isAt (.symbol .semicolon) then pure none else some <$> read .expression
  expectSymbol .semicolon
  return .ret value

def throwStatement (read : PhraseReader) : Reader Stmt := do
  let value ← read .expression
  expectSymbol .semicolon
  return .raise value

/-- The label after `break` or `continue`, with the semicolon. -/
def jumpLabel : Reader (Option String) := do
  let label ← match ← peek with
    | .ident _ => some <$> expectIdent
    | _ => pure none
  expectSymbol .semicolon
  return label

def expressionStatement (read : PhraseReader) : Reader Stmt := do
  let e ← read .expression
  expectSymbol .semicolon
  return .expr e

/-- A statement that begins with a name: a label, a declaration or an expression. -/
def nameStatement (read : PhraseReader) : Reader Stmt := do
  if (← peekAt 1) = .symbol .colon then
    let label ← expectIdent
    advance
    return .labeled label (← read .branch)
  else if startsDeclaration (← get).ahead then declarationStatement read
  else expressionStatement read

def statement (read : PhraseReader) : Reader Stmt := do
  match ← peek with
  | .symbol .leftBrace => return .block (← read .block)
  | .symbol .semicolon =>
    advance
    return .empty
  | .keyword .ifKw =>
    advance
    ifStatement read
  | .keyword .whileKw =>
    advance
    whileStatement read
  | .keyword .doKw =>
    advance
    doStatement read
  | .keyword .forKw =>
    advance
    forStatement read
  | .keyword .switchKw =>
    advance
    switchStatement read
  | .keyword .synchronizedKw =>
    advance
    synchronizedStatement read
  | .keyword .tryKw =>
    advance
    tryStatement read
  | .keyword .returnKw =>
    advance
    returnStatement read
  | .keyword .throwKw =>
    advance
    throwStatement read
  | .keyword .breakKw =>
    advance
    return .breakTo (← jumpLabel)
  | .keyword .continueKw =>
    advance
    return .continueTo (← jumpLabel)
  | .modifier _ =>
    let _ ← modifiers
    declarationStatement read
  | .ident _ => nameStatement read
  | .primitive _ =>
    if (← peekAt 1) = .symbol .dot then expressionStatement read else declarationStatement read
  | _ => expressionStatement read

/-- Parameters of a method up to the closing parenthesis, at least one. -/
def parameters (read : PhraseReader) (found : List Variable) : Reader (List Variable) := do
  let _ ← modifiers
  let type ← writtenType
  let name ← expectIdent
  let found := (← declare (← bracketsAfter type) name) :: found
  if ← eatSymbol .comma then read (.parameters found) else return found.reverse

/-- The production of each sort of phrase. -/
def production (read : PhraseReader) : PhraseReader
  | .expression => expression read
  | .ternary => ternary read
  | .binary level => do read (.binaryTail level (← read .unary))
  | .binaryTail level left => binaryTail read level left
  | .unary => unary read
  | .postfixTail operand => postfixTail read operand
  | .primary => primary read
  | .arguments => arguments read
  | .expressions found => expressions read found
  | .lengths found => lengths read found
  | .initializer => initializer read
  | .arrayItems found => arrayItems read found
  | .statement => statement read
  | .branch => inScope (read .statement)
  | .block => block read
  | .statements stop found => statements read stop found
  | .declarators type found => declarators read type found
  | .switchCases found => switchCases read found
  | .caseLabels defaultSeen labels isDefault => caseLabels read defaultSeen labels isDefault
  | .catches found => catches read found
  | .parameters found => parameters read found

/-- Reads a phrase with parts nested at most as deep as the fuel. -/
def phrase : Nat → PhraseReader
  | 0, _ => fail .tooDeep
  | fuel + 1, p => production (phrase fuel) p

/-- Enough fuel for any phrase: between two tokens fewer than sixteen productions are entered. -/
def enough (ahead : List PlacedToken) : Nat := 16 * ahead.length + 16

/-- Reads a phrase, however deep. -/
def read : PhraseReader := fun p s => phrase (enough s.ahead) p s

end Grammar

open Reader

/-- An expression that is the whole input. -/
def readExpression : Reader Expr := do
  let e ← Grammar.read .expression
  expectEnd
  return e

/-- Statements up to the end of input. -/
def readStatements : Reader (List Stmt) := Grammar.read (.statements .input [])

/-- Exceptions that a method declares. The fuel bounds their number. -/
def readThrows : Nat → Reader (List WrittenType)
  | 0 => return []
  | fuel + 1 => do
    let type ← writtenType
    if ← eatSymbol .comma then return type :: (← readThrows fuel) else return [type]

/-- A method from its parameters on. -/
def readMethod (modifiers : AccessFlags) (result : WrittenType) (name : String) :
    Reader MethodDecl := inScope do
  expectSymbol .leftParen
  let params ← if ← isAt (.symbol .rightParen) then pure [] else Grammar.read (.parameters [])
  expectSymbol .rightParen
  let throws ← if ← eatKeyword .throwsKw then readThrows (← get).ahead.length else pure []
  let body ← if ← eatSymbol .semicolon then pure none else some <$> Grammar.read .block
  return ⟨modifiers, result, name, params, throws, body⟩

/-- A field from after its name on. -/
def readField (modifiers : AccessFlags) (type : WrittenType) (name : String) :
    Reader FieldDecl := do
  let type ← bracketsAfter type
  let init ← if ← eatSymbol .assign then some <$> Grammar.read .initializer else pure none
  expectSymbol .semicolon
  return ⟨modifiers, type, name, init⟩

/-- A field or method declaration that is the whole input. A type directly before the parameters is
the name of a class and declares a constructor. -/
def readMember : Reader Member := do
  let flags ← modifiers
  let type ← writtenType
  let member ← if ← isAt (.symbol .leftParen) then
      match type with
      | .named _ => Member.method <$> readMethod flags (.primitive .void) constructorName
      | _ => fail .expectedMember
    else do
      let name ← expectIdent
      if ← isAt (.symbol .leftParen) then Member.method <$> readMethod flags type name
      else Member.field <$> readField flags type name
  expectEnd
  return member

/-- The outcome of reading a text: the tree or a fault, and either way the scope that was open at the
start, with what was declared in it, and the number of the next variable. -/
structure Reading (α : Type) where
  result : Except SyntaxError α
  scope : Scope
  next : Nat

/-- Reads tokens in a scope, numbering new variables from `next`. Scopes that a fault left open are
closed. -/
def readTokens {α : Type} (reader : Reader α) (tokens : List PlacedToken) (scope : Scope)
    (next : Nat) : Reading α :=
  match reader.run ⟨tokens, scope, 0, next⟩ with
  | .ok tree s => ⟨.ok tree, s.scope.exits s.depth, s.next⟩
  | .error e s => ⟨.error e, s.scope.exits s.depth, s.next⟩

/-- Reads a source text in a scope. -/
def readSource {α : Type} (reader : Reader α) (source : String) (scope : Scope) (next : Nat) :
    Reading α :=
  readTokens reader (tokenize source) scope next

end JavaFragment
