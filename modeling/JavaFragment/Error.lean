import JavaFragment.Bytecode.Buffer
import JavaFragment.Syntax.Display
import JavaFragment.Syntax.Reader
/-!
Why a fragment is refused. Causes are values; the wording of each is in one place, the `message` of
its type. Every error belongs to one of eight kinds, which opens its text.
-/
namespace JavaFragment

/-- The kinds of errors. -/
inductive ErrorKind where
  | parse
  | type
  | codegen
  | methodNotFound
  | noSuchClass
  | noSuchField
  | unsupported
  | fatal
deriving DecidableEq, Repr

def ParseFault.message : ParseFault → String
  | .lexical fault => fault.message
  | .expected wanted found => "expected " ++ wanted.quoted ++ ", got " ++ found.quoted
  | .expectedIdent found => "expected identifier, got " ++ found.quoted
  | .expectedType found => "expected type name, got " ++ found.quoted
  | .expectedMember => "expected member name"
  | .expectedNewTail => "expected '(' or '[' after 'new Type'"
  | .unexpected found => "unexpected token: " ++ found.quoted
  | .trailing found => "unexpected " ++ found.quoted ++ " after end of input"
  | .alreadyDefined name => "variable " ++ name ++ " is already defined"
  | .duplicateDefault => "duplicate default label"
  | .outsideCase => "statement outside case/default in switch"
  | .bareTry => "try requires at least one catch or finally block"
  | .integerTooLarge value => "integer number too large: " ++ toString value
  | .assignmentTarget found => "invalid assignment target: " ++ found.text
  | .incrementTarget found => "invalid increment target: " ++ found.text
  | .notAType found => found.text ++ " is not a type"
  | .notInstantiable type => "cannot instantiate " ++ type.text
  | .tooDeep => "nesting too deep"

/-- Violations of the typing rules. -/
inductive TypeFault where
  | voidVariable (name : String)
  | voidArray
  | thisInStatic
  | noSuperclass (owner : String)
  | notAValue (e : Expr)
  | notAStatement (e : Expr)
  | notAssignable (e : Expr)
  | cannotAssign (e : Expr)
  | unknownSymbol (e : Expr)
  | operand (type : JavaType) (e : Expr)
  | operands (left right : JavaType) (e : Expr)
  | compoundOperands (left right : JavaType) (op : BinaryOp)
  | comparison (left right : JavaType) (e : Expr)
  | comparisonOperator (op : CompareOp) (left right : JavaType)
  | badInstanceOf (e : Expr)
  | badCast (source target : JavaType) (e : Expr)
  | branches (whenTrue whenFalse : JavaType) (e : Expr)
  | incompatible (source target : JavaType) (value : Expr)
  | notBoolean (e : Expr) (type : JavaType)
  | condition (e : Expr) (type : JavaType)
  | indexType (type : JavaType) (e : Expr)
  | lengthType (type : JavaType) (e : Expr)
  | indexedType (type : JavaType) (e : Expr)
  | notAnArray (e : Expr)
  | looseInitializer
  | initializerFor (type : JavaType)
  | abstractClass (type : JavaType)
  | fieldInStatic (field : String)
  | methodInStatic (name : String)
  | noFields (e : Expr) (type : JavaType)
  | noMethods (name : String) (e : Expr) (type : JavaType)
  | thrownValue (type : JavaType)
  | caughtType (type : JavaType)
  | switchType (e : Expr) (type : JavaType)
  | caseLabel (e : Expr)
  | lockType (e : Expr) (type : JavaType)
  | missingValue (type : JavaType)
  | valueFromVoid (e : Expr)
  | voidInConcat
  | argumentsOnly (name : String)
  | noProceed
  | counterName
  | noCounter (name : String)
  | missingBody (name : String)
  | unexpectedBody (name : String)
  | missingReturn (name : String)

def TypeFault.message : TypeFault → String
  | .voidVariable name => "variable " ++ name ++ " declared void"
  | .voidArray => "array of void"
  | .thisInStatic => "this is not available in a static context"
  | .noSuperclass owner => owner ++ " has no superclass"
  | .notAValue e => e.text ++ " is not a value"
  | .notAStatement e => e.text ++ " is not a statement"
  | .notAssignable e => e.text ++ " is not assignable"
  | .cannotAssign e => "cannot assign to " ++ e.text
  | .unknownSymbol e => "cannot find symbol " ++ e.text
  | .operand type e => "bad operand type " ++ type.text ++ " in " ++ e.text
  | .operands left right e =>
    "bad operand types " ++ left.text ++ " and " ++ right.text ++ " in " ++ e.text
  | .compoundOperands left right op =>
    "bad operand types " ++ left.text ++ " and " ++ right.text ++ " for " ++ op.symbol ++ "="
  | .comparison left right e =>
    "incomparable types " ++ left.text ++ " and " ++ right.text ++ " in " ++ e.text
  | .comparisonOperator op left right =>
    "operator " ++ op.symbol ++ " on " ++ left.text ++ " and " ++ right.text
  | .badInstanceOf e => "bad instanceof in " ++ e.text
  | .badCast source target e =>
    "cannot cast " ++ source.text ++ " to " ++ target.text ++ " in " ++ e.text
  | .branches whenTrue whenFalse e =>
    "incompatible branches " ++ whenTrue.text ++ " and " ++ whenFalse.text ++ " in " ++ e.text
  | .incompatible source target value =>
    "incompatible types: " ++ source.text ++ " cannot be converted to " ++ target.text ++ " in " ++
      value.text
  | .notBoolean e type => e.text ++ " is " ++ type.text ++ ", not boolean"
  | .condition e type => "condition " ++ e.text ++ " is " ++ type.text ++ ", not boolean"
  | .indexType type e => "array index of type " ++ type.text ++ " in " ++ e.text
  | .lengthType type e => "array dimension of type " ++ type.text ++ " in " ++ e.text
  | .indexedType type e => type.text ++ " is not an array in " ++ e.text
  | .notAnArray e => e.text ++ " is not an array"
  | .looseInitializer => "array initializer is only allowed with a declared array type"
  | .initializerFor type => "array initializer for non-array type " ++ type.text
  | .abstractClass type => type.text ++ " is abstract; cannot be instantiated"
  | .fieldInStatic field => "non-static field " ++ field ++ " referenced from a static context"
  | .methodInStatic name =>
    "non-static method " ++ name ++ " cannot be referenced from a static context"
  | .noFields e type => e.text ++ " of type " ++ type.text ++ " has no fields"
  | .noMethods name e type => "cannot call " ++ name ++ " on " ++ e.text ++ " of type " ++ type.text
  | .thrownValue type => "thrown value " ++ type.text ++ " is not a Throwable"
  | .caughtType type => "catch type " ++ type.text ++ " is not a Throwable"
  | .switchType e type => "cannot switch on " ++ e.text ++ " of type " ++ type.text
  | .caseLabel e => "case label " ++ e.text ++ " is not an int constant"
  | .lockType e type => "cannot synchronize on " ++ e.text ++ " of type " ++ type.text
  | .missingValue type => "missing return value of type " ++ type.text
  | .valueFromVoid e => "cannot return " ++ e.text ++ " from a void method"
  | .voidInConcat => "void value in string concatenation"
  | .argumentsOnly name => name ++ " may only appear in an argument list"
  | .noProceed => "$proceed is not available here"
  | .counterName => "$cflow takes a single name"
  | .noCounter name => "no cflow counter named " ++ name
  | .missingBody name => "missing method body in " ++ name
  | .unexpectedBody name => "abstract or native method " ++ name ++ " cannot have a body"
  | .missingReturn name => "missing return statement in " ++ name

/-- Faults found while emitting code. -/
inductive CodeFault where
  | noParams
  | creationWithoutSize (e : Expr)
  | caseLabel (e : Expr)
  | duplicateCase (key : Int32)
  | breakOutside
  | continueOutside
  | missingValue (type : JavaType)
  | emptyTry

def CodeFault.message : CodeFault → String
  | .noParams => "no parameters are bound in this context"
  | .creationWithoutSize e => "array creation " ++ e.text ++ " without a size"
  | .caseLabel e => "case label " ++ e.text ++ " is not an int constant"
  | .duplicateCase key => "duplicate case label " ++ toString key
  | .breakOutside => "break outside switch or loop"
  | .continueOutside => "continue outside of loop"
  | .missingValue type => "missing return value of type " ++ type.text
  | .emptyTry => "empty try block"

/-- Phrases that are understood but not supported. -/
inductive UnsupportedPhrase where
  | multiCatch
  | labeledBreak (label : String)
  | labeledContinue (label : String)
  | leavesSynchronized

def UnsupportedPhrase.message : UnsupportedPhrase → String
  | .multiCatch => "multi-catch"
  | .labeledBreak label => "labeled break " ++ label
  | .labeledContinue label => "labeled continue " ++ label
  | .leavesSynchronized => "break or continue out of a synchronized block"

/-- Broken promises of the surroundings, such as malformed descriptors of known classes. -/
inductive FatalFault where
  | fieldDescriptor (field : String)
  | methodDescriptor (descriptor owner name : String)
  | signature (descriptor : String)
  | accessorField (descriptor : String)
  | accessorDescriptor (descriptor : String)
  | constructorDescriptor (descriptor : String)
  | floatingOperator (op : BinaryOp)
  | noWrapper (type : JavaType)
  | noClassLiteral (type : JavaType)
  | notAnArrayType (type : JavaType)
  | tooManyParams
  | endlessProceed
  | undecodable (address : Nat)

def FatalFault.message : FatalFault → String
  | .fieldDescriptor field => "bad descriptor for field " ++ field
  | .methodDescriptor descriptor owner name =>
    "bad descriptor " ++ descriptor ++ " for " ++ owner ++ "." ++ name
  | .signature descriptor => "bad method descriptor " ++ descriptor
  | .accessorField descriptor => "bad field descriptor " ++ descriptor
  | .accessorDescriptor descriptor => "bad accessor descriptor " ++ descriptor
  | .constructorDescriptor descriptor => "bad constructor descriptor " ++ descriptor
  | .floatingOperator op => op.symbol ++ " on a floating type"
  | .noWrapper type => "no wrapper for " ++ type.text
  | .noClassLiteral type => "no class literal for " ++ type.text
  | .notAnArrayType type => type.text ++ " is not an array type"
  | .tooManyParams => "too many parameter slots"
  | .endlessProceed => "$proceed forwards to itself"
  | .undecodable address => "decoding at " ++ toString address

def BufferFault.message : BufferFault → String
  | .noInstruction index => "no instruction at index " ++ toString index
  | .notABranch found => "cannot patch branch offset on " ++ found.text
  | .notASwitch found => "not a switch: " ++ found.text
  | .switchTargets => "switch target count mismatch"
  | .badDescriptor descriptor => "bad method descriptor " ++ descriptor
  | .offsetOutOfRange offset => "branch offset " ++ toString offset ++ " out of range"
  | .tooManyLocals => "too many local variables"
  | .rangeBeyondLimit address => "exception range pc " ++ toString address ++ " exceeds 65535"
  | .bodyTooLong size =>
    "method body of " ++ toString size ++ " bytes exceeds " ++ toString CodeBuffer.longestBody ++
      " bytes"

/-- Faults of a buffer that a source text can bring about are code generation errors; the others
mean that the buffer was misused. -/
def BufferFault.kind : BufferFault → ErrorKind
  | .offsetOutOfRange _ | .tooManyLocals | .rangeBeyondLimit _ | .bodyTooLong _ => .codegen
  | .noInstruction _ | .notABranch _ | .notASwitch _ | .switchTargets | .badDescriptor _ => .fatal

/-- Why a fragment is refused. -/
inductive CompileError where
  | parse (position : Position) (fault : ParseFault)
  | type (fault : TypeFault)
  | code (fault : CodeFault)
  | buffer (fault : BufferFault)
  | methodNotFound (owner name : String) (args : List JavaType)
  | noSuchClass (name : String)
  | noSuchField (name : String)
  | unsupported (phrase : UnsupportedPhrase)
  | fatal (fault : FatalFault)

namespace CompileError

def kind : CompileError → ErrorKind
  | .parse _ _ => .parse
  | .type _ => .type
  | .code _ => .codegen
  | .buffer fault => fault.kind
  | .methodNotFound _ _ _ => .methodNotFound
  | .noSuchClass _ => .noSuchClass
  | .noSuchField _ => .noSuchField
  | .unsupported _ => .unsupported
  | .fatal _ => .fatal

/-- The text of an error without its opening. -/
def detail : CompileError → String
  | .parse _ fault => fault.message
  | .type fault => fault.message
  | .code fault => fault.message
  | .buffer fault => fault.message
  | .methodNotFound owner name args =>
    sourceName owner ++ "." ++ name ++ "(" ++ ", ".intercalate (args.map JavaType.text) ++ ")"
  | .noSuchClass name => name
  | .noSuchField name => name
  | .unsupported phrase => phrase.message
  | .fatal fault => fault.message

/-- How the text of an error opens. -/
def opening : CompileError → String
  | .parse position _ =>
    "parse error at " ++ toString position.line ++ ":" ++ toString position.column ++ ": "
  | e => match e.kind with
    | .parse => "parse error: "
    | .type => "type error: "
    | .codegen => "codegen error: "
    | .methodNotFound => "method not found: "
    | .noSuchClass => "no such class: "
    | .noSuchField => "no such field: "
    | .unsupported => "unsupported: "
    | .fatal => "fatal compiler error: "

/-- The text of an error. -/
def message (e : CompileError) : String := e.opening ++ e.detail

/-- The error that a fault of syntax is. -/
def ofSyntax : SyntaxError → CompileError
  | .at position fault => .parse position fault
  | .multiCatch => .unsupported .multiCatch

end CompileError

end JavaFragment
