import JavaFragment.Number.Binary
import JavaFragment.Type.Basic
import JavaFragment.Type.Access
/-!
Syntax trees. Names that stand for local variables are told apart from other names while reading;
the types in a tree are as written and are looked up later.
-/
namespace JavaFragment

/-- A type as written. Class names may be simple or dotted. -/
inductive WrittenType where
  | null
  | primitive (p : Primitive)
  | named (name : String)
  | array (element : WrittenType)
deriving DecidableEq, Repr, Inhabited

namespace WrittenType

/-- Adds array dimensions. -/
def arrayOf (t : WrittenType) : Nat → WrittenType
  | 0 => t
  | dims + 1 => .array (t.arrayOf dims)

/-- The innermost element type and the number of dimensions. -/
def split : WrittenType → WrittenType × Nat
  | .array element => let (base, dims) := element.split; (base, dims + 1)
  | t => (t, 0)

def text : WrittenType → String
  | .null => "null"
  | .primitive p => p.keyword
  | .named name => name
  | .array element => element.text ++ "[]"

/-- How a type is written whose value is known. -/
def ofType (t : JavaType) : WrittenType :=
  let base : WrittenType := match t.base with
    | .null => .null
    | .primitive p => .primitive p
    | .class name => .named (sourceName name)
  base.arrayOf t.dims

end WrittenType

/-- A declared local variable or parameter. The number tells variables of one name apart. -/
structure Variable where
  number : Nat
  name : String
  written : WrittenType
deriving DecidableEq, Repr, Inhabited

inductive UnaryOp where
  | neg
  | plus
  | bitNot
deriving DecidableEq, Repr, Inhabited

inductive BinaryOp where
  | add
  | sub
  | mul
  | div
  | rem
  | shl
  | shr
  | ushr
  | bitAnd
  | bitOr
  | bitXor
deriving DecidableEq, Repr, Inhabited

namespace BinaryOp

def isShift : BinaryOp → Bool
  | .shl | .shr | .ushr => true
  | _ => false

def isBitwise : BinaryOp → Bool
  | .bitAnd | .bitOr | .bitXor => true
  | _ => false

end BinaryOp

inductive CompareOp where
  | eq
  | ne
  | lt
  | le
  | gt
  | ge
deriving DecidableEq, Repr, Inhabited

/-- The comparison that holds exactly when the given one does not. -/
def CompareOp.negate : CompareOp → CompareOp
  | .eq => .ne
  | .ne => .eq
  | .lt => .ge
  | .le => .gt
  | .gt => .le
  | .ge => .lt

@[simp]
theorem CompareOp.negate_negate (op : CompareOp) : op.negate.negate = op := by
  cases op <;> rfl

/-- The types of integer constants other than `long`. -/
inductive IntKind where
  | byte
  | char
  | short
  | int
deriving DecidableEq, Repr, Inhabited

def IntKind.primitive : IntKind → Primitive
  | .byte => .byte
  | .char => .char
  | .short => .short
  | .int => .int

def Primitive.intKind? : Primitive → Option IntKind
  | .byte => some .byte
  | .char => some .char
  | .short => some .short
  | .int => some .int
  | _ => none

/-- Expressions. A literal `-0x80000000` is an `int` outside its range, so that integer constants
hold 64 bits. -/
inductive Expr where
  | int (value : Int64) (kind : IntKind)
  | long (value : Int64)
  | float (value : Binary32)
  | double (value : Binary64)
  | string (text : String)
  | thisRef
  | superRef
  | nullRef
  | bool (value : Bool)
  /-- A name that is no local variable: of a field, a class or a package. -/
  | name (n : String)
  | var (v : Variable)
  | unary (op : UnaryOp) (operand : Expr)
  | binary (op : BinaryOp) (left right : Expr)
  | compare (op : CompareOp) (left right : Expr)
  | and (left right : Expr)
  | or (left right : Expr)
  | not (operand : Expr)
  | instanceOf (operand : Expr) (type : WrittenType)
  | cast (type : WrittenType) (operand : Expr)
  | conditional (test whenTrue whenFalse : Expr)
  | assign (op : Option BinaryOp) (target value : Expr)
  | incDec (increment before : Bool) (target : Expr)
  | field (target : Expr) (name : String)
  | classLit (type : WrittenType)
  | index (array position : Expr)
  | call (name : String) (args : List Expr)
  /-- A call on a target. Calls of another constructor have the name `<init>`. -/
  | callOn (target : Expr) (name : String) (args : List Expr)
  | new (type : WrittenType) (args : List Expr)
  /-- An array of given lengths with further dimensions left open. -/
  | newArray (element : WrittenType) (lengths : List Expr) (extra : Nat)
  /-- An array given by its items. -/
  | arrayOf (element : WrittenType) (dims : Nat) (items : List Expr)
  /-- Items in braces, which initialize a variable. -/
  | arrayInit (items : List Expr)
  /-- A string made of the texts of its parts. -/
  | concat (parts : List Expr)
deriving Inhabited

namespace Expr

/-- The dotted form of a chain of names, such as `java.lang.System`. -/
def dottedName? : Expr → Option String
  | .name n => some n
  | .field target n => target.dottedName?.map fun text => text ++ "." ++ n
  | _ => none

/-- Whether an expression can stand before an assignment operator. -/
def isAssignable : Expr → Bool
  | .var _ | .name _ | .field _ _ | .index _ _ => true
  | _ => false

end Expr

/-- A variable with its initial value. -/
structure VariableDecl where
  declared : Variable
  init : Option Expr
deriving Inhabited

mutual

/-- Statements. -/
inductive Stmt where
  | block (body : List Stmt)
  | decl (decls : List VariableDecl)
  | expr (e : Expr)
  | ifThen (test : Expr) (body : Stmt)
  | ifElse (test : Expr) (body otherwise : Stmt)
  | whileLoop (test : Expr) (body : Stmt)
  | doLoop (body : Stmt) (test : Expr)
  | forLoop (init : List Stmt) (test : Option Expr) (update : List Expr) (body : Stmt)
  | switch (selector : Expr) (cases : List SwitchCase)
  | tryCatch (body : List Stmt) (catches : List CatchClause)
  | tryFinally (body : List Stmt) (catches : List CatchClause) (last : List Stmt)
  | synchronized (lock : Expr) (body : List Stmt)
  | ret (value : Option Expr)
  | raise (value : Expr)
  | breakTo (label : Option String)
  | continueTo (label : Option String)
  | labeled (label : String) (body : Stmt)
  | empty

/-- The labels that lead to one group of statements of a switch. -/
inductive SwitchCase where
  | mk (labels : List Expr) (isDefault : Bool) (body : List Stmt)

/-- A handler with its parameter, whose written type is what it catches. -/
inductive CatchClause where
  | mk (param : Variable) (body : List Stmt)

end

instance : Inhabited Stmt := ⟨.empty⟩

namespace SwitchCase

def labels : SwitchCase → List Expr
  | .mk labels _ _ => labels

def isDefault : SwitchCase → Bool
  | .mk _ isDefault _ => isDefault

def body : SwitchCase → List Stmt
  | .mk _ _ body => body

end SwitchCase

namespace CatchClause

def param : CatchClause → Variable
  | .mk param _ => param

def body : CatchClause → List Stmt
  | .mk _ body => body

end CatchClause

/-- Name of constructors in calls and declarations. -/
def constructorName : String := "<init>"

structure FieldDecl where
  modifiers : AccessFlags
  type : WrittenType
  name : String
  init : Option Expr
deriving Inhabited

/-- A method declaration. Constructors have the result `void`; abstract and native methods have no
body. -/
structure MethodDecl where
  modifiers : AccessFlags
  result : WrittenType
  name : String
  params : List Variable
  throws : List WrittenType
  body : Option (List Stmt)
deriving Inhabited

inductive Member where
  | field (decl : FieldDecl)
  | method (decl : MethodDecl)
deriving Inhabited

end JavaFragment
