import JavaFragment.Typing.Denotation
/-!
The meaning of expressions over integers and truth values. Arithmetic is carried out on whole numbers
and cut down to the width of its type afterwards; the machine's own instructions play no part here.
-/
namespace JavaFragment

/-- A value of the `int` family, a `long` or a truth value. -/
inductive Value where
  | int (v : Int32)
  | long (v : Int64)
  | bool (v : Bool)
deriving DecidableEq, Repr, Inhabited

/-- Why an expression has no value. -/
inductive Fault where
  | divisionByZero
  /-- A variable is read before it is written. -/
  | unassigned
  /-- Operands of the wrong kind, which the typing rules refuse. -/
  | illTyped
deriving DecidableEq, Repr, Inhabited

/-- The types whose values are integers or truth values. -/
def Primitive.isDiscrete : Primitive → Bool
  | .boolean | .byte | .char | .short | .int | .long => true
  | .void | .float | .double => false

namespace Value

/-- Whether a value lies in the range of a type. -/
def fits : Value → Primitive → Bool
  | .int v, .byte => -128 ≤ v.toInt && v.toInt < 128
  | .int v, .short => -32768 ≤ v.toInt && v.toInt < 32768
  | .int v, .char => 0 ≤ v.toInt && v.toInt < 65536
  | .int _, .int => true
  | .long _, .long => true
  | .bool _, .boolean => true
  | _, _ => false

/-- The number that a value is. -/
def number? : Value → Option Int
  | .int v => some v.toInt
  | .long v => some v.toInt
  | .bool _ => none

/-- Conversion to a type, which keeps the low bits. -/
def convert (v : Value) : Primitive → Option Value
  | .boolean => match v with
    | .bool b => some (.bool b)
    | _ => none
  | .byte => v.number?.map fun n => .int (Int32.ofInt (n.bmod 256))
  | .short => v.number?.map fun n => .int (Int32.ofInt (n.bmod 65536))
  | .char => v.number?.map fun n => .int (Int32.ofInt (n % 65536))
  | .int => v.number?.map fun n => .int (Int32.ofInt n)
  | .long => v.number?.map fun n => .long (Int64.ofInt n)
  | .void | .float | .double => none

end Value

/-- The result of an operator on whole numbers of a width, before it is cut down to that width. Counts
of shifts are taken modulo the width. -/
def BinaryOp.exact (bits : Nat) : BinaryOp → Int → Int → Except Fault Int
  | .add, a, b => .ok (a + b)
  | .sub, a, b => .ok (a - b)
  | .mul, a, b => .ok (a * b)
  | .div, a, b => if b = 0 then .error .divisionByZero else .ok (a.tdiv b)
  | .rem, a, b => if b = 0 then .error .divisionByZero else .ok (a.tmod b)
  | .shl, a, b => .ok (a * Int.pow 2 (b % bits).toNat)
  | .shr, a, b => .ok (a / Int.pow 2 (b % bits).toNat)
  | .ushr, a, b => .ok (a % Int.pow 2 bits / Int.pow 2 (b % bits).toNat)
  | .bitAnd, a, b => .ok (BitVec.ofInt bits a &&& BitVec.ofInt bits b).toInt
  | .bitOr, a, b => .ok (BitVec.ofInt bits a ||| BitVec.ofInt bits b).toInt
  | .bitXor, a, b => .ok (BitVec.ofInt bits a ^^^ BitVec.ofInt bits b).toInt

namespace Value

/-- An operator on `int`. -/
def onInts (op : BinaryOp) (a b : Int) : Except Fault Value := (op.exact 32 a b).map fun n => .int (Int32.ofInt n)

/-- An operator on `long`. -/
def onLongs (op : BinaryOp) (a b : Int) : Except Fault Value := (op.exact 64 a b).map fun n => .long (Int64.ofInt n)

/-- A binary operator. The wider operand decides the width, but the left one alone that of a shift. -/
def binary (op : BinaryOp) : Value → Value → Except Fault Value
  | .int a, .int b => onInts op a.toInt b.toInt
  | .int a, .long b => if op.isShift then onInts op a.toInt b.toInt else onLongs op a.toInt b.toInt
  | .long a, .int b => onLongs op a.toInt b.toInt
  | .long a, .long b => onLongs op a.toInt b.toInt
  | .bool a, .bool b => match op with
    | .bitAnd => .ok (.bool (a && b))
    | .bitOr => .ok (.bool (a || b))
    | .bitXor => .ok (.bool (a != b))
    | _ => .error .illTyped
  | _, _ => .error .illTyped

/-- A unary operator. -/
def unary (op : UnaryOp) (v : Value) : Except Fault Value :=
  let exact (n : Int) : Int := match op with
    | .neg => -n
    | .plus => n
    | .bitNot => -n - 1
  match v with
  | .int a => .ok (.int (Int32.ofInt (exact a.toInt)))
  | .long a => .ok (.long (Int64.ofInt (exact a.toInt)))
  | .bool _ => .error .illTyped

/-- Whether two numbers satisfy a comparison. -/
def related (op : CompareOp) (a b : Int) : Bool :=
  match op with
  | .eq => a == b
  | .ne => a != b
  | .lt => a < b
  | .le => a ≤ b
  | .gt => b < a
  | .ge => b ≤ a

/-- A comparison. Truth values can only be the same or not. -/
def compare (op : CompareOp) (l r : Value) : Except Fault Bool :=
  match l, r, op with
  | .bool a, .bool b, .eq => .ok (a == b)
  | .bool a, .bool b, .ne => .ok (a != b)
  | _, _, _ => match l.number?, r.number? with
    | some a, some b => .ok (related op a b)
    | _, _ => .error .illTyped

end Value

/-- The values of variables, by number. -/
abbrev Store := Nat → Option Value

/-- A computation that reads and writes variables. What was written before a fault stays. -/
abbrev Evaluation := EStateM Fault Store

namespace Evaluation

variable {α : Type}

def answer : Except Fault α → Evaluation α
  | .ok a => pure a
  | .error fault => throw fault

def expect (fault : Fault) : Option α → Evaluation α
  | some a => pure a
  | none => throw fault

def read (n : Nat) : Evaluation Value := do expect .unassigned ((← get) n)

def write (n : Nat) (v : Value) : Evaluation Unit :=
  modify fun σ m => if m = n then some v else σ m

def truth (v : Value) : Evaluation Bool :=
  match v with
  | .bool b => pure b
  | _ => throw .illTyped

/-- Converts a value to the type of an expression or variable, if it has one. -/
def convertTo (type : Except CompileError JavaType) (v : Value) : Evaluation Value :=
  expect .illTyped (type.toOption.bind JavaType.primitive? |>.bind v.convert)

/-- Writes a value to a variable, converted to its type. -/
def assign (ctx : TypingContext) (v : Variable) (value : Value) : Evaluation Value := do
  let value ← convertTo (ctx.variableType v) value
  write v.number value
  return value

end Evaluation

/-- The value that a constant of a class stands for, by the type of the field that stores it. -/
def FieldTarget.value? : FieldTarget → Option Value
  | .ofClass field => do
    let stored ← if field.member.access.isFinal then field.member.constant else none
    match stored, (← field.member.type.toOption).primitive? with
    | .int v, some .boolean => some (.bool (v != 0))
    | .int v, some _ => some (.int v)
    | .long v, some .long => some (.long v)
    | _, _ => none
  | .arrayLength | .ofObject _ => none

/-- The value of an access to a constant of a class. -/
def TypingContext.fieldValue? (ctx : TypingContext) (e : Expr) : Option Value :=
  (ctx.fieldTarget e).toOption.join.bind FieldTarget.value?

open Evaluation in
/-- The value of an expression. Of the typing rules, it uses the types of variables and of choices, and
the fields that names reach. -/
def eval (ctx : TypingContext) : Expr → Evaluation Value
  | .int v _ => return .int v.toInt32
  | .long v => return .long v
  | .bool v => return .bool v
  | .var v => read v.number
  | .name n => expect .illTyped (ctx.fieldValue? (.name n))
  | .field target n => expect .illTyped (ctx.fieldValue? (.field target n))
  | .unary op e => do answer (Value.unary op (← eval ctx e))
  | .binary op l r => do
    let a ← eval ctx l
    let b ← eval ctx r
    answer (Value.binary op a b)
  | .compare op l r => do
    let a ← eval ctx l
    let b ← eval ctx r
    return .bool (← answer (Value.compare op a b))
  | .and l r => do
    if ← truth (← eval ctx l) then return .bool (← truth (← eval ctx r)) else return .bool false
  | .or l r => do
    if ← truth (← eval ctx l) then return .bool true else return .bool (← truth (← eval ctx r))
  | .not e => do return .bool (!(← truth (← eval ctx e)))
  | .cast (.primitive p) e => do expect .illTyped ((← eval ctx e).convert p)
  | .conditional test a b => do
    let type := ctx.typeOf (.conditional test a b)
    if ← truth (← eval ctx test) then convertTo type (← eval ctx a)
    else convertTo type (← eval ctx b)
  | .assign none (.var v) value => do assign ctx v (← eval ctx value)
  | .assign (some op) (.var v) value => do
    let old ← read v.number
    let operand ← eval ctx value
    assign ctx v (← answer (Value.binary op old operand))
  | .incDec increases before (.var v) => do
    let old ← read v.number
    let new ← assign ctx v (← answer (Value.binary (if increases then .add else .sub) old (.int 1)))
    return if before then new else old
  | _ => throw .illTyped

/-- Expressions over integers and truth values whose variables satisfy a condition. A literal lies in
the range of its type. -/
def Expr.Discrete (known : Variable → Prop) : Expr → Prop
  | .int v kind => (Value.int v.toInt32).fits kind.primitive
  | .long _ | .bool _ => True
  | .var v => known v
  | .unary _ e | .not e => e.Discrete known
  | .binary _ l r | .compare _ l r | .and l r | .or l r => l.Discrete known ∧ r.Discrete known
  | .cast (.primitive p) e => p.isDiscrete ∧ e.Discrete known
  | .conditional c a b => c.Discrete known ∧ a.Discrete known ∧ b.Discrete known
  | .assign _ (.var v) value => known v ∧ value.Discrete known
  | .incDec _ _ (.var v) => known v
  | _ => False

end JavaFragment
