import JavaFragment.Number.Shortest
import JavaFragment.Type.Promotion
import JavaFragment.Syntax.Tree
import JavaFragment.Class.Model
/-!
Compile-time constants: conversion between types, the operators on them and their text. Integer
arithmetic wraps; division by zero has no value. Operations on `float` are carried out on `double`
and rounded.
-/
namespace JavaFragment

/-- A constant. Those of the `int` family keep the type they have. -/
inductive Const where
  | int (value : Int32) (kind : IntKind)
  | long (value : Int64)
  | float (value : Binary32)
  | double (value : Binary64)
  | bool (value : Bool)
  | string (text : String)
deriving DecidableEq, Repr, Inhabited

/-- Numbers inside strings: positional from 0.001 up to seven whole digits, else with one digit
before the point and an exponent. -/
def FloatLayout.stringValue : FloatLayout :=
  { positional := some (-3, 6)
    wholePoint := true
    mantissaPoint := true
    exponentMark := "E"
    infinity := "Infinity" }

def Binary64.stringValue (v : Binary64) : String :=
  FloatLayout.stringValue.write .double v.bits.toNat

def Binary32.stringValue (v : Binary32) : String :=
  FloatLayout.stringValue.write .single v.bits.toNat

/-- The character with a code, as text; `none` for half a surrogate pair. -/
def charString? (code : UInt32) : Option String :=
  if code.toNat.isValidChar then some (Char.ofNat code.toNat).toString else none

namespace Const

/-- The primitive type of a constant; strings have none. -/
def primitive? : Const → Option Primitive
  | .int _ kind => some kind.primitive
  | .long _ => some .long
  | .float _ => some .float
  | .double _ => some .double
  | .bool _ => some .boolean
  | .string _ => none

/-- The promoted type of a numeric constant. -/
def promoted? (c : Const) : Option Primitive := do
  return .ofRank (← (← c.primitive?).rank?)

/-- The type two numeric constants are promoted to. -/
def promotedWith? (a b : Const) : Option Primitive := do
  return .ofRank (max (← (← a.primitive?).rank?) (← (← b.primitive?).rank?))

def toDouble? : Const → Option Binary64
  | .int value _ => some (.ofInt value.toInt)
  | .long value => some (.ofInt value.toInt)
  | .float value => some value.toBinary64
  | .double value => some value
  | .bool _ | .string _ => none

def toLong? : Const → Option Int64
  | .int value _ => some value.toInt64
  | .long value => some value
  | .float value => some value.toBinary64.toInt64
  | .double value => some value.toInt64
  | .bool _ | .string _ => none

def toInt? : Const → Option Int32
  | .int value _ => some value
  | .long value => some value.toInt32
  | .float value => some value.toBinary64.toInt32
  | .double value => some value.toInt32
  | .bool _ | .string _ => none

def toFloat? : Const → Option Binary32
  | .long value => some (.ofInt value.toInt)
  | c => c.toDouble?.map Binary64.toBinary32

/-- Cuts an `int` down to a smaller type. -/
def narrow (value : Int32) : IntKind → Int32
  | .byte => value.toInt8.toInt32
  | .short => value.toInt16.toInt32
  | .char => value.toUInt32.toUInt16.toUInt32.toInt32
  | .int => value

/-- Conversion to a primitive type. Booleans convert to nothing else, strings to nothing. -/
def convert (c : Const) (target : Primitive) : Option Const :=
  match c with
  | .bool value => if target = .boolean then some (.bool value) else none
  | _ => match target with
    | .byte => c.toInt?.map fun v => .int (narrow v .byte) .byte
    | .short => c.toInt?.map fun v => .int (narrow v .short) .short
    | .char => c.toInt?.map fun v => .int (narrow v .char) .char
    | .int => c.toInt?.map fun v => .int v .int
    | .long => c.toLong?.map .long
    | .float => c.toFloat?.map .float
    | .double => c.toDouble?.map .double
    | .boolean | .void => none

/-- The text of a constant inside a string. Half a surrogate pair has none. -/
def text : Const → String
  | .int value .char => (charString? value.toUInt32).getD ""
  | .int value _ => toString value
  | .long value => toString value
  | .float value => value.stringValue
  | .double value => value.stringValue
  | .bool value => if value then "true" else "false"
  | .string text => text

/-- The literal of a constant. What is no number is made quiet. -/
def toExpr : Const → Expr
  | .int value kind => .int value.toInt64 kind
  | .long value => .long value
  | .float value => .float value.toBinary64.toBinary32
  | .double value => .double value
  | .bool value => .bool value
  | .string text => .string text

/-- The constant that a field of a type holds. -/
def ofField (value : ConstantValue) (type : JavaType) : Const :=
  match value with
  | .int v => match type.primitive? with
    | some .boolean => .bool (v != 0)
    | some p => .int v (p.intKind?.getD .int)
    | none => .int v .int
  | .long v => .long v
  | .float v => .float v
  | .double v => .double v
  | .string text => .string text

/-- What a field that is given a constant holds. -/
def toFieldValue : Const → ConstantValue
  | .int value _ => .int value
  | .bool value => .int (if value then 1 else 0)
  | .long value => .long value
  | .float value => .float value
  | .double value => .double value
  | .string text => .string text

def intOperation (op : BinaryOp) (l r : Int32) : Option Int32 :=
  match op with
  | .add => some (l + r)
  | .sub => some (l - r)
  | .mul => some (l * r)
  | .div => if r = 0 then none else some (l / r)
  | .rem => if r = 0 then none else some (l % r)
  | .bitAnd => some (l &&& r)
  | .bitOr => some (l ||| r)
  | .bitXor => some (l ^^^ r)
  | .shl | .shr | .ushr => none

def longOperation (op : BinaryOp) (l r : Int64) : Option Int64 :=
  match op with
  | .add => some (l + r)
  | .sub => some (l - r)
  | .mul => some (l * r)
  | .div => if r = 0 then none else some (l / r)
  | .rem => if r = 0 then none else some (l % r)
  | .bitAnd => some (l &&& r)
  | .bitOr => some (l ||| r)
  | .bitXor => some (l ^^^ r)
  | .shl | .shr | .ushr => none

def doubleOperation (op : BinaryOp) (l r : Binary64) : Option Binary64 :=
  match op with
  | .add => some (l.add r)
  | .sub => some (l.sub r)
  | .mul => some (l.mul r)
  | .div => some (l.div r)
  | .rem => some (l.rem r)
  | _ => none

def boolOperation (op : BinaryOp) (l r : Bool) : Option Bool :=
  match op with
  | .bitAnd => some (l && r)
  | .bitOr => some (l || r)
  | .bitXor => some (l != r)
  | _ => none

/-- Shift of an `int` by the lowest five bits of the count. -/
def shiftInt (op : BinaryOp) (value : Int32) (count : Int64) : Int32 :=
  let places := count.toUInt64.toUInt32 &&& 31
  match op with
  | .shl => (value.toUInt32 <<< places).toInt32
  | .shr => value >>> places.toInt32
  | _ => (value.toUInt32 >>> places).toInt32

/-- Shift of a `long` by the lowest six bits of the count. -/
def shiftLong (op : BinaryOp) (value : Int64) (count : Int64) : Int64 :=
  let places := count.toUInt64 &&& 63
  match op with
  | .shl => (value.toUInt64 <<< places).toInt64
  | .shr => value >>> places.toInt64
  | _ => (value.toUInt64 >>> places).toInt64

/-- A shift, whose left operand alone decides the type. -/
def shift (op : BinaryOp) (l r : Const) : Option Const := do
  let count ← r.toLong?
  match ← l.promoted? with
  | .int => return .int (shiftInt op (← l.toInt?) count) .int
  | .long => return .long (shiftLong op (← l.toLong?) count)
  | _ => none

/-- Arithmetic on the promoted operands. -/
def arithmetic (op : BinaryOp) (l r : Const) : Option Const := do
  let target ← l.promotedWith? r
  match ← l.convert target, ← r.convert target with
  | .int a _, .int b _ => (intOperation op a b).map fun v => .int v .int
  | .long a, .long b => (longOperation op a b).map .long
  | .float a, .float b =>
    (doubleOperation op a.toBinary64 b.toBinary64).map fun v => .float v.toBinary32
  | .double a, .double b => (doubleOperation op a b).map .double
  | _, _ => none

/-- The value of a binary operator on constants. -/
def binary (op : BinaryOp) (l r : Const) : Option Const :=
  match op, l, r with
  | .add, .string a, b => some (.string (a ++ b.text))
  | .add, a, .string b => some (.string (a.text ++ b))
  | _, .bool a, .bool b => (boolOperation op a b).map .bool
  | _, _, _ => if op.isShift then shift op l r else arithmetic op l r

/-- Whether an order of two values satisfies a comparison. Values without order are unequal. -/
def satisfies (op : CompareOp) : Option Ordering → Bool
  | none => op == .ne
  | some order => match op with
    | .eq => order == .eq
    | .ne => order != .eq
    | .lt => order == .lt
    | .le => order != .gt
    | .gt => order == .gt
    | .ge => order != .lt

/-- The value of a comparison of constants. -/
def compare (op : CompareOp) (l r : Const) : Option Bool :=
  match l, r with
  | .bool a, .bool b => match op with
    | .eq => some (a == b)
    | .ne => some (a != b)
    | _ => none
  | _, _ => do
    let target ← l.promotedWith? r
    match ← l.convert target, ← r.convert target with
    | .int a _, .int b _ => return satisfies op (some (Ord.compare a b))
    | .long a, .long b => return satisfies op (some (Ord.compare a b))
    | a, b => return satisfies op ((← a.toDouble?).compare (← b.toDouble?))

/-- The value of a unary operator on a constant. -/
def unary (op : UnaryOp) (c : Const) : Option Const := do
  let promoted ← c.convert (← c.promoted?)
  match op, promoted with
  | .plus, c => some c
  | .neg, .int value kind => some (.int (-value) kind)
  | .neg, .long value => some (.long (-value))
  | .neg, .float value => some (.float value.neg)
  | .neg, .double value => some (.double value.neg)
  | .bitNot, .int value kind => some (.int (~~~value) kind)
  | .bitNot, .long value => some (.long (~~~value))
  | _, _ => none

end Const

end JavaFragment
