import JavaFragment.Emit.Basic
/-!
Places that are assigned to. The words that a place needs below the value, such as the object of a
field, are on the stack when it is used.
-/
namespace JavaFragment

/-- A place that is assigned to. -/
inductive Location where
  | local (slot : UInt16) (type : JavaType)
  | field (field : Declared FieldModel) (type : JavaType)
  | element (type : JavaType)
deriving Inhabited

namespace Location

def type : Location → JavaType
  | .local _ type | .field _ type | .element type => type

/-- The number of words that a place needs below the value. -/
def words : Location → Nat
  | .local _ _ => 0
  | .field f _ => if f.member.isStatic then 0 else 1
  | .element _ => 2

/-- Pushes the value at a place. -/
def load (ctx : TypingContext) : Location → Emit Unit
  | .local slot type => Emit.load type slot
  | .field f type => Emit.accessField ctx f type false
  | .element type => Emit.emit (.arrayLoad (Emit.elementKind type))

/-- Stores the value on the stack at a place. -/
def store (ctx : TypingContext) : Location → Emit Unit
  | .local slot type => Emit.store type slot
  | .field f type => Emit.accessField ctx f type true
  | .element type => Emit.emit (.arrayStore (Emit.elementKind type))

/-- Copies the words of a place, for a second use. -/
def copyWords (l : Location) : Emit Unit :=
  match l.words with
  | 0 => pure ()
  | 1 => Emit.emit (.stack .dup)
  | _ => Emit.emit (.stack .dup2)

/-- Copies the value on the stack below the words of a place, where it stays after the store. -/
def keepValue (l : Location) : Emit Unit :=
  Emit.emit <| .stack <| match l.words, l.type.isWide with
    | 0, false => .dup
    | 0, true => .dup2
    | 1, false => .dupX1
    | 1, true => .dup2X1
    | _, false => .dupX2
    | _, true => .dup2X2

end Location

/-- The amount by which a compound assignment changes a local `int`, if one instruction does it. -/
def incrementAmount? (op : BinaryOp) (type : JavaType) (value : Expr) : Option Int16 :=
  match op, value with
  | .add, .int v _ => amount v.toInt
  | .sub, .int v _ => amount (-v.toInt)
  | _, _ => none
where
  amount (v : Int) : Option Int16 :=
    if type = .int ∧ -32768 ≤ v ∧ v < 32768 then some (Int16.ofInt v) else none

namespace Emit

/-- Adds a constant to a local `int`. -/
def increment (slot : UInt16) (amount : Int16) : Emit Unit := emit (.increment slot amount)

/-- Changes a place by a compound operator. -/
def compound (ctx : TypingContext) (op : BinaryOp) (l : Location) (value : Expr)
    (code : Emit JavaType) : Emit Unit := do
  let type := l.type
  l.copyWords
  l.load ctx
  if op = .add && type.isString then appendTo code
  else
    let source ← ctx.typeOf value
    match TypingContext.binaryType op type source with
    | none => throw (.type (.compoundOperands type source op))
    | some promoted =>
      coerce type promoted
      let source ← code
      coerce source (if op.isShift then .int else promoted)
      emit (← binaryInstruction op promoted)
      coerce promoted type

/-- Assigns to a place. The value stays on the stack if it is wanted. -/
def assign (ctx : TypingContext) (op : Option BinaryOp) (location : Emit Location) (value : Expr)
    (code : Emit JavaType) (codeAs : JavaType → Emit Unit) (wanted : Bool) : Emit JavaType := do
  let l ← location
  let result := if wanted then l.type else .void
  match op, l, op.bind fun op => incrementAmount? op l.type value with
  | _, .local slot type, some amount =>
    increment slot amount
    if wanted then load type slot
    return result
  | none, _, _ => codeAs l.type
  | some op, _, _ => compound ctx op l value code
  if wanted then l.keepValue
  l.store ctx
  return result

/-- Adds one to a place or takes one off. The value wanted is that before or after the change. -/
def step (ctx : TypingContext) (increases before : Bool) (location : Emit Location) (target : Expr)
    (wanted : Bool) : Emit JavaType := do
  let l ← location
  let type := l.type
  let result := if wanted then type else .void
  match l, decide (type = .int) with
  | .local slot _, true =>
    if wanted && !before then load type slot
    increment slot (if increases then 1 else -1)
    if wanted && before then load type slot
    return result
  | _, _ =>
    match type.promoted? with
    | none => throw (.type (.operand type target))
    | some promoted =>
      l.copyWords
      l.load ctx
      if wanted && !before then l.keepValue
      coerce type promoted
      pushOne promoted
      emit (← binaryInstruction (if increases then .add else .sub) promoted)
      coerce promoted type
      if wanted && before then l.keepValue
      l.store ctx
      return result

end Emit

end JavaFragment
