import JavaFragment.Class.Accessor
import JavaFragment.Typing.Denotation
/-!
Emission of code: the state that grows while code is emitted, and the short sequences from which the
code of expressions and statements is put together.
-/
namespace JavaFragment

/-- What emission adds to. It keeps what was added also when it fails. -/
structure EmitState where
  code : CodeBuffer
  pool : ConstantPool
  slots : VariableSlots
  /-- The accessors of each class. -/
  accessors : List (String × AccessorTable)
  /-- For each `try` with a last part, the slot in which a pending result waits. -/
  resultSlots : Array (Option UInt16)
deriving Inhabited

/-- Emission, which may be refused. -/
abbrev Emit := EStateM CompileError EmitState

namespace Emit

variable {α : Type}

/-- An operation on the buffer. The buffer leaves the state meanwhile, so that it is not shared. -/
def onBuffer (x : BufferM α) : Emit α := fun s =>
  let code := s.code
  let s := { s with code := .empty }
  match x.run code with
  | .ok a code => .ok a { s with code := code }
  | .error fault code => .error (.buffer fault) { s with code := code }

/-- An operation on the constant pool. -/
def onPool (x : StateM ConstantPool α) : Emit α := fun s =>
  let pool := s.pool
  let s := { s with pool := .empty }
  let (a, pool) := x.run pool
  .ok a { s with pool := pool }

/-- A rule that may refuse. -/
def ofExcept : Except CompileError α → Emit α
  | .ok a => pure a
  | .error e => throw e

instance : MonadLift BufferM Emit := ⟨onBuffer⟩
instance : MonadLift (StateM ConstantPool) Emit := ⟨onPool⟩
instance : MonadLift (Except CompileError) Emit := ⟨ofExcept⟩

/-- Changes the buffer. -/
def change (f : CodeBuffer → CodeBuffer) : Emit Unit := onBuffer (modify f)

/-- Appends an instruction. -/
def emit (i : Instruction) : Emit Unit := change (·.append i)

/-- Appends a branch to be pointed to its target later, and gives its index. -/
def branch (b : Branch) : Emit Nat := CodeBuffer.emit (.branch b 0)

def goto : Emit Nat := branch .goto

/-- The address of what comes next. -/
def here : Emit Nat := return (← get).code.pc

def depth : Emit Int := return (← get).code.depth

def setDepth (depth : Int) : Emit Unit := change (·.setDepth depth)

def patch (site target : Nat) : Emit Unit := CodeBuffer.patch site target

def patchAll (sites : List Nat) (target : Nat) : Emit Unit := CodeBuffer.patchAll sites target

/-- Points branches to what comes next. -/
def land (sites : List Nat) : Emit Unit := do patchAll sites (← here)

def load (type : JavaType) (slot : UInt16) : Emit Unit := emit (.loadSlot type.slotKind slot)

def store (type : JavaType) (slot : UInt16) : Emit Unit := emit (.storeSlot type.slotKind slot)

/-- Loads the object whose method runs. -/
def loadThis : Emit Unit := load .object 0

/-- Reserves slots for a value of a type. -/
def reserve (purpose : LocalPurpose) (type : JavaType) : Emit UInt16 :=
  CodeBuffer.reserve purpose type

/-- The slot of a variable, which gets one when it is first asked for. -/
def slotOf (ctx : TypingContext) (v : Variable) : Emit UInt16 := do
  match ((← get).slots[v.number]?).join with
  | some slot => return slot
  | none =>
    let slot ← reserve (.variable v.number) (← ctx.variableType v)
    modify fun s => { s with slots := s.slots.set! v.number (some slot) }
    return slot

/-! Constants. -/

/-- Loads an entry of the pool that takes one word. -/
def loadConstant (index : UInt16) : Emit Unit :=
  emit (if index.toNat < 256 then .ldc index.toUInt8 else .ldcW index)

def pushInt (value : Int32) : Emit Unit := do
  let v := value.toInt
  if h : (v + 1).toNat < 7 ∧ -1 ≤ v then emit (.iconst ⟨(v + 1).toNat, h.1⟩)
  else if -128 ≤ v ∧ v < 128 then emit (.bipush value.toInt8)
  else if -32768 ≤ v ∧ v < 32768 then emit (.sipush value.toInt16)
  else loadConstant (← ConstantPool.integer value)

/-- The instruction that pushes zero. -/
def zero : NumberKind → Instruction
  | .int => .iconst ⟨1, by decide⟩
  | .long => .lconst ⟨0, by decide⟩
  | .float => .fconst ⟨0, by decide⟩
  | .double => .dconst ⟨0, by decide⟩

/-- The instruction that pushes one. -/
def one : NumberKind → Instruction
  | .int => .iconst ⟨2, by decide⟩
  | .long => .lconst ⟨1, by decide⟩
  | .float => .fconst ⟨1, by decide⟩
  | .double => .dconst ⟨1, by decide⟩

def pushLong (value : Int64) : Emit Unit := do
  if value = 0 then emit (zero .long)
  else if value = 1 then emit (one .long)
  else emit (.ldc2W (← ConstantPool.long value))

/-- Pushes a float. The short forms are for the bits of 0, 1 and 2. -/
def pushFloat (value : Binary32) : Emit Unit := do
  if value.bits = 0 then emit (zero .float)
  else if value.bits = 0x3f800000 then emit (one .float)
  else if value.bits = 0x40000000 then emit (.fconst ⟨2, by decide⟩)
  else loadConstant (← ConstantPool.float value)

/-- Pushes a double. The short forms are for the bits of 0 and 1. -/
def pushDouble (value : Binary64) : Emit Unit := do
  if value.bits = 0 then emit (zero .double)
  else if value.bits = 0x3ff0000000000000 then emit (one .double)
  else emit (.ldc2W (← ConstantPool.double value))

/-- The kind of arithmetic of a type; what is no wider number counts as `int`. -/
def numberKind (type : JavaType) : NumberKind := type.base.stackKind?.getD .int

/-- Pushes the number one. -/
def pushOne (type : JavaType) : Emit Unit := emit (one (numberKind type))

/-- Pushes the value that a variable of a type has at first. -/
def pushDefault (type : JavaType) : Emit Unit :=
  if type.isReference then emit .aconstNull
  else if type.isVoid then pure ()
  else emit (zero (numberKind type))

/-- Pushes a truth value, which is one or zero. -/
def pushTruth (value : Bool) : Emit Unit := emit (if value then one .int else zero .int)

/-- Drops a value. -/
def pop (type : JavaType) : Emit Unit :=
  match type.slots with
  | 0 => pure ()
  | 1 => emit (.stack .pop)
  | _ => emit (.stack .pop2)

/-! Conversions. -/

/-- Converts the value on the stack between primitive types. -/
def coerce (source target : JavaType) : Emit Unit :=
  if source.isReference || target.isReference || source.isVoid || target.isVoid then pure ()
  else (source.base.conversions target.base).forM fun c => emit (.convert c)

/-- The pool entry of the class of a reference type. -/
def classIndex (type : JavaType) : Emit UInt16 := ConstantPool.ofClass type.referenceName

def checkCast (type : JavaType) : Emit Unit := do emit (.checkCast (← classIndex type))

/-- Calls a method. -/
def invoke (kind : InvokeKind) (owner name descriptor : String) : Emit Unit := do
  let index ← match kind with
    | .interface => onPool (ConstantPool.interfaceMethod owner name descriptor)
    | .static | .virtual | .special => onPool (ConstantPool.method owner name descriptor)
  CodeBuffer.emitInvoke kind index descriptor

/-- Reads a static field. -/
def getStatic (owner name : String) (type : JavaType) : Emit Unit := do
  let index ← ConstantPool.field owner name type.descriptor
  change (·.appendField .getStatic index type)

/-- Boxes the value on the stack. Where there is none, pushes `null`. -/
def box (type : JavaType) : Emit Unit :=
  if type.isVoid then emit .aconstNull
  else match type.primitive?.bind Primitive.wrapper? with
    | some (owner, _) =>
      invoke .static owner "valueOf" ("(" ++ type.descriptor ++ ")L" ++ owner ++ ";")
    | none => pure ()

/-- Takes the primitive value out of the object on the stack. -/
def unbox (type : JavaType) : Emit Unit :=
  match type.primitive?.bind Primitive.wrapper? with
  | some (owner, method) => do
    checkCast (.ofClass owner)
    invoke .virtual owner method ("()" ++ type.descriptor)
  | none => throw (.fatal (.noWrapper type))

/-- Pushes the class of a type. That of a primitive is held by its wrapper. -/
def classLiteral (type : JavaType) : Emit JavaType := do
  let result := JavaType.ofClass "java/lang/Class"
  match type.base, type.dims with
  | .primitive p, 0 =>
    let owner := match p.wrapper? with
      | some (owner, _) => owner
      | none => "java/lang/Void"
    getStatic owner "TYPE" result
    return result
  | .null, 0 => throw (.fatal (.noClassLiteral type))
  | _, _ =>
    loadConstant (← classIndex type)
    return result

/-! Operators. -/

def integerKind : NumberKind → Option IntegerKind
  | .int => some .int
  | .long => some .long
  | .float | .double => none

/-- The instruction of a binary operator on a type. -/
def binaryInstruction (op : BinaryOp) (type : JavaType) : Except CompileError Instruction :=
  let kind := numberKind type
  let integral (make : IntegerKind → Instruction) : Except CompileError Instruction :=
    match integerKind kind with
    | some kind => .ok (make kind)
    | none => .error (.fatal (.floatingOperator op))
  match op with
  | .add => .ok (.arith .add kind)
  | .sub => .ok (.arith .sub kind)
  | .mul => .ok (.arith .mul kind)
  | .div => .ok (.arith .div kind)
  | .rem => .ok (.arith .rem kind)
  | .shl => integral (.shift .left)
  | .shr => integral (.shift .right)
  | .ushr => integral (.shift .unsignedRight)
  | .bitAnd => integral (.bitwise .and)
  | .bitOr => integral (.bitwise .or)
  | .bitXor => integral (.bitwise .xor)

/-- Applies a unary operator to the promoted operand on the stack. -/
def unaryOperator (op : UnaryOp) (type : JavaType) : Emit Unit :=
  match op, numberKind type with
  | .plus, _ => pure ()
  | .neg, kind => emit (.neg kind)
  | .bitNot, .long => do
    pushLong (-1)
    emit (.bitwise .xor .long)
  | .bitNot, _ => do
    emit (.iconst ⟨0, by decide⟩)
    emit (.bitwise .xor .int)

def relation : CompareOp → Relation
  | .eq => .eq
  | .ne => .ne
  | .lt => .lt
  | .le => .le
  | .gt => .gt
  | .ge => .ge

/-- The instruction that compares two numbers wider than `int`. What is no number makes every order
false, so the outcome on it depends on the direction of the comparison. -/
def comparison (op : CompareOp) : NumberKind → Option Comparison
  | .int => none
  | .long => some .long
  | .float => some (if op = .lt || op = .le then .floatGreater else .floatLess)
  | .double => some (if op = .lt || op = .le then .doubleGreater else .doubleLess)

/-! Arrays. -/

/-- The kind that selects loads and stores of array elements. -/
def elementKind (element : JavaType) : ElementKind :=
  match element.primitive? with
  | none => .ref
  | some .boolean | some .byte => .byte
  | some .char => .char
  | some .short => .short
  | some .long => .long
  | some .float => .float
  | some .double => .double
  | some .int | some .void => .int

/-- Makes an array whose length is on the stack. -/
def newArray (type : JavaType) : Emit Unit :=
  match type.element? with
  | none => throw (.fatal (.notAnArrayType type))
  | some element => match element.primitive?.bind Primitive.arrayCode? with
    | some code => emit (.newArray code)
    | none => do emit (.anewArray (← classIndex element))

/-- Stores items in the array on the stack, from a position on. -/
def storeItems (position : Nat) (element : JavaType) : List (Emit Unit) → Emit Unit
  | [] => pure ()
  | item :: rest => do
    emit (.stack .dup)
    pushInt (Int32.ofNat position)
    item
    emit (.arrayStore (elementKind element))
    storeItems (position + 1) element rest

/-! Strings. -/

def builderClass : String := "java/lang/StringBuilder"

/-- The parameter of the method that appends a value of a type to a string. -/
def appendParameter (type : JavaType) : Except CompileError String :=
  if type.isString then .ok "Ljava/lang/String;"
  else match type.primitive? with
    | none => .ok "Ljava/lang/Object;"
    | some .void => .error (.type .voidInConcat)
    | some .byte | some .short => .ok "I"
    | some p => .ok p.letter.toString

/-- Appends a value to the string builder on the stack. -/
def appendValue (value : Emit JavaType) : Emit Unit := do
  let type ← value
  let param ← appendParameter type
  invoke .virtual builderClass "append" ("(" ++ param ++ ")L" ++ builderClass ++ ";")

def builderToString : Emit Unit :=
  invoke .virtual builderClass "toString" "()Ljava/lang/String;"

/-- Makes a string of the texts of values. -/
def concat (values : List (Emit JavaType)) : Emit JavaType := do
  emit (.new (← ConstantPool.ofClass builderClass))
  emit (.stack .dup)
  invoke .special builderClass constructorName "()V"
  values.forM appendValue
  builderToString
  return .string

/-- Appends the text of a value to the string on the stack. -/
def appendTo (value : Emit JavaType) : Emit Unit := do
  invoke .static stringClass "valueOf" "(Ljava/lang/Object;)Ljava/lang/String;"
  emit (.new (← ConstantPool.ofClass builderClass))
  emit (.stack .dupX1)
  emit (.stack .swap)
  invoke .special builderClass constructorName "(Ljava/lang/String;)V"
  appendValue value
  builderToString

/-! Members. -/

/-- The accessor of a class that is asked for. -/
def accessor (owner : String)
    (request : AccessorTable → Except CompileError (SyntheticMethod × AccessorTable)) :
    Emit SyntheticMethod := do
  let (m, table) ← request (((← get).accessors.lookup owner).getD .empty)
  modify fun s =>
    { s with accessors := (owner, table) :: s.accessors.filter fun entry => entry.1 != owner }
  return m

/-- Reads or stores a field, through an accessor where there has to be one. -/
def accessField (ctx : TypingContext) (f : Declared FieldModel) (type : JavaType) (put : Bool) :
    Emit Unit := do
  let owner := f.owner.name
  if ctx.view.needsAccessor owner f.member.access.isPrivate then
    let m ← accessor owner fun t =>
      .ok (if put then f.member.setter owner t else f.member.getter owner t)
    invoke .static owner m.name m.descriptor
  else
    let index ← ConstantPool.field owner f.member.name f.member.descriptor
    let op : FieldOp := match f.member.isStatic, put with
      | true, false => .getStatic
      | true, true => .putStatic
      | false, false => .getField
      | false, true => .putField
    change (·.appendField op index type)

end Emit

end JavaFragment
