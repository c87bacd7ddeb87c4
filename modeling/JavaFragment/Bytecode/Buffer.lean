import JavaFragment.Type.Descriptor
import JavaFragment.Bytecode.Text
import JavaFragment.Bytecode.Encoding
import JavaFragment.Bytecode.Conversion
/-!
A buffer of instructions under construction. Each instruction is kept with its address, so that a
branch emitted before its target is known can be pointed to it later. The depth of the operand
stack is followed as instructions are appended.
-/
namespace JavaFragment

/-- Why an operation on a buffer is refused. -/
inductive BufferFault where
  | noInstruction (index : Nat)
  | notABranch (found : Instruction)
  | notASwitch (found : Instruction)
  | switchTargets
  | badDescriptor (descriptor : String)
  | offsetOutOfRange (offset : Int)
  | tooManyLocals
  | rangeBeyondLimit (address : Nat)
  | bodyTooLong (size : Nat)
deriving Repr

/-- A row of the exception table: the range of addresses covered, the handler and the pool entry of
the class it catches, zero for all. -/
structure HandlerRange where
  start : UInt16
  stop : UInt16
  handler : UInt16
  caught : UInt16
deriving DecidableEq, Repr, Inhabited

/-- A finished method body. -/
structure MethodCode where
  code : List UInt8
  maxStack : UInt16
  maxLocals : UInt16
  handlers : List HandlerRange
deriving DecidableEq, Repr, Inhabited

/-- Reads the instructions back from a body, with their addresses. -/
def MethodCode.instructions (body : MethodCode) : Except Nat (List (Nat × Instruction)) :=
  Instruction.decodeAll body.code.length 0 body.code

/-- What locals are reserved for. -/
inductive LocalPurpose where
  /-- The variable with a number. -/
  | variable (number : Nat)
  /-- A result that waits for the last part of a `try`. -/
  | result
  /-- An exception that is thrown again later. -/
  | exception
  /-- A locked object. -/
  | lock
deriving DecidableEq, Repr, Inhabited

/-- Locals that hold a value of a type, from a first one on. -/
structure LocalUse where
  purpose : LocalPurpose
  type : JavaType
  first : UInt16
deriving DecidableEq, Repr, Inhabited

/-- Instructions appended so far, with addresses and limits. -/
structure CodeBuffer where
  instructions : Array Instruction
  addresses : Array Nat
  pc : Nat
  depth : Int
  maxStack : UInt16
  maxLocals : UInt16
  handlers : Array HandlerRange
  /-- What locals were reserved for, the latest first. -/
  uses : List LocalUse
deriving Repr, Inhabited

namespace CodeBuffer

/-- A buffer whose first locals are taken. -/
def withLocals (locals : UInt16) : CodeBuffer := ⟨#[], #[], 0, 0, 0, locals, #[], []⟩

def empty : CodeBuffer := withLocals 0

/-- A buffer with the same locals and no code. -/
def cleared (buffer : CodeBuffer) : CodeBuffer :=
  { withLocals buffer.maxLocals with uses := buffer.uses }

/-- Notes what locals are reserved for. -/
def note (buffer : CodeBuffer) (uses : List LocalUse) : CodeBuffer :=
  { buffer with uses := uses ++ buffer.uses }

/-- Largest body of a method, in bytes. -/
def longestBody : Nat := 65535

/-- Sets the depth of the operand stack; it never falls below zero. The highest depth is kept modulo
2^16. -/
def setDepth (buffer : CodeBuffer) (depth : Int) : CodeBuffer :=
  let depth := max depth 0
  { buffer with depth := depth, maxStack := max buffer.maxStack depth.toNat.toUInt16 }

def growStack (buffer : CodeBuffer) (change : Int) : CodeBuffer :=
  buffer.setDepth (buffer.depth + change)

/-- Appends an instruction with a given effect on the stack. -/
def appendWith (buffer : CodeBuffer) (i : Instruction) (change : Int) : CodeBuffer :=
  let address := buffer.pc
  growStack
    { buffer with
      addresses := buffer.addresses.push address
      instructions := buffer.instructions.push i
      pc := address + i.size address }
    change

/-- Appends an instruction with its own effect on the stack. -/
def append (buffer : CodeBuffer) (i : Instruction) : CodeBuffer :=
  buffer.appendWith i (i.stackChange?.getD 0)

def ensureLocals (buffer : CodeBuffer) (locals : UInt16) : CodeBuffer :=
  { buffer with maxLocals := max buffer.maxLocals locals }

/-- Appends a field access, whose effect depends on the type of the field. -/
def appendField (buffer : CodeBuffer) (op : FieldOp) (index : UInt16) (t : JavaType) : CodeBuffer :=
  let change : Int := match op with
    | .getStatic => t.slots
    | .putStatic => -t.slots
    | .getField => t.slots - 1
    | .putField => -t.slots - 1
  buffer.appendWith (.field op index) change

def appendMultiNewArray (buffer : CodeBuffer) (index : UInt16) (dimensions : UInt8) : CodeBuffer :=
  buffer.appendWith (.multiNewArray index dimensions) (1 - dimensions.toNat)

end CodeBuffer

/-- Operations on a buffer that may be refused. -/
abbrev BufferM := EStateM BufferFault CodeBuffer

/-- Which kind of invocation a call uses. -/
inductive InvokeKind where
  | static
  | virtual
  | special
  | interface
deriving DecidableEq, Repr, Inhabited

namespace CodeBuffer

/-- Appends an instruction and gives its index. -/
def emit (i : Instruction) : BufferM Nat :=
  modifyGet fun buffer => (buffer.instructions.size, buffer.append i)

/-- The address of the instruction with an index. -/
def addressOf (index : Nat) : BufferM Nat := do
  match (← get).addresses[index]? with
  | some address => return address
  | none => throw (.noInstruction index)

/-- Points the branch at an index to an address. -/
def patch (index target : Nat) : BufferM Unit := do
  let source ← addressOf index
  let offset : Int := target - source
  if offset < -32768 ∨ 32768 ≤ offset then throw (.offsetOutOfRange offset)
  match (← get).instructions[index]? with
  | none => throw (.noInstruction index)
  | some (.branch b _) =>
    let patched := Instruction.branch b (Int16.ofInt offset)
    modify fun buffer => { buffer with instructions := buffer.instructions.set! index patched }
  | some other => throw (.notABranch other)

/-- Points every branch of a list to an address; stops at the first that is refused. -/
def patchAll (sites : List Nat) (target : Nat) : BufferM Unit :=
  sites.forM fun site => patch site target

/-- Appends a jump to a known address. A refused jump stays in the buffer with offset zero. -/
def emitGoto (target : Nat) : BufferM Nat := do
  let site ← emit (.branch .goto 0)
  patch site target
  return site

/-- Appends a switch over sorted keys, to be pointed to its targets later. -/
def emitSwitch (keys : List Int32) : BufferM Nat :=
  emit (.lookupSwitch 0 (keys.map fun key => (key, 0)))

/-- Points the switch at an index to its default target and the target of each key. -/
def patchSwitch (index default : Nat) (targets : List Nat) : BufferM Unit := do
  let source ← addressOf index
  let offset (target : Nat) : Int32 := Int32.ofNat target - Int32.ofNat source
  match (← get).instructions[index]? with
  | none => throw (.noInstruction index)
  | some (.lookupSwitch _ pairs) =>
    if pairs.length ≠ targets.length then throw .switchTargets
    let patched := Instruction.lookupSwitch (offset default)
      (pairs.zipWith (fun (key, _) target => (key, offset target)) targets)
    modify fun buffer => { buffer with instructions := buffer.instructions.set! index patched }
  | some other => throw (.notASwitch other)

/-- Appends an invocation of the method at a pool index, with the effect its descriptor gives. -/
def emitInvoke (kind : InvokeKind) (index : UInt16) (descriptor : String) : BufferM Unit := do
  match MethodType.ofDescriptor? descriptor with
  | none => throw (.badDescriptor descriptor)
  | some signature =>
    let words := signature.paramSlots
    let receiver : Int := if kind = .static then 0 else 1
    let instruction : Instruction := match kind with
      | .static => .invoke .static index
      | .virtual => .invoke .virtual index
      | .special => .invoke .special index
      | .interface => .invokeInterface index (words + 1).toUInt8 0
    modify fun buffer =>
      buffer.appendWith instruction (signature.result.slots - words - receiver)

/-- Reserves consecutive locals and gives the first. -/
def allocate (size : Nat) : BufferM UInt16 := do
  let slot := (← get).maxLocals
  if slot.toNat + size < 65536 then
    modify fun buffer => { buffer with maxLocals := (slot.toNat + size).toUInt16 }
    return slot
  else throw .tooManyLocals

/-- Reserves locals for a value of a type. -/
def reserve (purpose : LocalPurpose) (type : JavaType) : BufferM UInt16 := do
  let first ← allocate type.slots
  modify fun buffer => buffer.note [⟨purpose, type, first⟩]
  return first

/-- An address as stored in the exception table. -/
def tableAddress (address : Nat) : BufferM UInt16 :=
  if address < 65536 then pure address.toUInt16 else throw (.rangeBeyondLimit address)

/-- Adds a row to the exception table. -/
def addHandler (start stop handler : Nat) (caught : UInt16) : BufferM Unit := do
  let row : HandlerRange :=
    ⟨← tableAddress start, ← tableAddress stop, ← tableAddress handler, caught⟩
  modify fun buffer => { buffer with handlers := buffer.handlers.push row }

/-- The body that a buffer holds. -/
def finish (buffer : CodeBuffer) : Except BufferFault MethodCode :=
  if longestBody < buffer.pc then .error (.bodyTooLong buffer.pc)
  else
    let code := (buffer.addresses.toList.zip buffer.instructions.toList).flatMap
      fun (address, i) => i.encode address
    .ok ⟨code, buffer.maxStack, buffer.maxLocals, buffer.handlers.toList⟩

end CodeBuffer

end JavaFragment
