import JavaFragment.ConstantPool
import JavaFragment.Class.Model
/-!
Synthetic accessors, through which a nested class reaches private members of the classes around it.
A class has one accessor for each member and use; asking again gives the same.
-/
namespace JavaFragment

/-- What an accessor does. -/
inductive AccessorBody where
  | getField (name descriptor : String) (isStatic : Bool)
  | setField (name descriptor : String) (isStatic : Bool)
  | forward (name descriptor : String) (isStatic : Bool)
  | shadowConstructor (descriptor : String)
deriving DecidableEq, Repr, Inhabited

/-- A method that the compiler adds to a class. -/
structure SyntheticMethod where
  name : String
  descriptor : String
  access : AccessFlags
  body : AccessorBody
deriving DecidableEq, Repr, Inhabited

/-- Type of the extra argument that tells a shadow constructor from the private one. -/
def constructorMarker : String := "compiler/runtime/Inner"

/-- The accessors of a class in order of creation, each with the text it was asked for by. -/
structure AccessorTable where
  entries : List (String × SyntheticMethod)
deriving DecidableEq, Repr, Inhabited

namespace AccessorTable

def empty : AccessorTable := ⟨[]⟩

def methods (t : AccessorTable) : List SyntheticMethod := t.entries.map Prod.snd

/-- The name of the next static accessor. Shadow constructors take no number. -/
def nextName (t : AccessorTable) : String :=
  let taken := t.methods.filter fun m => m.name != constructorName
  "access$" ++ toString taken.length

/-- The accessor asked for by a text, which is created if it is new. -/
def request (t : AccessorTable) (key : String) (make : SyntheticMethod) :
    SyntheticMethod × AccessorTable :=
  match t.entries.lookup key with
  | some known => (known, t)
  | none => (make, ⟨t.entries ++ [(key, make)]⟩)

/-- A static accessor of a given descriptor. -/
def staticMethod (t : AccessorTable) (descriptor : String) (body : AccessorBody) :
    SyntheticMethod :=
  ⟨t.nextName, descriptor, AccessFlags.staticFlag.union .syntheticFlag, body⟩

end AccessorTable

/-- The parameter for the receiver of an instance member. -/
def receiverDescriptor (owner : String) (isStatic : Bool) : String :=
  if isStatic then "" else "L" ++ owner ++ ";"

/-- The accessor that reads a field. -/
def FieldModel.getter (f : FieldModel) (owner : String) (t : AccessorTable) :
    SyntheticMethod × AccessorTable :=
  t.request ("get:" ++ f.name ++ ":" ++ f.descriptor) <|
    t.staticMethod ("(" ++ receiverDescriptor owner f.isStatic ++ ")" ++ f.descriptor)
      (.getField f.name f.descriptor f.isStatic)

/-- The accessor that stores its last argument in a field. -/
def FieldModel.setter (f : FieldModel) (owner : String) (t : AccessorTable) :
    SyntheticMethod × AccessorTable :=
  t.request ("set:" ++ f.name ++ ":" ++ f.descriptor) <|
    t.staticMethod ("(" ++ receiverDescriptor owner f.isStatic ++ f.descriptor ++ ")V")
      (.setField f.name f.descriptor f.isStatic)

/-- The accessor that calls a method. The receiver of an instance method comes first. -/
def MethodModel.accessor (m : MethodModel) (owner : String) (t : AccessorTable) :
    SyntheticMethod × AccessorTable :=
  t.request ("call:" ++ m.name ++ ":" ++ m.descriptor) <|
    t.staticMethod
      ("(" ++ receiverDescriptor owner m.isStatic ++ String.ofList (m.descriptor.toList.drop 1))
      (.forward m.name m.descriptor m.isStatic)

/-- The constructor that stands in for a private one, with a marker as last parameter. -/
def MethodModel.shadowConstructor (m : MethodModel) (t : AccessorTable) :
    Except CompileError (SyntheticMethod × AccessorTable) :=
  let chars := m.descriptor.toList
  match chars.dropWhile (· != ')') with
  | [] => .error (.fatal (.constructorDescriptor m.descriptor))
  | close =>
    let params := chars.takeWhile (· != ')')
    let descriptor := String.ofList params ++ "L" ++ constructorMarker ++ ";" ++ String.ofList close
    .ok <| t.request ("new:" ++ m.descriptor)
      ⟨constructorName, descriptor, .syntheticFlag, .shadowConstructor m.descriptor⟩

namespace SyntheticMethod

/-- Loads parameters that start at a slot. -/
def loadParams (buffer : CodeBuffer) (slot : UInt16) : List JavaType → CodeBuffer
  | [] => buffer
  | t :: rest =>
    loadParams (buffer.append (.loadSlot t.slotKind slot)) (slot + t.slots.toUInt16) rest

def isShadow (m : SyntheticMethod) : Bool :=
  match m.body with
  | .shadowConstructor _ => true
  | _ => false

/-- Loads what an accessor passes on: the receiver of a constructor and all parameters but its
marker. -/
def prepare (m : SyntheticMethod) (owner : String) (signature : MethodType) : CodeBuffer :=
  let receiver : UInt16 := if m.isShadow then 1 else 0
  let buffer := CodeBuffer.withLocals (receiver + signature.paramSlots.toUInt16)
  if m.isShadow then
    loadParams (buffer.append (.loadSlot (JavaType.ofClass owner).slotKind 0)) receiver
      signature.params.dropLast
  else loadParams buffer receiver signature.params

/-- Appends the access to a field. -/
def accessField (op : FieldOp) (owner name descriptor : String) (buffer : CodeBuffer) :
    ConstantPool → Except CompileError CodeBuffer × ConstantPool := fun pool =>
  match JavaType.ofDescriptor? descriptor with
  | none => (.error (.fatal (.accessorField descriptor)), pool)
  | some t =>
    let (index, pool) := ConstantPool.field owner name descriptor pool
    (.ok (buffer.appendField op index t), pool)

/-- Appends the invocation of a method. -/
def invokeMethod (kind : InvokeKind) (owner name descriptor : String) (buffer : CodeBuffer) :
    ConstantPool → Except CompileError CodeBuffer × ConstantPool := fun pool =>
  let (index, pool) := ConstantPool.method owner name descriptor pool
  match (CodeBuffer.emitInvoke kind index descriptor).run buffer with
  | .ok _ buffer => (.ok buffer, pool)
  | .error fault _ => (.error (.buffer fault), pool)

/-- Appends the access itself. -/
def perform (m : SyntheticMethod) (owner : String) (buffer : CodeBuffer) :
    ConstantPool → Except CompileError CodeBuffer × ConstantPool :=
  match m.body with
  | .getField name descriptor isStatic =>
    accessField (if isStatic then .getStatic else .getField) owner name descriptor buffer
  | .setField name descriptor isStatic =>
    accessField (if isStatic then .putStatic else .putField) owner name descriptor buffer
  | .forward name descriptor isStatic =>
    invokeMethod (if isStatic then .static else .special) owner name descriptor buffer
  | .shadowConstructor descriptor =>
    invokeMethod .special owner constructorName descriptor buffer

/-- The code of an accessor of a class. Pool entries made before a fault stay. -/
def code (m : SyntheticMethod) (owner : String) :
    ConstantPool → Except CompileError MethodCode × ConstantPool := fun pool =>
  match MethodType.ofDescriptor? m.descriptor with
  | none => (.error (.fatal (.accessorDescriptor m.descriptor)), pool)
  | some signature =>
    let (result, pool) := m.perform owner (m.prepare owner signature) pool
    let body := do
      let buffer ← result
      match (buffer.append (.returning signature.result)).finish with
      | .ok body => .ok body
      | .error fault => .error (.buffer fault)
    (body, pool)

end SyntheticMethod

end JavaFragment
