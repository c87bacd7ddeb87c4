import JavaFragment.Number.Binary
import JavaFragment.Bytecode.Encoding
/-!
The constant pool of a class file. Entries are numbered from one and interned: asking for an entry
that is already there gives its number. `long` and `double` entries take two numbers, the second of
which is a placeholder.
-/
namespace JavaFragment

/-- One entry. Numbers inside an entry point to other entries. -/
inductive Constant where
  | utf8 (text : String)
  | integer (value : Int32)
  | float (value : Binary32)
  | long (value : Int64)
  | double (value : Binary64)
  | class (name : UInt16)
  | string (text : UInt16)
  | fieldRef (owner member : UInt16)
  | methodRef (owner member : UInt16)
  | interfaceMethodRef (owner member : UInt16)
  | nameAndType (name descriptor : UInt16)
  /-- The second number of a `long` or `double`. -/
  | placeholder
deriving DecidableEq, Repr, Inhabited

namespace Constant

def isWide : Constant → Bool
  | .long _ | .double _ => true
  | _ => false

/-- The bytes of an entry. A text is preceded by the low 16 bits of its length. -/
def bytes : Constant → List UInt8
  | .utf8 text => 1 :: bytes16 text.utf8ByteSize.toUInt16 ++ text.toUTF8.data.toList
  | .integer value => 3 :: bytes32 value.toUInt32
  | .float value => 4 :: bytes32 value.bits
  | .long value => 5 :: bytes64 value.toUInt64
  | .double value => 6 :: bytes64 value.bits
  | .class name => 7 :: bytes16 name
  | .string text => 8 :: bytes16 text
  | .fieldRef owner member => 9 :: (bytes16 owner ++ bytes16 member)
  | .methodRef owner member => 10 :: (bytes16 owner ++ bytes16 member)
  | .interfaceMethodRef owner member => 11 :: (bytes16 owner ++ bytes16 member)
  | .nameAndType name descriptor => 12 :: (bytes16 name ++ bytes16 descriptor)
  | .placeholder => []

end Constant

/-- The entries, the first of which has number one. -/
structure ConstantPool where
  entries : Array Constant
deriving Repr, Inhabited

namespace ConstantPool

def empty : ConstantPool := ⟨#[]⟩

/-- Numbers in use, zero included. -/
def count (pool : ConstantPool) : UInt16 := pool.entries.size.toUInt16 + 1

def get? (pool : ConstantPool) (index : UInt16) : Option Constant :=
  if index = 0 then none else pool.entries[index.toNat - 1]?

def text? (pool : ConstantPool) (index : UInt16) : Option String :=
  match pool.get? index with
  | some (.utf8 text) => some text
  | _ => none

/-- Internal name of a class entry. -/
def className? (pool : ConstantPool) (index : UInt16) : Option String :=
  match pool.get? index with
  | some (.class name) => pool.text? name
  | _ => none

/-- Owner, name and descriptor of a reference to a field or method. -/
def member? (pool : ConstantPool) (index : UInt16) : Option (String × String × String) := do
  let (owner, member) ← match pool.get? index with
    | some (.fieldRef owner member) => some (owner, member)
    | some (.methodRef owner member) => some (owner, member)
    | some (.interfaceMethodRef owner member) => some (owner, member)
    | _ => none
  match pool.get? member with
  | some (.nameAndType name descriptor) =>
    return (← pool.className? owner, ← pool.text? name, ← pool.text? descriptor)
  | _ => none

/-- The bytes of all entries in order. -/
def bytes (pool : ConstantPool) : List UInt8 := pool.entries.toList.flatMap Constant.bytes

/-- The number of an entry, which is added at the end if it is not there. -/
def intern (entry : Constant) : StateM ConstantPool UInt16 := fun pool =>
  match pool.entries.idxOf? entry with
  | some position => (position.toUInt16 + 1, pool)
  | none =>
    let index := pool.count
    let entries := pool.entries.push entry
    (index, ⟨if entry.isWide then entries.push .placeholder else entries⟩)

def utf8 (text : String) : StateM ConstantPool UInt16 := intern (.utf8 text)

def ofClass (name : String) : StateM ConstantPool UInt16 := do
  intern (.class (← utf8 name))

def string (text : String) : StateM ConstantPool UInt16 := do
  intern (.string (← utf8 text))

def integer (value : Int32) : StateM ConstantPool UInt16 := intern (.integer value)
def float (value : Binary32) : StateM ConstantPool UInt16 := intern (.float value)
def long (value : Int64) : StateM ConstantPool UInt16 := intern (.long value)
def double (value : Binary64) : StateM ConstantPool UInt16 := intern (.double value)

def nameAndType (name descriptor : String) : StateM ConstantPool UInt16 := do
  let name ← utf8 name
  let descriptor ← utf8 descriptor
  intern (.nameAndType name descriptor)

/-- A reference of the given form to a member of a class. -/
def reference (form : UInt16 → UInt16 → Constant) (owner name descriptor : String) :
    StateM ConstantPool UInt16 := do
  let owner ← ofClass owner
  let member ← nameAndType name descriptor
  intern (form owner member)

def field : String → String → String → StateM ConstantPool UInt16 := reference .fieldRef
def method : String → String → String → StateM ConstantPool UInt16 := reference .methodRef

def interfaceMethod : String → String → String → StateM ConstantPool UInt16 :=
  reference .interfaceMethodRef

end ConstantPool

end JavaFragment
