import JavaFragment.Number.Binary
import JavaFragment.Type.Access
import JavaFragment.Type.Descriptor
import JavaFragment.Error
/-!
What is known of classes: their place in the hierarchy, their fields and their methods. Descriptors
are kept as text, since those of foreign classes may be malformed.
-/
namespace JavaFragment

/-- The value of a constant field. -/
inductive ConstantValue where
  | int (value : Int32)
  | long (value : Int64)
  | float (value : Binary32)
  | double (value : Binary64)
  | string (text : String)
deriving DecidableEq, Repr, Inhabited

structure FieldModel where
  name : String
  descriptor : String
  access : AccessFlags
  constant : Option ConstantValue
deriving DecidableEq, Repr, Inhabited

structure MethodModel where
  name : String
  descriptor : String
  access : AccessFlags
deriving DecidableEq, Repr, Inhabited

/-- A class or interface. Nested classes name the class around them. -/
structure ClassModel where
  name : String
  access : AccessFlags
  superName : Option String
  interfaces : List String
  outer : Option String
  fields : List FieldModel
  methods : List MethodModel
deriving DecidableEq, Repr, Inhabited

namespace FieldModel

def isStatic (f : FieldModel) : Bool := f.access.isStatic

/-- The type of a field, if its descriptor is well formed. -/
def type (f : FieldModel) : Except CompileError JavaType :=
  match JavaType.ofDescriptor? f.descriptor with
  | some t => .ok t
  | none => .error (.fatal (.fieldDescriptor f.name))

end FieldModel

namespace MethodModel

def isStatic (m : MethodModel) : Bool := m.access.isStatic
def isPrivate (m : MethodModel) : Bool := m.access.isPrivate
def isConstructor (m : MethodModel) : Bool := m.name == constructorName

end MethodModel

namespace ClassModel

/-- A public class without members. -/
def ofName (name : String) : ClassModel :=
  { name := name
    access := AccessFlags.publicFlag.union .superFlag
    superName := some objectClass
    interfaces := []
    outer := none
    fields := []
    methods := [] }

/-- A public interface without members. -/
def interfaceOfName (name : String) : ClassModel :=
  { ofName name with access := (AccessFlags.publicFlag.union .interfaceFlag).union .abstractFlag }

def isInterface (c : ClassModel) : Bool := c.access.isInterface
def isAbstract (c : ClassModel) : Bool := c.access.isAbstract

/-- The first field of a name. -/
def field? (c : ClassModel) (name : String) : Option FieldModel :=
  c.fields.find? fun f => f.name == name

/-- All methods of a name, in order. -/
def methodsNamed (c : ClassModel) (name : String) : List MethodModel :=
  c.methods.filter fun m => m.name == name

end ClassModel

/-- The classes that are known, at most one of each name. -/
structure ClassTable where
  classes : List ClassModel
deriving Repr, Inhabited

namespace ClassTable

def empty : ClassTable := ⟨[]⟩

def find? (t : ClassTable) (name : String) : Option ClassModel :=
  t.classes.find? fun c => c.name == name

def contains (t : ClassTable) (name : String) : Bool := (t.find? name).isSome

/-- Adds a class in place of any other of its name. -/
def insert (t : ClassTable) (c : ClassModel) : ClassTable :=
  ⟨c :: t.classes.filter fun other => other.name != c.name⟩

def size (t : ClassTable) : Nat := t.classes.length

@[simp]
theorem find?_insert_self (t : ClassTable) (c : ClassModel) : (t.insert c).find? c.name = some c := by
  simp [insert, find?]

theorem find?_insert_of_ne (t : ClassTable) (c : ClassModel) {name : String} (h : c.name ≠ name) :
    (t.insert c).find? name = t.find? name := by
  simp only [insert, find?, List.find?_cons]
  rw [show (c.name == name) = false by simpa using h, List.find?_filter]
  change List.find? _ t.classes = List.find? _ t.classes
  congr 1
  funext other
  by_cases hName : other.name = name <;> simp [hName, Ne.symm h]

end ClassTable

end JavaFragment
