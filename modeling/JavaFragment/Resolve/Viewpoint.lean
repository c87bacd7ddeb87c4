import JavaFragment.Class.Hierarchy
import JavaFragment.Type.Promotion
/-!
Names as seen from the code of one class: what a written class name or type means there, which
members it reaches, and what can be assigned to what.
-/
namespace JavaFragment

/-- The class that code belongs to, with what it can see. -/
structure Viewpoint where
  table : ClassTable
  thisClass : String
  /-- Packages whose classes go by their simple name, in internal form. -/
  imports : List String
  /-- The method whose body is being compiled, which may call itself. -/
  inProgress : Option MethodModel
deriving Repr, Inhabited

namespace Viewpoint

/-- The view from a class that imports packages, given by their dotted names. -/
def ofClass (table : ClassTable) (thisClass : String) (packages : List String) : Viewpoint :=
  ⟨table, thisClass, packages.map internalName, none⟩

/-- A class by its internal name. -/
def getClass (v : Viewpoint) (name : String) : Except CompileError ClassModel :=
  match v.table.find? name with
  | some c => .ok c
  | none => .error (.noSuchClass (sourceName name))

/-- The name that is meant if a class exists. -/
def existing (v : Viewpoint) (name : String) : Option String :=
  if v.table.contains name then some name else none

/-- The class that a simple name means: a class around the code or nested in one of these, then one
of the same package, then an imported one. The classes around the code need not exist. -/
def findSimple (v : Viewpoint) (name : String) : Option String :=
  let around := (v.table.enclosing v.thisClass).findSome? fun c =>
    if simpleName c = name then some c else v.existing (c ++ "$" ++ name)
  let samePackage := match packageName? v.thisClass with
    | some package => package ++ "/" ++ name
    | none => name
  let candidates := samePackage :: v.imports.map fun package => package ++ "/" ++ name
  around <|> candidates.find? v.table.contains

/-- The class that the parts of a dotted name mean, given from the last to the first. -/
def findParts (v : Viewpoint) : List String → Option String
  | [] => none
  | [name] => v.findSimple name
  | last :: rest =>
    v.existing ("/".intercalate (last :: rest).reverse) <|> do
      let outer ← v.findParts rest
      v.existing (outer ++ "$" ++ last)

/-- The parts of a dotted name, from the first to the last. -/
def nameParts (name : String) : List String :=
  (name.toList.splitOn '.').map String.ofList

/-- The class that a simple or dotted name means. `Outer.Inner` is the class `Outer$Inner`, unless
there is a class of that full name. -/
def findClass (v : Viewpoint) (name : String) : Option String :=
  v.findParts (nameParts name).reverse

def resolveClass (v : Viewpoint) (name : String) : Except CompileError String :=
  match v.findClass name with
  | some c => .ok c
  | none => .error (.noSuchClass name)

/-- The base type that is meant by a written type other than an array. -/
def resolveBase (v : Viewpoint) : WrittenType → Except CompileError BaseType
  | .null => .ok .null
  | .primitive p => .ok (.primitive p)
  | .named name => .class <$> v.resolveClass name
  | .array element => v.resolveBase element

/-- The type that is meant by a written type. -/
def resolveType (v : Viewpoint) (t : WrittenType) : Except CompileError JavaType := do
  let (written, dims) := t.split
  let base ← v.resolveBase written
  if 0 < dims && base == .primitive .void then .error (.type .voidArray)
  else return ⟨base, dims⟩

/-- Whether a value of one type can be assigned to another without a cast. References follow the
class hierarchy, and arrays must have the same number of dimensions. -/
def isAssignable (v : Viewpoint) (source target : JavaType) : Bool :=
  if source = target then true
  else if source.isVoid || target.isVoid then false
  else match source.isReference, target.isReference with
    | false, false => source.base.widensTo target.base
    | true, true =>
      source.isNull || target.isObject || source.dims == target.dims &&
        match source.base, target.base with
        | .class s, .class t => v.table.isSubclass s t
        | s, t => s == t
    | _, _ => false

/-- The field of a name that a class has or inherits. -/
def lookupField (v : Viewpoint) (owner name : String) :
    Except CompileError (Declared FieldModel) :=
  match v.table.findField owner name with
  | some found => .ok found
  | none => .error (.noSuchField (sourceName owner ++ "." ++ name))

/-- Whether a private member is reached through an accessor, as those of the classes around the code
are. -/
def needsAccessor (v : Viewpoint) (owner : String) (isPrivate : Bool) : Bool :=
  isPrivate && owner != v.thisClass && (v.table.enclosing v.thisClass).contains owner

end Viewpoint

end JavaFragment
