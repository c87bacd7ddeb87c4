import JavaFragment.Class.Model
/-!
The class hierarchy of a table: ancestors, inherited fields, the order in which methods are found,
and the classes around a nested class. Walks stop after as many steps as there are classes, which no
acyclic hierarchy exceeds.
-/
namespace JavaFragment

namespace ClassModel

/-- The superclass and the interfaces, in the order in which they are searched. -/
def parents (c : ClassModel) : List String := c.superName.toList ++ c.interfaces

/-- The parents whose methods a class hands on. A concrete class declares what its interfaces ask
for, so these are searched for abstract classes and interfaces only. -/
def methodParents (c : ClassModel) : List String :=
  c.superName.toList ++ if c.isInterface || c.isAbstract then c.interfaces else []

end ClassModel

/-- A field or method with the class that declares it. -/
structure Declared (α : Type) where
  owner : ClassModel
  member : α
deriving Repr, Inhabited

namespace ClassTable

/-- Enough steps to walk up any acyclic hierarchy of the table. -/
def height (t : ClassTable) : Nat := t.size + 1

/-- Whether a class is reached from another by at most `steps` steps to a parent. -/
def reaches (t : ClassTable) (target : String) : Nat → String → Bool
  | 0, source => source == target
  | steps + 1, source =>
    source == target || match t.find? source with
      | none => false
      | some c => c.parents.any (t.reaches target steps)

/-- Whether a class is another one or extends or implements it. Every class extends `Object`. -/
def isSubclass (t : ClassTable) (source target : String) : Bool :=
  target == objectClass || t.reaches target t.height source

/-- The first field of a name, walking up from a class. -/
def findFieldWithin (t : ClassTable) (name : String) : Nat → String → Option (Declared FieldModel)
  | 0, _ => none
  | steps + 1, owner => do
    let c ← t.find? owner
    match c.field? name with
    | some f => some ⟨c, f⟩
    | none => c.parents.findSome? (t.findFieldWithin name steps)

/-- The field that a name means in a class: its own, else that of its nearest ancestor. -/
def findField (t : ClassTable) (owner name : String) : Option (Declared FieldModel) :=
  t.findFieldWithin name t.height owner

/-- The methods of a name, those of a class before those of its ancestors. -/
def methodsWithin (t : ClassTable) (name : String) : Nat → ClassModel → List (Declared MethodModel)
  | 0, _ => []
  | steps + 1, c =>
    (c.methodsNamed name).map (Declared.mk c) ++
      if name = constructorName then []
      else c.methodParents.flatMap fun parent =>
        match t.find? parent with
        | some p => t.methodsWithin name steps p
        | none => []

/-- The methods of a name that a class has or inherits. Constructors are not inherited; interfaces
have the methods of `Object`. -/
def methodsOf (t : ClassTable) (c : ClassModel) (name : String) : List (Declared MethodModel) :=
  let inherited := if c.isInterface then (t.find? objectClass).toList else []
  (c :: inherited).flatMap (t.methodsWithin name t.height)

/-- At most `steps` classes: a class, the one around it, and so on outwards. -/
def enclosingWithin (t : ClassTable) : Nat → String → List String
  | 0, _ => []
  | steps + 1, name =>
    name :: match (t.find? name).bind ClassModel.outer with
      | some outer => t.enclosingWithin steps outer
      | none => []

/-- A class and the classes around it, from the inside out. -/
def enclosing (t : ClassTable) (name : String) : List String := t.enclosingWithin t.height name

end ClassTable

end JavaFragment
