import JavaFragment.Syntax.Tree
/-!
Scopes of local variables, and what becomes known of each variable: its type once it is looked up,
and its slot once it has one.
-/
namespace JavaFragment

/-- The variables declared in one block, by name. The latest declaration of a name counts. -/
abbrev Frame := List (String × Variable)

/-- A scope with the scopes around it, from the inside out. -/
structure Scope where
  own : Frame
  around : List Frame
deriving Repr, Inhabited

namespace Scope

def empty : Scope := ⟨[], []⟩

/-- Opens a scope inside the given one. -/
def enter (s : Scope) : Scope := ⟨[], s.own :: s.around⟩

/-- Closes a scope. The outermost leaves an empty one. -/
def exit (s : Scope) : Scope :=
  match s.around with
  | [] => empty
  | own :: around => ⟨own, around⟩

/-- Closes a number of scopes. -/
def exits : Nat → Scope → Scope
  | 0, s => s
  | depth + 1, s => exits depth s.exit

/-- Whether a name is declared in the scope itself. -/
def declares (s : Scope) (name : String) : Bool := (s.own.lookup name).isSome

def lookup (s : Scope) (name : String) : Option Variable :=
  (s.own :: s.around).findSome? fun frame => frame.lookup name

def declare (s : Scope) (v : Variable) : Scope := { s with own := (v.name, v) :: s.own }

@[simp]
theorem exit_enter (s : Scope) : s.enter.exit = s := rfl

@[simp]
theorem lookup_enter (s : Scope) (name : String) : s.enter.lookup name = s.lookup name := rfl

@[simp]
theorem lookup_declare_self (s : Scope) (v : Variable) : (s.declare v).lookup v.name = some v := by
  simp [declare, lookup]

end Scope

/-- The types of variables that are known without looking up what was written, by number. -/
abbrev VariableTypes := Array (Option JavaType)

/-- The slots that variables have been given, by number. -/
abbrev VariableSlots := Array (Option UInt16)

/-- What is known of the variables. -/
structure Locals where
  types : VariableTypes
  slots : VariableSlots
deriving Repr, Inhabited

namespace Locals

def empty : Locals := ⟨#[], #[]⟩

/-- How many variables there are, which is the number of the next one. -/
def count (l : Locals) : Nat := l.types.size

/-- Adds variables of which nothing is known until there are `count` of them. -/
def extend (l : Locals) (count : Nat) : Locals :=
  ⟨l.types ++ Array.replicate (count - l.types.size) none,
    l.slots ++ Array.replicate (count - l.slots.size) none⟩

/-- Adds a variable of known type and slot. -/
def bind (l : Locals) (name : String) (type : JavaType) (slot : UInt16) : Variable × Locals :=
  (⟨l.count, name, .ofType type⟩, ⟨l.types.push (some type), l.slots.push (some slot)⟩)

def type? (l : Locals) (v : Variable) : Option JavaType := (l.types[v.number]?).join

def slot? (l : Locals) (v : Variable) : Option UInt16 := (l.slots[v.number]?).join

/-- Records a type, unless one is already known. -/
def setType (l : Locals) (v : Variable) (type : JavaType) : Locals :=
  { l with types := l.types.modify v.number fun known => known.or (some type) }

/-- Records a slot in place of any earlier one. -/
def setSlot (l : Locals) (v : Variable) (slot : UInt16) : Locals :=
  { l with slots := l.slots.set! v.number (some slot) }

end Locals

end JavaFragment
