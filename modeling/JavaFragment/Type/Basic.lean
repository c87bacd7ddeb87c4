/-!
Types of the language: primitives, classes by internal name, the type of `null`, and arrays over
them.
-/
namespace JavaFragment

/-- The types that have a keyword of their own, `void` included. -/
inductive Primitive where
  | void
  | boolean
  | byte
  | char
  | short
  | int
  | long
  | float
  | double
deriving DecidableEq, Hashable, Repr, Inhabited

namespace Primitive

def keyword : Primitive → String
  | .void => "void"
  | .boolean => "boolean"
  | .byte => "byte"
  | .char => "char"
  | .short => "short"
  | .int => "int"
  | .long => "long"
  | .float => "float"
  | .double => "double"

def ofKeyword? : String → Option Primitive
  | "void" => some .void
  | "boolean" => some .boolean
  | "byte" => some .byte
  | "char" => some .char
  | "short" => some .short
  | "int" => some .int
  | "long" => some .long
  | "float" => some .float
  | "double" => some .double
  | _ => none

/-- The letter that stands for the type in a descriptor. -/
def letter : Primitive → Char
  | .void => 'V'
  | .boolean => 'Z'
  | .byte => 'B'
  | .char => 'C'
  | .short => 'S'
  | .int => 'I'
  | .long => 'J'
  | .float => 'F'
  | .double => 'D'

def ofLetter? : Char → Option Primitive
  | 'V' => some .void
  | 'Z' => some .boolean
  | 'B' => some .byte
  | 'C' => some .char
  | 'S' => some .short
  | 'I' => some .int
  | 'J' => some .long
  | 'F' => some .float
  | 'D' => some .double
  | _ => none

@[simp]
theorem ofLetter?_letter (p : Primitive) : ofLetter? p.letter = some p := by
  cases p <;> rfl

theorem letter_of_ofLetter? {c : Char} {p : Primitive} (h : ofLetter? c = some p) :
    p.letter = c := by
  unfold ofLetter? at h
  split at h <;> first | (cases h; rfl) | cases h

/-- Operand of the instruction that makes an array of primitive elements. -/
def arrayCode? : Primitive → Option UInt8
  | .boolean => some 4
  | .char => some 5
  | .float => some 6
  | .double => some 7
  | .byte => some 8
  | .short => some 9
  | .int => some 10
  | .long => some 11
  | .void => none

end Primitive

/-- A type without its array dimensions. Classes go by internal name, with slashes. -/
inductive BaseType where
  | null
  | primitive (p : Primitive)
  | class (name : String)
deriving DecidableEq, Hashable, Repr, Inhabited

/-- A type: a base and the number of array dimensions over it. -/
structure JavaType where
  base : BaseType
  dims : Nat
deriving DecidableEq, Hashable, Repr, Inhabited

/-- Internal name of the root of the class hierarchy. -/
def objectClass : String := "java/lang/Object"

/-- Internal name of the class of strings. -/
def stringClass : String := "java/lang/String"

/-- The dotted form of an internal name. -/
def sourceName (internal : String) : String :=
  internal.map fun c => if c == '/' then '.' else c

/-- The internal form of a dotted name. -/
def internalName (source : String) : String :=
  source.map fun c => if c == '.' then '/' else c

/-- The part of an internal name after the last slash. -/
def simpleName (internal : String) : String :=
  String.ofList (internal.toList.reverse.takeWhile (· != '/')).reverse

/-- The part of an internal name before the last slash. -/
def packageName? (internal : String) : Option String :=
  match internal.toList.reverse.dropWhile (· != '/') with
  | [] => none
  | _ :: before => some (String.ofList before.reverse)

namespace JavaType

def prim (p : Primitive) : JavaType := ⟨.primitive p, 0⟩
def ofClass (name : String) : JavaType := ⟨.class name, 0⟩

def void : JavaType := prim .void
def null : JavaType := ⟨.null, 0⟩
def boolean : JavaType := prim .boolean
def byte : JavaType := prim .byte
def char : JavaType := prim .char
def short : JavaType := prim .short
def int : JavaType := prim .int
def long : JavaType := prim .long
def float : JavaType := prim .float
def double : JavaType := prim .double
def object : JavaType := ofClass objectClass
def string : JavaType := ofClass stringClass

/-- Adds array dimensions. -/
def arrayOf (t : JavaType) (dims : Nat) : JavaType := { t with dims := t.dims + dims }

/-- The element type of an array. -/
def element? (t : JavaType) : Option JavaType :=
  match t.dims with
  | 0 => none
  | d + 1 => some { t with dims := d }

@[simp]
theorem element?_arrayOf_one (t : JavaType) : (t.arrayOf 1).element? = some t := rfl

/-- The primitive that a type without dimensions is. -/
def primitive? (t : JavaType) : Option Primitive :=
  match t.base, t.dims with
  | .primitive p, 0 => some p
  | _, _ => none

/-- The class that a type without dimensions is. -/
def className? (t : JavaType) : Option String :=
  match t.base, t.dims with
  | .class name, 0 => some name
  | _, _ => none

def isArray (t : JavaType) : Bool := 0 < t.dims
def isVoid (t : JavaType) : Bool := t.primitive? == some .void
def isNull (t : JavaType) : Bool := t.dims == 0 && t.base == .null
def isBoolean (t : JavaType) : Bool := t.primitive? == some .boolean

/-- Arrays, classes and `null`. -/
def isReference (t : JavaType) : Bool :=
  t.isArray || match t.base with
    | .primitive _ => false
    | _ => true

def isClass (t : JavaType) (name : String) : Bool := t.className? == some name
def isString (t : JavaType) : Bool := t.isClass stringClass
def isObject (t : JavaType) : Bool := t.isClass objectClass

/-- The primitives with arithmetic. -/
def isNumeric (t : JavaType) : Bool :=
  match t.primitive? with
  | some .void | some .boolean | none => false
  | some _ => true

/-- `byte`, `char`, `short` and `int`. -/
def isIntFamily (t : JavaType) : Bool :=
  match t.primitive? with
  | some .byte | some .char | some .short | some .int => true
  | _ => false

/-- Types whose values take two words. -/
def isWide (t : JavaType) : Bool :=
  match t.primitive? with
  | some .long | some .double => true
  | _ => false

/-- Words a value takes in local variables and on the operand stack. -/
def slots (t : JavaType) : Nat :=
  if t.isVoid then 0 else if t.isWide then 2 else 1

/-- The type as it is written in messages. -/
def text (t : JavaType) : String :=
  let base := match t.base with
    | .null => "null"
    | .primitive p => p.keyword
    | .class name => sourceName name
  base ++ String.join (List.replicate t.dims "[]")

end JavaType

/-- The class that boxes a primitive and its method that gives the value back. -/
def Primitive.wrapper? : Primitive → Option (String × String)
  | .boolean => some ("java/lang/Boolean", "booleanValue")
  | .byte => some ("java/lang/Byte", "byteValue")
  | .char => some ("java/lang/Character", "charValue")
  | .short => some ("java/lang/Short", "shortValue")
  | .int => some ("java/lang/Integer", "intValue")
  | .long => some ("java/lang/Long", "longValue")
  | .float => some ("java/lang/Float", "floatValue")
  | .double => some ("java/lang/Double", "doubleValue")
  | .void => none

/-- The type a value has once boxed: primitives become their wrapper class, `void` becomes
`Object`, and references stay. -/
def JavaType.boxed (t : JavaType) : JavaType :=
  match t.primitive? with
  | none => t
  | some p => match p.wrapper? with
    | some (name, _) => ofClass name
    | none => object

end JavaFragment
