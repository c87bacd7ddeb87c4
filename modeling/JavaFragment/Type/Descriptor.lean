import JavaFragment.Type.Basic
/-!
Descriptors: the text form of types and method signatures in class files. Reading works on
characters and hands back what follows the type.
-/
namespace JavaFragment

namespace JavaType

/-- The descriptor of a type. The type of `null` has that of `Object`. -/
def descriptor (t : JavaType) : String :=
  let base := match t.base with
    | .primitive p => p.letter.toString
    | .class name => "L" ++ name ++ ";"
    | .null => "L" ++ objectClass ++ ";"
  "".pushn '[' t.dims ++ base

/-- The name of a type in casts, class literals and array creation: the internal name of a class,
the descriptor of an array. -/
def referenceName (t : JavaType) : String :=
  if t.isArray then t.descriptor
  else match t.base with
    | .class name => name
    | _ => objectClass

/-- Reads one type, giving what follows it. A class name extends to the first semicolon. -/
def read : List Char → Option (JavaType × List Char)
  | [] => none
  | '[' :: rest => (read rest).map fun (t, rest) => (t.arrayOf 1, rest)
  | 'L' :: rest =>
    match rest.dropWhile (· != ';') with
    | [] => none
    | _ :: after => some (ofClass (String.ofList (rest.takeWhile (· != ';'))), after)
  | c :: rest => (Primitive.ofLetter? c).map fun p => (prim p, rest)

/-- Reads a text that is one type and nothing else. -/
def ofDescriptor? (text : String) : Option JavaType :=
  match read text.toList with
  | some (t, []) => some t
  | _ => none

end JavaType

/-- Parameter types and result type of a method. -/
structure MethodType where
  params : List JavaType
  result : JavaType
deriving DecidableEq, Repr, Inhabited

namespace MethodType

def descriptor (m : MethodType) : String :=
  "(" ++ String.join (m.params.map JavaType.descriptor) ++ ")" ++ m.result.descriptor

/-- Words that the arguments take, without the receiver. -/
def paramSlots (m : MethodType) : Nat := m.params.foldr (fun t words => t.slots + words) 0

/-- Reads types while more than `close` characters are left. The fuel bounds their number. -/
def readParams (close : Nat) : Nat → List Char → Option (List JavaType)
  | 0, _ => some []
  | fuel + 1, chars =>
    if chars.length ≤ close then some []
    else do
      let (t, rest) ← JavaType.read chars
      let others ← readParams close fuel rest
      return t :: others

/-- Reads a method descriptor. The parameters end at the first closing parenthesis, which a class
name may also run across. -/
def ofDescriptor? (text : String) : Option MethodType :=
  match text.toList with
  | '(' :: chars =>
    match chars.dropWhile (· != ')') with
    | [] => none
    | _ :: after => do
      let params ← readParams (after.length + 1) chars.length chars
      match JavaType.read after with
      | some (result, []) => some ⟨params, result⟩
      | _ => none
  | _ => none

end MethodType

end JavaFragment
