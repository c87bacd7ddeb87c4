import JavaFragment.Resolve.Viewpoint
/-!
Choice among methods of one name. Each applicable method has a distance from the arguments, the
number of arguments that do not match exactly; the first of the nearest is chosen.
-/
namespace JavaFragment

/-- A chosen method. -/
structure SelectedMethod where
  owner : ClassModel
  method : MethodModel
  signature : MethodType
  distance : Nat
deriving Repr, Inhabited

namespace Viewpoint

/-- Distance of an argument from a parameter; none if it cannot be passed. Of the primitive
widenings only those to `int` count. -/
def argumentDistance (v : Viewpoint) (param arg : JavaType) : Option Nat :=
  if param = arg then some 0
  else if arg.isNull then if param.isReference then some 1 else none
  else if param.isReference && arg.isReference then
    if param.isObject then some 1
    else if param.dims != arg.dims then none
    else match arg.base, param.base with
      | .class a, .class p => if v.table.isSubclass a p then some 1 else none
      | _, _ => none
  else if param == .int && arg.isIntFamily then some 1
  else none

/-- Distance of arguments from parameters; none if they cannot be passed. -/
def signatureDistance (v : Viewpoint) : List JavaType → List JavaType → Option Nat
  | [], [] => some 0
  | param :: params, arg :: args => do
    let first ← v.argumentDistance param arg
    let rest ← v.signatureDistance params args
    return first + rest
  | _, _ => none

/-- The methods of a name in the order in which they are considered. -/
def candidates (v : Viewpoint) (c : ClassModel) (name : String) : List (Declared MethodModel) :=
  let current := if c.name = v.thisClass then v.inProgress.toList else []
  (current.filter fun m => m.name == name).map (Declared.mk c) ++ v.table.methodsOf c name

/-- A method as a choice for arguments, if it is applicable. -/
def applicable (v : Viewpoint) (args : List JavaType) (m : Declared MethodModel) :
    Option SelectedMethod := do
  let signature ← MethodType.ofDescriptor? m.member.descriptor
  let distance ← v.signatureDistance signature.params args
  return ⟨m.owner, m.member, signature, distance⟩

end Viewpoint

/-- The first of the nearest methods. -/
def SelectedMethod.nearest : List SelectedMethod → Option SelectedMethod
  | [] => none
  | m :: rest =>
    match nearest rest with
    | some other => if other.distance < m.distance then some other else some m
    | none => some m

/-- The method that a call on a class selects. -/
def Viewpoint.lookupMethod (v : Viewpoint) (owner name : String) (args : List JavaType) :
    Except CompileError SelectedMethod := do
  let c ← v.getClass owner
  match SelectedMethod.nearest ((v.candidates c name).filterMap (v.applicable args)) with
  | some found => .ok found
  | none => .error (.methodNotFound owner name args)

end JavaFragment
