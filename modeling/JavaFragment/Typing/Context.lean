import JavaFragment.Resolve.Overload
import JavaFragment.Syntax.Scope
import JavaFragment.Typing.Bindings
import JavaFragment.Typing.Constant
/-!
The typing rules for single phrases. Each rule is given what the parts of a phrase stand for and says
what the phrase stands for.
-/
namespace JavaFragment

/-- What an expression stands for. Chains of names may stand for a class or a package. -/
inductive Denotation where
  | value (type : JavaType)
  | class (name : String)
  | package (name : String)
deriving DecidableEq, Repr, Inhabited

/-- The type of an expression that must stand for a value. -/
def Denotation.valueOf (e : Expr) : Denotation → Except CompileError JavaType
  | .value type => .ok type
  | .class _ | .package _ => .error (.type (.notAValue e))

/-- What an access to a field reaches. -/
inductive FieldTarget where
  | arrayLength
  | ofClass (field : Declared FieldModel)
  | ofObject (field : Declared FieldModel)
deriving Repr, Inhabited

def FieldTarget.type : FieldTarget → Except CompileError JavaType
  | .arrayLength => .ok .int
  | .ofClass field | .ofObject field => field.member.type

/-- The constant that an access to a field gives. -/
def FieldTarget.constant? : FieldTarget → Option Const
  | .ofClass field => do
    if field.member.access.isFinal then
      let type ← field.member.type.toOption
      return .ofField (← field.member.constant) type
    else none
  | .arrayLength | .ofObject _ => none

/-- What a method is called on. -/
inductive Receiver where
  | nothing
  | thisObject
  | target
deriving DecidableEq, Repr, Inhabited

/-- What a call reaches, and the class that the call names. -/
structure CallTarget where
  receiver : Receiver
  selected : SelectedMethod
  kind : InvokeKind
  owner : String
deriving Inhabited

/-- The surroundings in which expressions have types. -/
structure TypingContext where
  view : Viewpoint
  bindings : Bindings
  isStatic : Bool
  /-- The result of the method around. -/
  result : JavaType
  /-- Types of variables that are known beforehand. -/
  types : VariableTypes
deriving Inhabited

def throwableClass : String := "java/lang/Throwable"

namespace TypingContext

variable (ctx : TypingContext)

/-- The type of a variable, which is what was written unless it is known beforehand. -/
def variableType (v : Variable) : Except CompileError JavaType :=
  match (ctx.types[v.number]?).join with
  | some type => .ok type
  | none => do
    let type ← ctx.view.resolveType v.written
    if type.isVoid then .error (.type (.voidVariable v.name)) else return type

def thisType : Except CompileError JavaType :=
  if ctx.isStatic then .error (.type .thisInStatic) else .ok (.ofClass ctx.view.thisClass)

def superName : Except CompileError String := do
  let c ← ctx.view.getClass ctx.view.thisClass
  match c.superName with
  | some name => .ok name
  | none => .error (.type (.noSuperclass ctx.view.thisClass))

def superType : Except CompileError JavaType := do
  let _ ← ctx.thisType
  return .ofClass (← ctx.superName)

/-! Fields. -/

/-- The field that a bare name means: one of this class, else a static one of a class around it. -/
def nameTarget (name : String) : Except CompileError (Option FieldTarget) :=
  if (PseudoName.ofName? name).isSome then .ok none
  else match ctx.view.table.findField ctx.view.thisClass name with
    | some field =>
      if field.member.isStatic then .ok (some (.ofClass field))
      else if ctx.isStatic then .error (.type (.fieldInStatic name))
      else .ok (some (.ofObject field))
    | none =>
      let outer := (ctx.view.table.enclosing ctx.view.thisClass).tail
      let static := outer.findSome? fun c =>
        (ctx.view.table.findField c name).filter fun field => field.member.isStatic
      .ok (static.map .ofClass)

/-- The field that a name means after a target. None if the whole is a class or package. -/
def memberTarget (target : Expr) (name : String) :
    Denotation → Except CompileError (Option FieldTarget)
  | .value type =>
    if type.isArray then
      if name = "length" then .ok (some .arrayLength)
      else .error (.noSuchField (Expr.field target name).text)
    else match type.className? with
      | none => .error (.type (.noFields target type))
      | some owner => do
        let field ← ctx.view.lookupField owner name
        return some (if field.member.isStatic then .ofClass field else .ofObject field)
  | .class owner =>
    match ctx.view.table.findField owner name with
    | some field =>
      if field.member.isStatic then .ok (some (.ofClass field))
      else .error (.type (.fieldInStatic (Expr.field target name).text))
    | none =>
      if ctx.view.table.contains (owner ++ "$" ++ name) then .ok none
      else .error (.noSuchField (Expr.field target name).text)
  | .package _ => .ok none

/-- The class of a dotted name, else the package of that name. -/
def classOrPackage (name : String) : Denotation :=
  match ctx.view.findClass name with
  | some c => .class c
  | none => .package name

/-- What a bare name stands for: a pseudo-variable, a field, a class or a package. -/
def denoteName (name : String) : Except CompileError Denotation :=
  match PseudoName.ofName? name with
  | some pseudo => .value <$> Bindings.pseudoType pseudo
  | none => do
    match ← ctx.nameTarget name with
    | some field => return .value (← field.type)
    | none => return ctx.classOrPackage name

/-- What a name stands for after a target. -/
def denoteMember (target : Expr) (name : String) (d : Denotation) :
    Except CompileError Denotation := do
  match ← ctx.memberTarget target name d with
  | some field => return .value (← field.type)
  | none => match d with
    | .value _ => .error (.noSuchField (Expr.field target name).text)
    | .class owner => return .class (owner ++ "$" ++ name)
    | .package package => return ctx.classOrPackage (package ++ "." ++ name)

/-- The type of a field that is assigned to. -/
def fieldLocation (e : Expr) : Option FieldTarget → Except CompileError JavaType
  | some (.ofClass field) | some (.ofObject field) => field.member.type
  | some .arrayLength | none => .error (.type (.cannotAssign e))

/-- The type of the place that a bare name is assigned to. -/
def nameLocation (name : String) : Except CompileError JavaType := do
  fieldLocation (.name name) (← ctx.nameTarget name)

/-! Calls. -/

def invokeKind (owner : ClassModel) (selected : SelectedMethod) : InvokeKind :=
  if selected.method.isStatic then .static
  else if selected.method.isPrivate && selected.owner.name == ctx.view.thisClass then .special
  else if owner.isInterface then .interface
  else .virtual

/-- A call of a static method in one of the classes around. -/
def outerCall (name : String) (args : List JavaType) (otherwise : CompileError) :
    List String → Except CompileError CallTarget
  | [] => .error otherwise
  | owner :: rest =>
    match ctx.view.lookupMethod owner name args with
    | .ok selected =>
      if selected.method.isStatic then .ok ⟨.nothing, selected, .static, owner⟩
      else outerCall name args otherwise rest
    | .error _ => do
      let _ ← ctx.view.getClass owner
      outerCall name args otherwise rest

/-- A call without target: of a method of this class, else of a static one of a class around it. -/
def bareCall (name : String) (args : List JavaType) : Except CompileError CallTarget :=
  let owner := ctx.view.thisClass
  match ctx.view.lookupMethod owner name args with
  | .error e => ctx.outerCall name args e (ctx.view.table.enclosing owner).tail
  | .ok selected => do
    let kind := ctx.invokeKind (← ctx.view.getClass owner) selected
    if kind = .static then .ok ⟨.nothing, selected, kind, owner⟩
    else if ctx.isStatic then .error (.type (.methodInStatic name))
    else .ok ⟨.thisObject, selected, kind, owner⟩

/-- A call of another constructor on the object that is being constructed. -/
def constructorCall (owner : String) (args : List JavaType) : Except CompileError CallTarget := do
  return ⟨.thisObject, ← ctx.view.lookupMethod owner constructorName args, .special, owner⟩

/-- A call of a method as the superclass has it. -/
def superCall (name : String) (args : List JavaType) : Except CompileError CallTarget := do
  let owner ← ctx.superName
  let selected ← ctx.view.lookupMethod owner name args
  if selected.method.isStatic then return ⟨.nothing, selected, .static, owner⟩
  else return ⟨.thisObject, selected, .special, owner⟩

/-- A call on what a target stands for. Arrays have the methods of `Object`. -/
def memberCall (target : Expr) (name : String) (args : List JavaType) :
    Denotation → Except CompileError CallTarget
  | .value type => do
    let (searched, owner) ←
      if type.isArray then .ok (objectClass, type.referenceName)
      else match type.className? with
        | some c => .ok (c, c)
        | none => .error (CompileError.type (.noMethods name target type))
    let selected ← ctx.view.lookupMethod searched name args
    let kind := ctx.invokeKind (← ctx.view.getClass searched) selected
    return ⟨if kind = .static then .nothing else .target, selected, kind, owner⟩
  | .class owner => do
    let selected ← ctx.view.lookupMethod owner name args
    if selected.method.isStatic then return ⟨.nothing, selected, .static, owner⟩
    else .error (.type (.methodInStatic name))
  | .package package => .error (.noSuchClass package)

/-- What a call on a target reaches. -/
def callTarget (target : Expr) (d : Except CompileError Denotation) (name : String)
    (args : List JavaType) : Except CompileError CallTarget :=
  match target with
  | .thisRef =>
    if name = constructorName then do
      let _ ← ctx.thisType
      ctx.constructorCall ctx.view.thisClass args
    else do ctx.memberCall target name args (← d)
  | .superRef => do
    let _ ← ctx.thisType
    if name = constructorName then ctx.constructorCall (← ctx.superName) args
    else ctx.superCall name args
  | _ => do ctx.memberCall target name args (← d)

/-- The class that a creation makes an object of. -/
def createdClass (type : JavaType) : Except CompileError ClassModel := do
  let c ← ctx.view.getClass (type.className?.getD "")
  if c.isInterface || c.isAbstract then .error (.type (.abstractClass type)) else return c

/-! Operators. -/

def isIntegral (type : JavaType) : Bool :=
  type.promoted? == some .int || type.promoted? == some .long

/-- The type of a unary operator. -/
def unaryType (op : UnaryOp) (operand : JavaType) : Option JavaType :=
  if op = .bitNot && !isIntegral operand then none else operand.promoted?

/-- The type of a binary operator. -/
def binaryType (op : BinaryOp) (l r : JavaType) : Option JavaType :=
  if op = .add && (l.isString || r.isString) then
    if l.isVoid || r.isVoid then none else some .string
  else if op.isBitwise && l.isBoolean && r.isBoolean then some .boolean
  else if (op.isShift || op.isBitwise) && !(isIntegral l && isIntegral r) then none
  else if op.isShift then l.promoted?
  else l.promotedWith? r

/-- Whether values of two types can be compared. -/
def isComparable (op : CompareOp) (l r : JavaType) : Bool :=
  l.isNumeric && r.isNumeric || (op = .eq || op = .ne) &&
    (l.isBoolean && r.isBoolean || l.isReference && r.isReference &&
      (ctx.view.isAssignable l r || ctx.view.isAssignable r l))

/-- The type of a choice between values of two types. -/
def branchType (a b : JavaType) : Option JavaType :=
  if a = b then some a
  else if a.isNumeric && b.isNumeric then a.promotedWith? b
  else if !(a.isReference && b.isReference) then none
  else if a.isNull then some b
  else if b.isNull || ctx.view.isAssignable b a then some a
  else if ctx.view.isAssignable a b then some b
  else some .object

/-- Whether a cast leads from one type to another. -/
def isCastable (source target : JavaType) : Bool :=
  source.isReference && target.isReference || source.isNumeric && target.isNumeric ||
    source.isBoolean && target.isBoolean

/-- The type of a cast. -/
def castType (e : Expr) (written : WrittenType) (source : JavaType) :
    Except CompileError JavaType :=
  if written = resultCast then .ok ctx.bindings.resultCastType
  else if written = boxCast then .ok source.boxed
  else do
    let target ← ctx.view.resolveType written
    if isCastable source target then return target
    else .error (.type (.badCast source target e))

/-- The type of a test whether an object is of a class. -/
def instanceType (e : Expr) (written : WrittenType) (source : JavaType) :
    Except CompileError JavaType := do
  let target ← ctx.view.resolveType written
  if source.isReference && target.isReference then return .boolean
  else .error (.type (.badInstanceOf e))

/-- Whether a compound assignment fits its target. -/
def compoundFits (op : BinaryOp) (target value : JavaType) : Bool :=
  op = .add && target.isString ||
    (target.isNumeric || target.isBoolean) && match binaryType op target value with
      | some result => result.isNumeric || result.isBoolean
      | none => false

/-- The type of an access to an array. -/
def indexType (e : Expr) (array position : JavaType) : Except CompileError JavaType :=
  if position.promoted? != some .int then .error (.type (.indexType position e))
  else match array.element? with
    | some element => .ok element
    | none => .error (.type (.indexedType array e))

/-- The type of the items of an array initializer. -/
def itemType (type : JavaType) : Except CompileError JavaType :=
  match type.element? with
  | some element => .ok element
  | none => .error (.type (.initializerFor type))

/-- Whether a constant is assigned to a smaller type that holds it. -/
def narrows (constant : Option Const) (source target : JavaType) : Bool :=
  match constant, target.primitive? with
  | some (.int value _), some p =>
    (p = .byte || p = .short || p = .char) && source.isIntFamily &&
      (BaseType.primitive p).holdsConstant value.toInt
  | _, _ => false

end TypingContext

end JavaFragment
