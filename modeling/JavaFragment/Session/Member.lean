import JavaFragment.Session.Basic
/-!
Compilation of member declarations. The code of a member goes into a buffer of its own.
-/
namespace JavaFragment

/-- A compiled field. A static final field holds a constant initial value itself; any other initial
value is stored by code for the initializer of the class or object. -/
structure CompiledField where
  name : String
  descriptor : String
  access : AccessFlags
  constant : Option ConstantValue
  initializer : Option MethodCode
deriving Inhabited

/-- A compiled method. Abstract and native methods have no code. -/
structure CompiledMethod where
  name : String
  descriptor : String
  access : AccessFlags
  exceptions : List String
  code : Option MethodCode
deriving Inhabited

inductive CompiledMember where
  | field (compiled : CompiledField)
  | method (compiled : CompiledMethod)
deriving Inhabited

namespace Emit

/-- Stores the initial value of a field of the class that is compiled for. -/
def storeInitial (ctx : TypingContext) (name : String) (type : JavaType) (init : Expr) :
    Emit Unit := do
  if !ctx.isStatic then loadThis
  (ctx.compile init).valueAs type
  let index ← ConstantPool.field ctx.view.thisClass name type.descriptor
  change (·.appendField (if ctx.isStatic then .putStatic else .putField) index type)

/-- Calls the constructor of the superclass that has no parameters. -/
def superConstructor (ctx : TypingContext) : Emit Unit := do
  let owner ← ctx.superName
  let selected ← ctx.view.lookupMethod owner constructorName []
  loadThis
  invoke .special owner constructorName selected.method.descriptor

end Emit

/-- Whether the body of a constructor starts with a call of another constructor. -/
def callsConstructor : List Stmt → Bool
  | .expr (.callOn .thisRef name _) :: _ | .expr (.callOn .superRef name _) :: _ =>
    name == constructorName
  | _ => false

namespace Session

/-- Compiles a field. -/
def compileField (decl : FieldDecl) : SessionM CompiledField := do
  let s ← get
  let type ← s.view.resolveType decl.type
  let access := decl.modifiers.forField
  let field : CompiledField := ⟨decl.name, type.descriptor, access, none, none⟩
  match decl.init with
  | none => return field
  | some init =>
    let ctx := { s.context with isStatic := access.isStatic, result := .void }
    let init ← checked (ctx.checkInitial type) init
    let constant := if access.isStatic && access.isFinal then ctx.constant init else none
    match constant with
    | some c => return { field with constant := some c.toFieldValue }
    | none =>
      let code ← emitBody (if access.isStatic then 0 else 1) (Emit.storeInitial ctx decl.name type init)
      return { field with initializer := some code }

/-- Gives parameters their types and slots, and gives the first slot after them. -/
def placeParams (slot : UInt16) : List (Variable × JavaType) → SessionM UInt16
  | [] => return slot
  | (v, type) :: rest => do
    modify fun s => { s with locals := (s.locals.setType v type).setSlot v slot }
    placeParams (slot + type.slots.toUInt16) rest

/-- Emits the body of a method. The end of a void method is given a return if the options ask for
it; no other method may end without one. -/
def emitMethod (ctx : TypingContext) (name : String) (body : List Stmt) (appendReturn : Bool) :
    Emit Unit := do
  if name = constructorName && !callsConstructor body then Emit.superConstructor ctx
  let o ← compileBlock ctx body .top
  if o.completes then
    if !ctx.result.isVoid then throw (.type (.missingReturn name))
    if appendReturn then Emit.emit (.returning ctx.result)

/-- Compiles the body of a method, which may call the method itself. -/
def compileBody (decl : MethodDecl) (body : List Stmt) (self : MethodModel) (params : List JavaType)
    (result : JavaType) : SessionM MethodCode := do
  let isStatic := self.isStatic
  let locals ← placeParams (if isStatic then 0 else 1) (decl.params.zip params)
  let s ← get
  let view := { s.view with inProgress := some self }
  let ctx : TypingContext := ⟨view, s.bindings, isStatic, result, s.locals.types⟩
  let body ← checked ctx.checkBlock body
  emitBody locals (emitMethod ctx decl.name body s.options.appendReturn)

/-- Compiles a method. -/
def compileMethod (decl : MethodDecl) : SessionM CompiledMethod := do
  let view := (← get).view
  let result ← view.resolveType decl.result
  let params ← decl.params.mapM fun p => (view.resolveType p.written : SessionM JavaType)
  let access := decl.modifiers.forMethod
  let exceptions ← decl.throws.mapM fun t => (view.resolveType t : SessionM JavaType)
  let descriptor := MethodType.descriptor ⟨params, result⟩
  let bodiless := access.isAbstract || access.contains .nativeFlag
  let code ← match decl.body, bodiless with
    | none, true => pure none
    | none, false => throw (.type (.missingBody decl.name))
    | some _, true => throw (.type (.unexpectedBody decl.name))
    | some body, false =>
      some <$> compileBody decl body ⟨decl.name, descriptor, access⟩ params result
  return ⟨decl.name, descriptor, access, exceptions.map JavaType.referenceName, code⟩

/-- Compiles a member declaration. -/
def compileMember (source : String) : SessionM CompiledMember := do
  match ← read readMember source with
  | .field decl => CompiledMember.field <$> compileField decl
  | .method decl => CompiledMember.method <$> compileMethod decl

end Session

end JavaFragment
