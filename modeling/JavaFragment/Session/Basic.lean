import JavaFragment.Emit.Statement
import JavaFragment.Syntax.Grammar
import JavaFragment.Typing.Check
/-!
Sessions, in which fragments are compiled one after another for one class. Statements and expressions
go into an open buffer, and what they declare stays visible. A fragment that is refused leaves behind
what it declared and emitted before the fault.
-/
namespace JavaFragment

/-- How fragments are compiled. -/
structure Options where
  /-- Whether trees are checked and simplified before code is emitted. -/
  typeCheck : Bool
  /-- Packages whose classes go by their simple name. -/
  imports : List String
  /-- Whether a void method whose end can be reached is given a return. -/
  appendReturn : Bool
deriving Repr

instance : Inhabited Options := ⟨⟨true, ["java.lang"], true⟩⟩

/-- The state of a session. -/
structure Session where
  table : ClassTable
  thisClass : String
  options : Options
  pool : ConstantPool
  /-- The open buffer. -/
  code : CodeBuffer
  scope : Scope
  locals : Locals
  bindings : Bindings
  /-- Whether the method around the fragments is static. -/
  isStatic : Bool
  /-- The accessors of each class. -/
  accessors : List (String × AccessorTable)
deriving Inhabited

/-- Steps of a session, which may be refused. -/
abbrev SessionM := EStateM CompileError Session

namespace Session

variable {α : Type}

/-- A session for a class. -/
def start (table : ClassTable) (thisClass : String) (options : Options) (pool : ConstantPool) :
    Session :=
  ⟨table, thisClass, options, pool, .empty, .empty, .empty, .empty, false, []⟩

/-- The names that fragments see. -/
def view (s : Session) : Viewpoint := .ofClass s.table s.thisClass s.options.imports

/-- The surroundings of a fragment that is put into the open buffer. -/
def context (s : Session) : TypingContext :=
  ⟨s.view, s.bindings, s.isStatic, s.bindings.resultCastType, s.locals.types⟩

/-- The accessors that a class has been given. -/
def syntheticMethods (s : Session) (owner : String) : Option (List SyntheticMethod) :=
  if s.table.contains owner then some ((s.accessors.lookup owner).getD .empty).methods else none

/-- A rule that may refuse. -/
def ofExcept : Except CompileError α → SessionM α
  | .ok a => pure a
  | .error e => throw e

instance : MonadLift (Except CompileError) SessionM := ⟨ofExcept⟩

/-- Reads a source text. What was declared before a fault stays declared. -/
def read (reader : Reader α) (source : String) : SessionM α := do
  let s ← get
  let reading := readSource reader source s.scope s.locals.count
  set { s with scope := reading.scope, locals := s.locals.extend reading.next }
  match reading.result with
  | .ok tree => return tree
  | .error e => throw (.ofSyntax e)

/-- Emits code into a buffer, which is given back. -/
def emitInto (buffer : CodeBuffer) (x : Emit α) (s : Session) :
    Except CompileError α × CodeBuffer × Session :=
  let finish (e : EmitState) : Session :=
    { s with
      pool := e.pool
      locals := { s.locals with slots := e.slots }
      accessors := e.accessors }
  match x.run ⟨buffer, s.pool, s.locals.slots, s.accessors, #[]⟩ with
  | .ok a e => (.ok a, e.code, finish e)
  | .error fault e => (.error fault, e.code, finish e)

/-- Emits code into the open buffer. -/
def emit (x : Emit α) : SessionM α := fun s =>
  let (result, code, s) := emitInto s.code x { s with code := .empty }
  let s := { s with code := code }
  match result with
  | .ok a => .ok a s
  | .error e => .error e s

/-- Emits code into a buffer of its own. -/
def emitBody (locals : UInt16) (x : Emit Unit) : SessionM MethodCode := fun s =>
  let (result, code, s) := emitInto (.withLocals locals) x s
  match result, code.finish with
  | .ok (), .ok body => .ok body s
  | .ok (), .error fault => .error (.buffer fault) s
  | .error e, _ => .error e s

/-- Checks a tree if the options ask for it. -/
def checked {β : Type} (check : α → Checked α β) (tree : α) : SessionM α := do
  if (← get).options.typeCheck then
    let c := check tree
    let _ ← c.outcome
    return c.tree
  else return tree

/-- Compiles statements into the open buffer. -/
def compileStatements (source : String) : SessionM Unit := do
  let body ← read readStatements source
  let ctx := (← get).context
  let body ← checked ctx.checkBlock body
  emit do let _ ← compileBlock ctx body .top

/-- Compiles an expression into the open buffer, where its value stays on the stack. -/
def compileExpression (source : String) : SessionM JavaType := do
  let e ← read readExpression source
  let ctx := (← get).context
  let e ← checked ctx.check e
  emit (ctx.compile e).value

/-- Takes the code out of the open buffer, which keeps its locals. -/
def finishCode : SessionM MethodCode := do
  let buffer := (← get).code
  modify fun s => { s with code := buffer.cleared }
  match buffer.finish with
  | .ok body => return body
  | .error fault => throw (.buffer fault)

/-! What the surroundings record. -/

/-- Declares a variable and gives its slot. -/
def recordVariable (type : JavaType) (name : String) : SessionM UInt16 := do
  let slot ← emit (Emit.reserve (.variable (← get).locals.count) type)
  modify fun s =>
    let (v, locals) := s.locals.bind name type slot
    { s with scope := s.scope.declare v, locals := locals }
  return slot

/-- Records the result of the method around. Its variable is declared if it is asked for. -/
def recordResult (type : JavaType) (withVariable : Bool) : SessionM (Option UInt16) := do
  modify fun s => { s with bindings := { s.bindings with result := some type } }
  if withVariable && !type.isVoid then some <$> recordVariable type resultName else return none

/-- Records the parameters of the method around, from slot zero on, and gives the first slot after
them. -/
def recordParams (types : List JavaType) (isStatic : Bool) : SessionM UInt16 := do
  modify fun s => { s with isStatic := isStatic }
  if !isStatic then
    modify fun s =>
      let receiver : JavaType := .ofClass s.thisClass
      let (v, locals) := s.locals.bind "$0" receiver 0
      { s with
        scope := s.scope.declare v
        locals := locals
        code := s.code.note [⟨.variable v.number, receiver, 0⟩] }
  let s ← get
  let declared := declareParams 1 (if isStatic then 0 else 1) s.scope s.locals types
  let s := { s with scope := declared.scope, locals := declared.locals }
  set s
  match declared.next with
  | none => throw (.fatal .tooManyParams)
  | some next =>
    let params : ParamBinding := ⟨declared.vars, types, s.thisClass, isStatic⟩
    set { s with
      code := (s.code.ensureLocals next).note declared.uses
      bindings := { s.bindings with params := some params } }
    return next

/-- Records parameters and result as a method descriptor gives them. -/
def recordSignature (descriptor : String) (isStatic : Bool) : SessionM UInt16 := do
  match MethodType.ofDescriptor? descriptor with
  | none => throw (.fatal (.signature descriptor))
  | some signature =>
    let next ← recordParams signature.params isStatic
    let _ ← recordResult signature.result false
    return next

/-- Records the type whose class `$type` is. -/
def recordType (type : JavaType) : SessionM Unit :=
  modify fun s => { s with bindings := { s.bindings with recordedType := some type } }

/-- Records what `$proceed` calls. -/
def recordProceed (target : Option String) (method : String) : SessionM Unit := do
  let target ← match target with
    | some source => some <$> read readExpression source
    | none => pure none
  modify fun s => { s with bindings := { s.bindings with proceed := some ⟨target, method⟩ } }

/-- Records the field with a control-flow counter. -/
def recordCounter (name : String) (field : CounterField) : SessionM Unit :=
  modify fun s =>
    { s with bindings := { s.bindings with counters := (name, field) :: s.bindings.counters } }

/-- Reserves locals of the open buffer. -/
def ensureLocals (locals : UInt16) : SessionM Unit :=
  modify fun s => { s with code := s.code.ensureLocals locals }

end Session

end JavaFragment
