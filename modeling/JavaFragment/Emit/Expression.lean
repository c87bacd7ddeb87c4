import JavaFragment.Emit.Location
/-!
The code of expressions. An expression can be compiled for its value, for a jump on its truth, for
its effect alone, or as a place to assign to; all ways are built together from those of its parts.
-/
namespace JavaFragment

/-- The ways in which code is made for an expression. -/
structure ExprCode where
  /-- Pushes the value and gives its type. -/
  value : Emit JavaType
  /-- Pushes the value, converted to a type. -/
  valueAs : JavaType → Emit Unit
  /-- Jumps if the truth of the expression is the given one, and gives the branches to be pointed
  to the target. -/
  jump : Bool → Emit (List Nat)
  /-- Leaves no value. -/
  effect : Emit Unit
  /-- Pushes the words that a place needs. -/
  location : Emit Location
  /-- The parts of a string that is built with `+`. -/
  summands : Emit (List (Emit JavaType))

namespace TypingContext

/-- The truth of an expression that is known beforehand. -/
def knownTruth (ctx : TypingContext) (e : Expr) : Option Bool :=
  match ctx.constant e with
  | some (.bool value) => some value
  | _ => none

end TypingContext

namespace ExprCode

variable (ctx : TypingContext)

/-- A jump that is taken always or never if the truth is known beforehand. -/
def decided (e : Expr) (jump : Bool → Emit (List Nat)) (wanted : Bool) : Emit (List Nat) := do
  match ctx.knownTruth e with
  | some truth => if truth = wanted then return [← Emit.goto] else return []
  | none => jump wanted

/-- Whether an expression is an integer literal other than a `long`. -/
def isIntLiteral : Expr → Bool
  | .int _ _ => true
  | _ => false

/-- The code of an expression that is mainly compiled for its value. -/
def ofValue (e : Expr) (value : Emit JavaType) : ExprCode where
  value := value
  valueAs target := do
    let source ← value
    -- An integer literal fits the smaller type that it is assigned to.
    if isIntLiteral e && target.isIntFamily then return () else Emit.coerce source target
  jump := decided ctx e fun wanted => do
    let type ← value
    if type.isBoolean then return [← Emit.branch (.ifZero (if wanted then .ne else .eq))]
    else throw (.type (.notBoolean e type))
  effect := do Emit.pop (← value)
  location := throw (.type (.notAssignable e))
  summands := return [value]

/-- Pushes a truth value by jumping on it. -/
def truthValue (jump : Bool → Emit (List Nat)) : Emit JavaType := do
  let depth ← Emit.depth
  let whenFalse ← jump false
  Emit.pushTruth true
  if whenFalse.isEmpty then return .boolean
  let done ← Emit.goto
  Emit.land whenFalse
  Emit.setDepth depth
  Emit.pushTruth false
  Emit.land [done]
  return .boolean

/-- The code of an expression that is mainly compiled for a jump. -/
def ofJump (e : Expr) (jump : Bool → Emit (List Nat)) : ExprCode :=
  let jump := decided ctx e jump
  { ofValue ctx e (truthValue jump) with jump := jump }

/-- The code of a place whose value can be read. -/
def ofLocation (e : Expr) (value : Emit JavaType) (location : Emit Location) : ExprCode :=
  { ofValue ctx e value with location := location }

/-- The code of an expression whose value need not be made. -/
def ofEffect (e : Expr) (run : Bool → Emit JavaType) : ExprCode :=
  { ofValue ctx e (run true) with effect := do let _ ← run false }

/-! Variables and fields. -/

def ofVariable (v : Variable) : ExprCode :=
  let value := do
    let type ← ctx.variableType v
    Emit.load type (← Emit.slotOf ctx v)
    return type
  let location := do
    let type ← ctx.variableType v
    return .local (← Emit.slotOf ctx v) type
  ofLocation ctx (.var v) value location

/-- Reads a field. The receiver is compiled only if it is needed. -/
def readField (receiver : Emit Unit) : FieldTarget → Emit JavaType
  | .arrayLength => do
    receiver
    Emit.emit .arrayLength
    return .int
  | .ofClass f => do
    let type ← f.member.type
    Emit.accessField ctx f type false
    return type
  | .ofObject f => do
    receiver
    let type ← f.member.type
    Emit.accessField ctx f type false
    return type

/-- The place that a field is. -/
def fieldLocation (e : Expr) (receiver : Emit Unit) : Option FieldTarget → Emit Location
  | some (.ofClass f) => return .field f (← f.member.type)
  | some (.ofObject f) => do
    receiver
    return .field f (← f.member.type)
  | some .arrayLength | none => throw (.type (.cannotAssign e))

/-- The code of an access to a field. -/
def ofField (e : Expr) (receiver : Emit Unit) : ExprCode :=
  let value := do
    match ← ctx.fieldTarget e with
    | some target => readField ctx receiver target
    | none => throw (.type (.unknownSymbol e))
  let location := do fieldLocation e receiver (← ctx.fieldTarget e)
  ofLocation ctx e value location

/-- Makes an array on the stack of given items. -/
def makeArray (type : JavaType) (items : List (Emit Unit)) (element : JavaType) : Emit Unit := do
  Emit.pushInt (Int32.ofNat items.length)
  Emit.newArray type
  Emit.storeItems 0 element items

/-- Pushes all parameters, boxed in an array. -/
def pushArgs : Emit JavaType := do
  let params ← ctx.bindings.getParams
  let items := (params.vars.zip params.types).map fun (v, type) => do
    Emit.load type (← Emit.slotOf ctx v)
    Emit.box type
  makeArray (JavaType.object.arrayOf 1) items .object
  return JavaType.object.arrayOf 1

/-- Pushes the classes of the parameters. -/
def pushSignature : Emit JavaType := do
  let params ← ctx.bindings.getParams
  let items := params.types.map fun type => do let _ ← Emit.classLiteral type
  let element := JavaType.ofClass "java/lang/Class"
  makeArray (element.arrayOf 1) items element
  return element.arrayOf 1

/-- Pushes the value of a pseudo-variable. -/
def pushPseudo : PseudoName → Emit JavaType
  | .args => pushArgs ctx
  | .signature => pushSignature ctx
  | .type => Emit.classLiteral ctx.bindings.typeOfType
  | .declaring =>
    let owner := match ctx.bindings.params with
      | some params => params.declaring
      | none => ctx.view.thisClass
    Emit.classLiteral (.ofClass owner)
  | .splice => throw (.type (.argumentsOnly "$$"))

/-- The code of a bare name. -/
def ofName (n : String) : ExprCode :=
  match PseudoName.ofName? n with
  | some pseudo =>
    ofLocation ctx (.name n) (pushPseudo ctx pseudo) (throw (.type (.cannotAssign (.name n))))
  | none => ofField ctx (.name n) Emit.loadThis

/-! Operators. -/

def ofUnary (op : UnaryOp) (operand : Expr) (code : ExprCode) : ExprCode :=
  let e := Expr.unary op operand
  ofValue ctx e do
    let type ← ctx.typeOf e
    Emit.coerce (← code.value) type
    Emit.unaryOperator op type
    return type

def ofBinary (op : BinaryOp) (left right : Expr) (l r : ExprCode) : ExprCode :=
  let e := Expr.binary op left right
  let operate := do
    let type ← ctx.typeOf e
    Emit.coerce (← l.value) type
    Emit.coerce (← r.value) (if op.isShift then .int else type)
    Emit.emit (← Emit.binaryInstruction op type)
    return type
  let summands := do
    if op = .add && (← ctx.typeOf e).isString then return (← l.summands) ++ [r.value]
    else return [operate]
  let value := do
    if (← ctx.typeOf e).isString then Emit.concat (← summands) else operate
  { ofValue ctx e value with summands := summands }

/-- Jumps on a comparison of numbers. -/
def compareNumbers (op effective : CompareOp) (promoted : JavaType) (right : Expr)
    (l r : ExprCode) : Emit Nat := do
  let isZero := match right with
    | .int v _ => v == 0
    | _ => false
  Emit.coerce (← l.value) promoted
  if promoted == .int && isZero then Emit.branch (.ifZero (Emit.relation effective))
  else
    Emit.coerce (← r.value) promoted
    match Emit.comparison op (Emit.numberKind promoted) with
    | none => Emit.branch (.ifInts (Emit.relation effective))
    | some c =>
      Emit.emit (.compare c)
      Emit.branch (.ifZero (Emit.relation effective))

/-- Jumps on whether two references are the same. -/
def compareReferences (same : Bool) (left right : Expr) (l r : ExprCode) : Emit Nat :=
  match left, right with
  | _, .nullRef => do
    let _ ← l.value
    Emit.branch (if same then .ifNull else .ifNonNull)
  | .nullRef, _ => do
    let _ ← r.value
    Emit.branch (if same then .ifNull else .ifNonNull)
  | _, _ => do
    let _ ← l.value
    let _ ← r.value
    Emit.branch (if same then .ifSame else .ifDistinct)

def ofCompare (op : CompareOp) (left right : Expr) (l r : ExprCode) : ExprCode :=
  ofJump ctx (.compare op left right) fun wanted => do
    let effective := if wanted then op else op.negate
    let a ← ctx.typeOf left
    let b ← ctx.typeOf right
    match a.promotedWith? b with
    | some promoted => return [← compareNumbers op effective promoted right l r]
    | none =>
      if effective ≠ .eq ∧ effective ≠ .ne then throw (.type (.comparisonOperator op a b))
      if a.isReference && b.isReference then
        return [← compareReferences (effective = .eq) left right l r]
      let _ ← l.value
      let _ ← r.value
      return [← Emit.branch (.ifInts (Emit.relation effective))]

/-- Jumps on two conditions, of which the second counts only if the first has the truth `go`. -/
def inSequence (go : Bool) (left : Expr) (l r : ExprCode) (wanted : Bool) :
    Emit (List Nat) := do
  match ctx.knownTruth left with
  | some truth =>
    if truth = go then r.jump wanted
    else if truth = wanted then return [← Emit.goto]
    else return []
  | none =>
    if wanted = go then
      let skip ← l.jump (!go)
      let sites ← r.jump go
      Emit.land skip
      return sites
    else
      let sites ← l.jump (!go)
      return sites ++ (← r.jump (!go))

def ofAnd (left right : Expr) (l r : ExprCode) : ExprCode :=
  ofJump ctx (.and left right) (inSequence ctx true left l r)

def ofOr (left right : Expr) (l r : ExprCode) : ExprCode :=
  ofJump ctx (.or left right) (inSequence ctx false left l r)

def ofNot (operand : Expr) (code : ExprCode) : ExprCode :=
  ofJump ctx (.not operand) fun wanted => code.jump (!wanted)

def ofConditional (test whenTrue whenFalse : Expr) (c a b : ExprCode) : ExprCode :=
  let e := Expr.conditional test whenTrue whenFalse
  ofValue ctx e do
    let type ← ctx.typeOf e
    let depth ← Emit.depth
    let otherwise ← c.jump false
    Emit.coerce (← a.value) type
    let done ← Emit.goto
    Emit.land otherwise
    Emit.setDepth depth
    Emit.coerce (← b.value) type
    Emit.land [done]
    return type

def ofInstance (operand : Expr) (written : WrittenType) (code : ExprCode) : ExprCode :=
  ofValue ctx (.instanceOf operand written) do
    let _ ← code.value
    let type ← ctx.view.resolveType written
    Emit.emit (.instanceOf (← Emit.classIndex type))
    return .boolean

/-- Converts a value to the type of the result, boxing it or taking it out of its box. -/
def resultValue (source : JavaType) : Emit JavaType := do
  let result := ctx.bindings.resultCastType
  if result.isVoid then Emit.pop source
  else if source.isVoid then Emit.pushDefault result
  else if result.isReference then
    Emit.box source
    if ctx.view.isAssignable source.boxed result then return result
    Emit.checkCast result
  else if source.isReference then Emit.unbox result
  else Emit.coerce source result
  return result

def ofCast (written : WrittenType) (operand : Expr) (code : ExprCode) : ExprCode :=
  ofValue ctx (.cast written operand) do
    if written = resultCast then resultValue ctx (← code.value)
    else if written = boxCast then
      let source ← code.value
      Emit.box source
      return source.boxed
    else
      let target ← ctx.view.resolveType written
      let source ← code.value
      if target.isReference then
        if ctx.view.isAssignable source target then return target
        Emit.checkCast target
      else Emit.coerce source target
      return target

/-! Assignments. -/

def ofAssign (op : Option BinaryOp) (target value : Expr) (t v : ExprCode) : ExprCode :=
  ofEffect ctx (.assign op target value) (Emit.assign ctx op t.location value v.value v.valueAs)

def ofIncDec (increases before : Bool) (target : Expr) (t : ExprCode) : ExprCode :=
  ofEffect ctx (.incDec increases before target) (Emit.step ctx increases before t.location target)

/-! Arrays. -/

/-- Pushes an array and a position in it, and gives the type of its elements. -/
def pushPosition (array : Expr) (a i : ExprCode) : Emit JavaType := do
  let type ← a.value
  Emit.coerce (← i.value) .int
  match type.element? with
  | some element => return element
  | none => throw (.type (.notAnArray array))

def ofIndex (array position : Expr) (a i : ExprCode) : ExprCode :=
  let value := do
    let element ← pushPosition array a i
    Emit.emit (.arrayLoad (Emit.elementKind element))
    return element
  let location := do return .element (← pushPosition array a i)
  ofLocation ctx (.index array position) value location

/-- Makes an array of a type from its items. -/
def arrayOfItems (type : JavaType) (items : List ExprCode) : Emit Unit := do
  let element ← TypingContext.itemType type
  makeArray type (items.map fun item => item.valueAs element) element

def ofArrayInit (items : List Expr) (codes : List ExprCode) : ExprCode :=
  { ofValue ctx (.arrayInit items) (throw (.type .looseInitializer)) with
    valueAs := fun type => arrayOfItems type codes }

def ofArray (element : WrittenType) (dims : Nat) (items : List Expr) (codes : List ExprCode) :
    ExprCode :=
  ofValue ctx (.arrayOf element dims items) do
    let type := (← ctx.view.resolveType element).arrayOf dims
    arrayOfItems type codes
    return type

def ofNewArray (element : WrittenType) (lengths : List Expr) (extra : Nat)
    (codes : List ExprCode) : ExprCode :=
  let e := Expr.newArray element lengths extra
  ofValue ctx e do
    let type := (← ctx.view.resolveType element).arrayOf (lengths.length + extra)
    codes.forM fun length => do Emit.coerce (← length.value) .int
    match lengths with
    | [] => throw (.code (.creationWithoutSize e))
    | [_] => Emit.newArray type
    | _ =>
      let index ← Emit.classIndex type
      Emit.change (·.appendMultiNewArray index lengths.length.toUInt8)
    return type

/-! Calls. -/

/-- The codes of arguments, those of the parameters in place of `$$`. -/
def expand (args : List Expr) (codes : List ExprCode) : Except CompileError (List ExprCode) :=
  if args.any Expr.isSplice then do
    let params ← ctx.bindings.getParams
    return (args.zip codes).flatMap fun (arg, code) =>
      if arg.isSplice then params.vars.map (ofVariable ctx) else [code]
  else .ok codes

/-- Pushes arguments as parameters. -/
def pushArguments (params : List JavaType) (args : List ExprCode) : Emit Unit :=
  (args.zip params).forM fun (arg, param) => arg.valueAs param

/-- Calls a method. -/
def call (found : CallTarget) (receiver : Emit JavaType) (args : List ExprCode) :
    Emit JavaType := do
  let method := found.selected.method
  let owner := found.selected.owner.name
  let through ←
    if ctx.view.needsAccessor owner method.isPrivate then
      some <$> Emit.accessor owner fun t => .ok (method.accessor owner t)
    else pure none
  match found.receiver with
  | .nothing => pure ()
  | .thisObject => Emit.loadThis
  | .target => do let _ ← receiver
  pushArguments found.selected.signature.params args
  match through with
  | some m => Emit.invoke .static owner m.name m.descriptor
  | none => Emit.invoke found.kind found.owner method.name method.descriptor
  return found.selected.signature.result

/-- Class of control-flow counters. -/
def counterClass : String := "compiler/runtime/Cflow"

/-- Reads a control-flow counter. -/
def readCounter (args : List Expr) : Emit JavaType := do
  let counter ← ctx.bindings.counter args
  Emit.getStatic counter.owner counter.field (.ofClass counterClass)
  Emit.invoke .virtual counterClass "value" "()I"
  return .int

/-- Calls a method on a target. -/
def callOn (target : Expr) (t : Emit JavaType) (name : String) (args : List Expr)
    (codes : List ExprCode) : Emit JavaType := do
  let types ← ctx.argumentTypes args
  let found ← ctx.callTarget target (ctx.denote target) name types
  call ctx found t (← expand ctx args codes)

/-- Calls a method without a target. -/
def callBare (name : String) (args : List Expr) (codes : List ExprCode) : Emit JavaType := do
  let types ← ctx.argumentTypes args
  let found ← ctx.bareCall name types
  call ctx found (pure .void) (← expand ctx args codes)

/-- Goes on to the recorded call, whose target has the code `forward`. -/
def proceed (forward : Emit JavaType) (args : List Expr) (codes : List ExprCode) :
    Emit JavaType := do
  let expanded ← ctx.bindings.expand args
  let recorded ← ctx.bindings.getProceed
  match recorded.target with
  | some target => callOn ctx target forward recorded.method args codes
  | none =>
    if recorded.method = proceedName then throw (.fatal .endlessProceed)
    else if recorded.method = counterCallName then readCounter ctx expanded
    else callBare ctx recorded.method args codes

def ofCall (forward : Emit JavaType) (name : String) (args : List Expr) (codes : List ExprCode) :
    ExprCode :=
  ofValue ctx (.call name args) <|
    if name = proceedName then proceed ctx forward args codes
    else if name = counterCallName then readCounter ctx args
    else callBare ctx name args codes

def ofCallOn (target : Expr) (t : ExprCode) (name : String) (args : List Expr)
    (codes : List ExprCode) : ExprCode :=
  ofValue ctx (.callOn target name args) (callOn ctx target t.value name args codes)

/-- Makes an object. A private constructor of a class around is reached through its shadow, with
`null` for the marker. -/
def create (written : WrittenType) (args : List Expr) (codes : List ExprCode) :
    Emit JavaType := do
  let type ← ctx.view.resolveType written
  let owner := type.referenceName
  let types ← ctx.argumentTypes args
  let selected ← ctx.view.lookupMethod owner constructorName types
  let declaring := selected.owner.name
  let shadow ←
    if ctx.view.needsAccessor declaring selected.method.isPrivate then
      some <$> Emit.accessor declaring selected.method.shadowConstructor
    else pure none
  Emit.emit (.new (← ConstantPool.ofClass owner))
  Emit.emit (.stack .dup)
  pushArguments selected.signature.params (← expand ctx args codes)
  match shadow with
  | some m =>
    Emit.emit .aconstNull
    Emit.invoke .special owner constructorName m.descriptor
  | none => Emit.invoke .special owner constructorName selected.method.descriptor
  return type

end ExprCode

section

variable (ctx : TypingContext)
/- The code of the target of the recorded `$proceed` call. -/
variable (forward : Emit JavaType)

mutual

/-- The code of an expression. -/
def compileWith : Expr → ExprCode
  | .int v kind => .ofValue ctx (.int v kind) do
    Emit.pushInt v.toInt32
    return .prim kind.primitive
  | .long v => .ofValue ctx (.long v) do
    Emit.pushLong v
    return .long
  | .float v => .ofValue ctx (.float v) do
    Emit.pushFloat v
    return .float
  | .double v => .ofValue ctx (.double v) do
    Emit.pushDouble v
    return .double
  | .string text => .ofValue ctx (.string text) do
    Emit.loadConstant (← ConstantPool.string text)
    return .string
  | .thisRef => .ofValue ctx .thisRef do
    let type ← ctx.thisType
    Emit.loadThis
    return type
  | .superRef => .ofValue ctx .superRef do
    let type ← ctx.superType
    Emit.loadThis
    return type
  | .nullRef => .ofValue ctx .nullRef do
    Emit.emit .aconstNull
    return .null
  | .bool v => .ofValue ctx (.bool v) do
    Emit.pushTruth v
    return .boolean
  | .name n => .ofName ctx n
  | .var v => .ofVariable ctx v
  | .unary op e => .ofUnary ctx op e (compileWith e)
  | .binary op l r => .ofBinary ctx op l r (compileWith l) (compileWith r)
  | .compare op l r => .ofCompare ctx op l r (compileWith l) (compileWith r)
  | .and l r => .ofAnd ctx l r (compileWith l) (compileWith r)
  | .or l r => .ofOr ctx l r (compileWith l) (compileWith r)
  | .not e => .ofNot ctx e (compileWith e)
  | .instanceOf e t => .ofInstance ctx e t (compileWith e)
  | .cast t e => .ofCast ctx t e (compileWith e)
  | .conditional c a b =>
    .ofConditional ctx c a b (compileWith c) (compileWith a) (compileWith b)
  | .assign op target value => .ofAssign ctx op target value (compileWith target) (compileWith value)
  | .incDec increases before target => .ofIncDec ctx increases before target (compileWith target)
  | .field target n => .ofField ctx (.field target n) do let _ ← (compileWith target).value
  | .classLit t => .ofValue ctx (.classLit t) do Emit.classLiteral (← ctx.view.resolveType t)
  | .index a i => .ofIndex ctx a i (compileWith a) (compileWith i)
  | .call n args => .ofCall ctx forward n args (compileAllWith args)
  | .callOn target n args => .ofCallOn ctx target (compileWith target) n args (compileAllWith args)
  | .new t args => .ofValue ctx (.new t args) (ExprCode.create ctx t args (compileAllWith args))
  | .newArray t lengths extra => .ofNewArray ctx t lengths extra (compileAllWith lengths)
  | .arrayOf t dims items => .ofArray ctx t dims items (compileAllWith items)
  | .arrayInit items => .ofArrayInit ctx items (compileAllWith items)
  | .concat parts =>
    let codes := compileAllWith parts
    .ofValue ctx (.concat parts) (Emit.concat (codes.map ExprCode.value))

/-- The codes of expressions. -/
def compileAllWith : List Expr → List ExprCode
  | [] => []
  | e :: rest => compileWith e :: compileAllWith rest

end

end

namespace TypingContext

variable (ctx : TypingContext)

/-- The code of the target of the recorded `$proceed` call. -/
def forwardCode : Emit JavaType :=
  match ctx.bindings.proceed.bind ProceedCall.target with
  | some target => (compileWith ctx (throw (.fatal .endlessProceed)) target).value
  | none => throw (.fatal .endlessProceed)

/-- The code of an expression. -/
def compile (e : Expr) : ExprCode := compileWith ctx ctx.forwardCode e

end TypingContext

end JavaFragment
