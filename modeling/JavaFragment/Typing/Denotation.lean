import JavaFragment.Typing.Context
/-!
What expressions stand for, which type the values have, and which are constants.
-/
namespace JavaFragment

namespace TypingContext

/-- Whether a value can be assigned to a place of a type. Constants may narrow if they fit. -/
def assign (ctx : TypingContext) (value : Expr) (constant : Unit → Option Const)
    (source target : JavaType) : Except CompileError Unit :=
  if ctx.view.isAssignable source target then .ok ()
  else if narrows (constant ()) source target then .ok ()
  else .error (.type (.incompatible source target value))

/-- The type of a conditional expression. -/
def conditionalType (ctx : TypingContext) (e test : Expr)
    (tests whenTrue whenFalse : Except CompileError JavaType) : Except CompileError JavaType := do
  let type ← tests
  if !type.isBoolean then .error (.type (.notBoolean test type)) else
  let a ← whenTrue
  let b ← whenFalse
  match ctx.branchType a b with
  | some type => return type
  | none => .error (.type (.branches a b e))

/-- Refuses an operand that is no truth value. -/
def truth (e : Expr) (type : JavaType) : Except CompileError Unit :=
  if type.isBoolean then .ok () else .error (.type (.notBoolean e type))

end TypingContext

section

variable (ctx : TypingContext)
/- What the target of the recorded `$proceed` call stands for. -/
variable (forward : Except CompileError Denotation)

mutual

/-- What an expression stands for. -/
def denoteWith : Expr → Except CompileError Denotation
  | .int _ kind => .ok (.value (.prim kind.primitive))
  | .long _ => .ok (.value .long)
  | .float _ => .ok (.value .float)
  | .double _ => .ok (.value .double)
  | .string _ | .concat _ => .ok (.value .string)
  | .thisRef => .value <$> ctx.thisType
  | .superRef => .value <$> ctx.superType
  | .nullRef => .ok (.value .null)
  | .bool _ => .ok (.value .boolean)
  | .name n => ctx.denoteName n
  | .var v => .value <$> ctx.variableType v
  | .field target n => do ctx.denoteMember target n (← denoteWith target)
  | .unary op e => do
    let type ← (← denoteWith e).valueOf e
    match TypingContext.unaryType op type with
    | some promoted => return .value promoted
    | none => .error (.type (.operand type (.unary op e)))
  | .binary op l r => do
    let a ← (← denoteWith l).valueOf l
    let b ← (← denoteWith r).valueOf r
    match TypingContext.binaryType op a b with
    | some type => return .value type
    | none => .error (.type (.operands a b (.binary op l r)))
  | .compare op l r => do
    let a ← (← denoteWith l).valueOf l
    let b ← (← denoteWith r).valueOf r
    if ctx.isComparable op a b then return .value .boolean
    else .error (.type (.comparison a b (.compare op l r)))
  | .and l r | .or l r => do
    TypingContext.truth l (← (← denoteWith l).valueOf l)
    TypingContext.truth r (← (← denoteWith r).valueOf r)
    return .value .boolean
  | .not e => do
    TypingContext.truth e (← (← denoteWith e).valueOf e)
    return .value .boolean
  | .instanceOf e written => do
    let source ← (← denoteWith e).valueOf e
    return .value (← ctx.instanceType (.instanceOf e written) written source)
  | .cast written e => do
    let source ← (← denoteWith e).valueOf e
    return .value (← ctx.castType (.cast written e) written source)
  | .conditional c a b => do
    return .value (← ctx.conditionalType (.conditional c a b) c (denoteWith c >>= (·.valueOf c))
      (denoteWith a >>= (·.valueOf a)) (denoteWith b >>= (·.valueOf b)))
  | .assign none target (.arrayInit items) => do
    let type ← locationWith target
    fitWith items (← TypingContext.itemType type)
    return .value type
  | .assign none target value => do
    let type ← locationWith target
    let source ← (← denoteWith value).valueOf value
    ctx.assign value (fun _ => constantWith value) source type
    return .value type
  | .assign (some op) target value => do
    let type ← locationWith target
    let source ← (← denoteWith value).valueOf value
    if TypingContext.compoundFits op type source then return .value type
    else .error (.type (.operands type source (.assign (some op) target value)))
  | .incDec increment before target => do
    let type ← locationWith target
    if type.isNumeric then return .value type
    else .error (.type (.operand type (.incDec increment before target)))
  | .classLit written => do
    let _ ← ctx.view.resolveType written
    return .value (.ofClass "java/lang/Class")
  | .index a i => do
    let array ← (← denoteWith a).valueOf a
    let position ← (← denoteWith i).valueOf i
    return .value (← TypingContext.indexType (.index a i) array position)
  | .call name args =>
    if name = proceedName then do
      let expanded ← ctx.bindings.expand args
      let call ← ctx.bindings.getProceed
      match call.target with
      | some target =>
        let found ← ctx.callTarget target forward call.method (← typesWith args)
        return .value found.selected.signature.result
      | none =>
        if call.method = proceedName then .error (.fatal .endlessProceed)
        else if call.method = counterCallName then
          let _ ← ctx.bindings.counter expanded
          return .value .int
        else
          let found ← ctx.bareCall call.method (← typesWith args)
          return .value found.selected.signature.result
    else if name = counterCallName then do
      let _ ← ctx.bindings.counter args
      return .value .int
    else do
      let _ ← ctx.bindings.expand args
      let found ← ctx.bareCall name (← typesWith args)
      return .value found.selected.signature.result
  | .callOn target name args => do
    let _ ← ctx.bindings.expand args
    let types ← typesWith args
    let found ← ctx.callTarget target (denoteWith target) name types
    return .value found.selected.signature.result
  | .new written args => do
    let type ← ctx.view.resolveType written
    let c ← ctx.createdClass type
    let _ ← ctx.bindings.expand args
    let _ ← ctx.view.lookupMethod c.name constructorName (← typesWith args)
    return .value type
  | .newArray element lengths extra => do
    let base ← ctx.view.resolveType element
    lengthsWith (.newArray element lengths extra) lengths
    return .value (base.arrayOf (lengths.length + extra))
  | .arrayOf element dims items => do
    let type := (← ctx.view.resolveType element).arrayOf dims
    fitWith items (← TypingContext.itemType type)
    return .value type
  | .arrayInit _ => .error (.type .looseInitializer)

/-- The type of a place that is assigned to. -/
def locationWith : Expr → Except CompileError JavaType
  | .var v => ctx.variableType v
  | .index a i => do
    let array ← (← denoteWith a).valueOf a
    let position ← (← denoteWith i).valueOf i
    TypingContext.indexType (.index a i) array position
  | .name n => ctx.nameLocation n
  | .field target n => do
    TypingContext.fieldLocation (.field target n) (← ctx.memberTarget target n (← denoteWith target))
  | e => .error (.type (.notAssignable e))

/-- The value of a constant expression. -/
def constantWith : Expr → Option Const
  | .int value kind => some (.int value.toInt32 kind)
  | .long value => some (.long value)
  | .float value => some (.float value)
  | .double value => some (.double value)
  | .string text => some (.string text)
  | .bool value => some (.bool value)
  | .name n => do (← (← (ctx.nameTarget n).toOption)).constant?
  | .field target n => do
    let d ← (denoteWith target).toOption
    (← (← (ctx.memberTarget target n d).toOption)).constant?
  | .unary op e => do Const.unary op (← constantWith e)
  | .binary op l r => do Const.binary op (← constantWith l) (← constantWith r)
  | .compare op l r => do return .bool (← Const.compare op (← constantWith l) (← constantWith r))
  | .and l r => do
    match ← constantWith l, ← constantWith r with
    | .bool a, .bool b => some (.bool (a && b))
    | _, _ => none
  | .or l r => do
    match ← constantWith l, ← constantWith r with
    | .bool a, .bool b => some (.bool (a || b))
    | _, _ => none
  | .not e => do
    match ← constantWith e with
    | .bool a => some (.bool (!a))
    | _ => none
  | .cast written e => do
    let c ← constantWith e
    match written, c with
    | .primitive p, c => c.convert p
    | .named _, .string text =>
      if (← (ctx.view.resolveType written).toOption).isString then some (.string text) else none
    | _, _ => none
  | .conditional test a b => do
    match ← constantWith test with
    | .bool pick =>
      let whenTrue ← constantWith a
      let whenFalse ← constantWith b
      let type ← (ctx.conditionalType (.conditional test a b) test
        (denoteWith test >>= (·.valueOf test)) (denoteWith a >>= (·.valueOf a))
        (denoteWith b >>= (·.valueOf b))).toOption
      let chosen := if pick then whenTrue else whenFalse
      match type.primitive? with
      | some p => if type.isNumeric then chosen.convert p else some chosen
      | none => some chosen
    | _ => none
  | _ => none

/-- The types of arguments, those of the parameters in place of `$$`. -/
def typesWith : List Expr → Except CompileError (List JavaType)
  | [] => .ok []
  | arg :: rest => do
    if arg.isSplice then
      let params ← (← ctx.bindings.getParams).vars.mapM ctx.variableType
      return params ++ (← typesWith rest)
    else
      let type ← (← denoteWith arg).valueOf arg
      return type :: (← typesWith rest)

/-- Whether the lengths of a new array are integers. -/
def lengthsWith (e : Expr) : List Expr → Except CompileError Unit
  | [] => .ok ()
  | length :: rest => do
    let type ← (← denoteWith length).valueOf length
    if type.promoted? = some .int then lengthsWith e rest
    else .error (.type (.lengthType type e))

/-- Whether items can initialize the elements of an array. -/
def fitWith : List Expr → JavaType → Except CompileError Unit
  | [], _ => .ok ()
  | .arrayInit items :: rest, element => do
    fitWith items (← TypingContext.itemType element)
    fitWith rest element
  | item :: rest, element => do
    let source ← (← denoteWith item).valueOf item
    ctx.assign item (fun _ => constantWith item) source element
    fitWith rest element

end

end

namespace TypingContext

variable (ctx : TypingContext)

/-- What the target of the recorded `$proceed` call stands for. A target that goes on to itself
stands for nothing. -/
def forward : Except CompileError Denotation :=
  match ctx.bindings.proceed.bind ProceedCall.target with
  | some target => denoteWith ctx (.error (.fatal .endlessProceed)) target
  | none => .error (.fatal .endlessProceed)

/-- What an expression stands for. -/
def denote (e : Expr) : Except CompileError Denotation := denoteWith ctx ctx.forward e

/-- The type of an expression. -/
def typeOf (e : Expr) : Except CompileError JavaType := do (← ctx.denote e).valueOf e

/-- The type of a place that is assigned to. -/
def locationOf (e : Expr) : Except CompileError JavaType := locationWith ctx ctx.forward e

/-- The value of a constant expression. -/
def constant (e : Expr) : Option Const := constantWith ctx ctx.forward e

/-- The types of arguments. -/
def argumentTypes (args : List Expr) : Except CompileError (List JavaType) := do
  let _ ← ctx.bindings.expand args
  typesWith ctx ctx.forward args

/-- The field that an expression accesses. -/
def fieldTarget : Expr → Except CompileError (Option FieldTarget)
  | .name n => ctx.nameTarget n
  | .field target n => do ctx.memberTarget target n (← ctx.denote target)
  | _ => .ok none

/-- Whether a value can be assigned to a place of a type. -/
def assignable (value : Expr) (source target : JavaType) : Except CompileError Unit :=
  ctx.assign value (fun _ => ctx.constant value) source target

/-- Whether items can initialize an array. -/
def fits (items : List Expr) (type : JavaType) : Except CompileError Unit := do
  fitWith ctx ctx.forward items (← itemType type)

end TypingContext

end JavaFragment
