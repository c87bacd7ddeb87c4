import JavaFragment.Error
import JavaFragment.Syntax.Scope
/-!
Pseudo-variables of a fragment that is put into a method: its parameters, its result and what the
surroundings have recorded for the names that start with a dollar sign.
-/
namespace JavaFragment

/-- Pseudo-variables that are written as a bare name. -/
inductive PseudoName where
  /-- All parameters, boxed in an array. -/
  | args
  /-- All parameters, as arguments of a call. -/
  | splice
  /-- The classes of the parameters. -/
  | signature
  /-- The class of the recorded type. -/
  | type
  /-- The class that declares the method. -/
  | declaring
deriving DecidableEq, Repr

def PseudoName.ofName? : String → Option PseudoName
  | "$args" => some .args
  | "$$" => some .splice
  | "$sig" => some .signature
  | "$type" => some .type
  | "$class" => some .declaring
  | _ => none

/-- Whether an argument is `$$`. -/
def Expr.isSplice : Expr → Bool
  | .name n => PseudoName.ofName? n == some .splice
  | _ => false

/-- Name of the call that goes on to the recorded method. -/
def proceedName : String := "$proceed"

/-- Name of the call that reads a control-flow counter. -/
def counterCallName : String := "$cflow"

/-- Name of the variable that holds the result of the method. -/
def resultName : String := "$_"

/-- Type written in a cast to the type of the result. -/
def resultCast : WrittenType := .named "$r"

/-- Type written in a cast that boxes. -/
def boxCast : WrittenType := .named "$w"

/-- The parameters of the method around a fragment. -/
structure ParamBinding where
  vars : List Variable
  types : List JavaType
  declaring : String
  isStatic : Bool
deriving Repr, Inhabited

/-- Declared parameters, with the first free slot after them if there is one. -/
structure DeclaredParams where
  vars : List Variable
  scope : Scope
  locals : Locals
  uses : List LocalUse
  next : Option UInt16
deriving Inhabited

/-- Declares `$1`, `$2` and so on in slots one after another. Stops at a parameter behind which no
slot is left. -/
def declareParams (number : Nat) (slot : UInt16) (scope : Scope) (locals : Locals) :
    List JavaType → DeclaredParams
  | [] => ⟨[], scope, locals, [], some slot⟩
  | type :: rest =>
    let (v, locals) := locals.bind ("$" ++ toString number) type slot
    let scope := scope.declare v
    let use : LocalUse := ⟨.variable v.number, type, slot⟩
    let next := slot.toNat + type.slots
    if next < 65536 then
      let others := declareParams (number + 1) next.toUInt16 scope locals rest
      { others with vars := v :: others.vars, uses := others.uses ++ [use] }
    else ⟨[v], scope, locals, [use], none⟩

/-- What `$proceed` calls. -/
structure ProceedCall where
  target : Option Expr
  method : String
deriving Inhabited

/-- The static field with a control-flow counter. -/
structure CounterField where
  owner : String
  field : String
deriving DecidableEq, Repr, Inhabited

/-- What is recorded for the pseudo-variables. -/
structure Bindings where
  params : Option ParamBinding
  result : Option JavaType
  recordedType : Option JavaType
  proceed : Option ProceedCall
  counters : List (String × CounterField)
deriving Inhabited

namespace Bindings

def empty : Bindings := ⟨none, none, none, none, []⟩

def getParams (b : Bindings) : Except CompileError ParamBinding :=
  match b.params with
  | some params => .ok params
  | none => .error (.code .noParams)

def getProceed (b : Bindings) : Except CompileError ProceedCall :=
  match b.proceed with
  | some call => .ok call
  | none => .error (.type .noProceed)

/-- The type whose class `$type` is: the recorded one, else that of the result. -/
def typeOfType (b : Bindings) : JavaType := (b.recordedType.or b.result).getD .void

/-- The type that a cast to the type of the result leads to. -/
def resultCastType (b : Bindings) : JavaType := b.result.getD .void

/-- The counter that the arguments of a call name. -/
def counter (b : Bindings) (args : List Expr) : Except CompileError CounterField :=
  let named := match args with
    | [arg] => arg.dottedName?
    | _ => none
  match named with
  | none => .error (.type .counterName)
  | some name => match b.counters.lookup name with
    | some field => .ok field
    | none => .error (.type (.noCounter name))

/-- Puts the parameters in place of each `$$` among arguments. -/
def expand (b : Bindings) (args : List Expr) : Except CompileError (List Expr) :=
  if args.any Expr.isSplice then do
    let params ← b.getParams
    return args.flatMap fun arg => if arg.isSplice then params.vars.map .var else [arg]
  else .ok args

/-- The type of a pseudo-variable. -/
def pseudoType : PseudoName → Except CompileError JavaType
  | .args => .ok (JavaType.object.arrayOf 1)
  | .signature => .ok ((JavaType.ofClass "java/lang/Class").arrayOf 1)
  | .type | .declaring => .ok (.ofClass "java/lang/Class")
  | .splice => .error (.type (.argumentsOnly "$$"))

end Bindings

end JavaFragment
