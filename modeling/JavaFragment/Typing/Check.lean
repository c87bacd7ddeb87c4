import JavaFragment.Typing.Denotation
/-!
Checking of trees. A check refuses what has no type and simplifies the rest: constants are folded,
strings built with `+` become one concatenation, and the branches of numeric conditionals are cast
to their common type. A check that fails leaves a tree simplified up to the place of the fault.
-/
namespace JavaFragment

/-- A tree as a check leaves it, and the outcome of the check. -/
structure Checked (α β : Type) where
  tree : α
  outcome : Except CompileError β

namespace Checked

variable {α β γ δ : Type}

def pass (tree : α) (result : β) : Checked α β := ⟨tree, .ok result⟩

/-- Builds a larger tree around what was checked. -/
def map (f : α → γ) (c : Checked α β) : Checked γ β := ⟨f c.tree, c.outcome⟩

/-- Goes on to a second part, which stays as it is if the first part failed. -/
def andThen (c : Checked α β) (part : γ) (check : Unit → Checked γ δ) : Checked (α × γ) δ :=
  match c.outcome with
  | .ok _ => (check ()).map fun part => (c.tree, part)
  | .error e => ⟨(c.tree, part), .error e⟩

/-- Goes on with the checked tree. -/
def bind (c : Checked α β) (next : α → β → Checked α γ) : Checked α γ :=
  match c.outcome with
  | .ok result => next c.tree result
  | .error e => ⟨c.tree, .error e⟩

/-- Asks for a condition on the checked tree. -/
def require (c : Checked α β) (condition : α → β → Except CompileError γ) : Checked α γ :=
  c.bind fun tree result => ⟨tree, condition tree result⟩

/-- Forgets the result. -/
def done (c : Checked α β) : Checked α Unit := c.require fun _ _ => .ok ()

end Checked

namespace Expr

/-- `this`, `super`, `null` and the truth values. -/
def isKeyword : Expr → Bool
  | .thisRef | .superRef | .nullRef | .bool _ => true
  | _ => false

/-- Whether an expression is one token that is no name. -/
def isLiteral : Expr → Bool
  | .int _ _ | .long _ | .float _ | .double _ | .string _ => true
  | e => e.isKeyword

/-- Whether an expression can stand as a statement. -/
def isStatement : Expr → Bool
  | .assign _ _ _ | .incDec _ _ _ | .call _ _ | .callOn _ _ _ | .new _ _ | .cast _ _ => true
  | _ => false

/-- The text that a literal adds to a string. -/
def literalText? : Expr → Option String
  | .string text => some text
  | .int value .char => charString? value.toUInt64.toUInt32
  | .int value _ | .long value => some (toString value)
  | .float value => some value.stringValue
  | .double value => some value.stringValue
  | .bool value => some (if value then "true" else "false")
  | _ => none

/-- The parts of which a string is made. -/
def concatParts : Expr → List Expr
  | .concat parts => parts
  | e => [e]

/-- Joins literals that stand next to each other. -/
def mergeLiterals : List Expr → List Expr
  | [] => []
  | part :: rest =>
    match mergeLiterals rest with
    | [] => [part]
    | next :: others =>
      match part.literalText?, next.literalText? with
      | some a, some b => .string (a ++ b) :: others
      | _, _ => part :: next :: others

/-- The concatenation of two operands, of which one is a string. -/
def joined (l r : Expr) : Expr :=
  match mergeLiterals (l.concatParts ++ r.concatParts) with
  | [.string text] => .string text
  | parts => .concat parts

end Expr

namespace TypingContext

variable (ctx : TypingContext)

/-- A branch of a conditional of numeric type, with a cast if it has another rank. -/
def promoteBranch (type : JavaType) (branch : Expr) : Expr :=
  match ctx.typeOf branch, type.primitive? with
  | .ok own, some p =>
    if own.base.rank? = p.rank? then branch else .cast (.primitive p) branch
  | _, _ => branch

/-- The simpler form of an expression of a type, after its parts were checked. -/
def simplified (e : Expr) (type : JavaType) : Expr :=
  if e.isLiteral then e
  else match ctx.constant e, e with
    | some c, _ => c.toExpr
    | none, .binary .add l r => if type.isString then Expr.joined l r else e
    | none, .conditional test a b =>
      if type.isNumeric then .conditional test (ctx.promoteBranch type a) (ctx.promoteBranch type b)
      else e
    | none, _ => e

/-- Checks an expression whose parts were checked. -/
def conclude (e : Expr) : Checked Expr JavaType :=
  match ctx.typeOf e with
  | .ok type => .pass (ctx.simplified e type) type
  | .error fault => ⟨e, .error fault⟩

/-- Checks an expression after its parts, unless one of these failed. -/
def concluded {β : Type} (parts : Checked Expr β) : Checked Expr JavaType :=
  parts.bind fun e _ => ctx.conclude e

/-- Checks what stands before a dot, unless it is a class or package. -/
def checkQualifier (e : Expr) (check : Unit → Checked Expr JavaType) : Checked Expr Unit :=
  match ctx.denote e with
  | .ok (.value _) => (check ()).done
  | .ok _ => .pass e ()
  | .error fault => ⟨e, .error fault⟩

mutual

/-- Checks an expression and gives its type. -/
def check : Expr → Checked Expr JavaType
  | .unary op e => ctx.concluded ((check e).map (.unary op))
  | .not e => ctx.concluded ((check e).map .not)
  | .cast t e => ctx.concluded ((check e).map (.cast t))
  | .instanceOf e t => ctx.concluded ((check e).map (.instanceOf · t))
  | .binary op l r =>
    ctx.concluded (((check l).andThen r fun _ => check r).map fun (l, r) => .binary op l r)
  | .compare op l r =>
    ctx.concluded (((check l).andThen r fun _ => check r).map fun (l, r) => .compare op l r)
  | .and l r => ctx.concluded (((check l).andThen r fun _ => check r).map fun (l, r) => .and l r)
  | .or l r => ctx.concluded (((check l).andThen r fun _ => check r).map fun (l, r) => .or l r)
  | .conditional c a b =>
    ctx.concluded ((((check c).andThen a fun _ => check a).andThen b fun _ => check b).map
      fun ((c, a), b) => .conditional c a b)
  | .assign op target (.arrayInit items) =>
    ctx.concluded (((checkLocation target).andThen items fun _ => checkAll items).map
      fun (target, items) => .assign op target (.arrayInit items))
  | .assign op target value =>
    ctx.concluded (((checkLocation target).andThen value fun _ => check value).map
      fun (target, value) => .assign op target value)
  | .incDec increment before target =>
    ctx.concluded ((checkLocation target).map (.incDec increment before))
  | .field target name =>
    ctx.concluded ((ctx.checkQualifier target fun _ => check target).map (.field · name))
  | .index a i =>
    ctx.concluded (((check a).andThen i fun _ => check i).map fun (a, i) => .index a i)
  | .call name args =>
    if name = counterCallName then ctx.conclude (.call name args)
    else ctx.concluded ((checkArgs args).map (.call name))
  | .callOn target name args =>
    let checked :=
      if target.isKeyword then .pass target ()
      else ctx.checkQualifier target fun _ => check target
    ctx.concluded ((checked.andThen args fun _ => checkArgs args).map
      fun (target, args) => .callOn target name args)
  | .new t args => ctx.concluded ((checkArgs args).map (.new t))
  | .newArray t lengths extra => ctx.concluded ((checkAll lengths).map (.newArray t · extra))
  | .arrayOf t dims items => ctx.concluded ((checkAll items).map (.arrayOf t dims))
  | .arrayInit items => ctx.concluded ((checkAll items).map .arrayInit)
  | .concat parts => ctx.concluded ((checkAll parts).map .concat)
  | e => ctx.conclude e

/-- Checks the parts of a place that is assigned to. -/
def checkLocation : Expr → Checked Expr Unit
  | .index a i => (((check a).andThen i fun _ => check i).map fun (a, i) => .index a i).done
  | .field target name => (ctx.checkQualifier target fun _ => check target).map (.field · name)
  | e => .pass e ()

/-- Checks expressions in order. -/
def checkAll : List Expr → Checked (List Expr) Unit
  | [] => .pass [] ()
  | e :: rest =>
    ((check e).andThen rest fun _ => checkAll rest).map fun (e, rest) => e :: rest

/-- Checks arguments in order, of which `$$` is none. -/
def checkArgs : List Expr → Checked (List Expr) Unit
  | [] => .pass [] ()
  | e :: rest =>
    let first := if e.isSplice then .pass e () else (check e).done
    (first.andThen rest fun _ => checkArgs rest).map fun (e, rest) => e :: rest

end

/-- Checks the condition of a statement. -/
def checkCondition (test : Expr) : Checked Expr Unit :=
  (ctx.check test).require fun test type =>
    if type.isBoolean then .ok () else .error (.type (.condition test type))

/-- Checks the initial value of a place of a type. -/
def checkInitial (type : JavaType) : Expr → Checked Expr Unit
  | .arrayInit items =>
    ((ctx.checkAll items).require fun items _ => ctx.fits items type).map .arrayInit
  | init => (ctx.check init).require fun init source => ctx.assignable init source type

/-- Checks the declaration of a variable. -/
def checkDecl (d : VariableDecl) : Checked VariableDecl Unit :=
  match ctx.variableType d.declared, d.init with
  | .error fault, _ => ⟨d, .error fault⟩
  | .ok _, none => .pass d ()
  | .ok type, some init => (ctx.checkInitial type init).map fun init => { d with init := some init }

def checkDecls : List VariableDecl → Checked (List VariableDecl) Unit
  | [] => .pass [] ()
  | d :: rest =>
    ((ctx.checkDecl d).andThen rest fun _ => checkDecls rest).map fun (d, rest) => d :: rest

/-- Whether values of a type can be thrown. -/
def isThrowable (type : JavaType) : Bool :=
  match type.className? with
  | some name => ctx.view.table.isSubclass name throwableClass
  | none => type.isNull

/-- Checks the labels of a case. -/
def checkLabels : List Expr → Checked (List Expr) Unit
  | [] => .pass [] ()
  | label :: rest =>
    let first := (ctx.check label).require fun label type =>
      let isInteger := match label with
        | .int _ _ | .long _ => true
        | _ => false
      if isInteger && type.promoted? == some .int then .ok () else .error (.type (.caseLabel label))
    (first.andThen rest fun _ => checkLabels rest).map fun (label, rest) => label :: rest

/-- Checks the value that a method returns. A void method may return a cast to its result type,
whose value is dropped. -/
def checkReturn : Option Expr → Checked (Option Expr) Unit
  | none =>
    if ctx.result.isVoid then .pass none () else ⟨none, .error (.type (.missingValue ctx.result))⟩
  | some value =>
    ((ctx.check value).require fun value type =>
      if !ctx.result.isVoid then ctx.assignable value type ctx.result
      else match value with
        | .cast written _ =>
          if written = resultCast then .ok () else .error (.type (.valueFromVoid value))
        | _ => .error (.type (.valueFromVoid value))).map some

/-- Checks an optional condition. -/
def checkTest : Option Expr → Checked (Option Expr) Unit
  | none => .pass none ()
  | some test => (ctx.checkCondition test).map some

mutual

/-- Checks a statement. -/
def checkStmt : Stmt → Checked Stmt Unit
  | .block body => (checkBlock body).map .block
  | .decl decls => (ctx.checkDecls decls).map .decl
  | .expr e =>
    if e.isStatement then (ctx.check e).done.map .expr
    else ⟨.expr e, .error (.type (.notAStatement e))⟩
  | .ifThen test body =>
    ((ctx.checkCondition test).andThen body fun _ => checkStmt body).map
      fun (test, body) => .ifThen test body
  | .ifElse test body otherwise =>
    (((ctx.checkCondition test).andThen body fun _ => checkStmt body).andThen otherwise
      fun _ => checkStmt otherwise).map fun ((test, body), otherwise) => .ifElse test body otherwise
  | .whileLoop test body =>
    ((ctx.checkCondition test).andThen body fun _ => checkStmt body).map
      fun (test, body) => .whileLoop test body
  | .doLoop body test =>
    ((ctx.checkCondition test).andThen body fun _ => checkStmt body).map
      fun (test, body) => .doLoop body test
  | .forLoop init test update body =>
    ((((checkBlock init).andThen test fun _ => ctx.checkTest test).andThen update
      fun _ => ctx.checkAll update).andThen body fun _ => checkStmt body).map
        fun (((init, test), update), body) => .forLoop init test update body
  | .switch selector cases =>
    let checked := (ctx.check selector).require fun selector type =>
      if type.promoted? = some .int then .ok () else .error (.type (.switchType selector type))
    (checked.andThen cases fun _ => checkCases cases).map
      fun (selector, cases) => .switch selector cases
  | .tryCatch body catches =>
    ((checkBlock body).andThen catches fun _ => checkCatches catches).map
      fun (body, catches) => .tryCatch body catches
  | .tryFinally body catches last =>
    (((checkBlock body).andThen catches fun _ => checkCatches catches).andThen last
      fun _ => checkBlock last).map fun ((body, catches), last) => .tryFinally body catches last
  | .synchronized lock body =>
    let checked := (ctx.check lock).require fun lock type =>
      if type.isReference && !type.isNull then .ok () else .error (.type (.lockType lock type))
    (checked.andThen body fun _ => checkBlock body).map fun (lock, body) => .synchronized lock body
  | .ret value => (ctx.checkReturn value).map .ret
  | .raise value =>
    ((ctx.check value).require fun _ type =>
      if ctx.isThrowable type then .ok () else .error (.type (.thrownValue type))).map .raise
  | .labeled label body => (checkStmt body).map (.labeled label)
  | .breakTo label => .pass (.breakTo label) ()
  | .continueTo label => .pass (.continueTo label) ()
  | .empty => .pass .empty ()

/-- Checks statements in order. -/
def checkBlock : List Stmt → Checked (List Stmt) Unit
  | [] => .pass [] ()
  | s :: rest => ((checkStmt s).andThen rest fun _ => checkBlock rest).map fun (s, rest) => s :: rest

def checkCases : List SwitchCase → Checked (List SwitchCase) Unit
  | [] => .pass [] ()
  | .mk labels isDefault body :: rest =>
    let first := ((ctx.checkLabels labels).andThen body fun _ => checkBlock body).map
      fun (labels, body) => SwitchCase.mk labels isDefault body
    (first.andThen rest fun _ => checkCases rest).map fun (c, rest) => c :: rest

def checkCatches : List CatchClause → Checked (List CatchClause) Unit
  | [] => .pass [] ()
  | .mk param body :: rest =>
    let caught : Except CompileError Unit := do
      let type ← ctx.variableType param
      if ctx.isThrowable type then return () else .error (.type (.caughtType type))
    let first := ((Checked.mk param caught).andThen body fun _ => checkBlock body).map
      fun (param, body) => CatchClause.mk param body
    (first.andThen rest fun _ => checkCatches rest).map fun (c, rest) => c :: rest

end

end TypingContext

end JavaFragment
