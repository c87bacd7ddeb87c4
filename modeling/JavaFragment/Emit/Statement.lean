import JavaFragment.Emit.Flow
/-!
The code of statements.
-/
namespace JavaFragment

/-- The code of a statement in its surroundings. -/
abbrev StmtCode := Flow → Emit Outcome

namespace StmtCode

variable (ctx : TypingContext)

/-- One statement after another. What follows is reached if all can be passed. -/
def andThen (first rest : StmtCode) : StmtCode := fun flow => do
  let a ← first flow
  let b ← rest flow
  return ⟨a.completes && b.completes, a.pending ++ b.pending⟩

/-- Code that is always passed. -/
def ofEmit (x : Emit Unit) : StmtCode := fun _ => do
  x
  return ⟨true, []⟩

/-- Declares variables. -/
def declare (decls : List VariableDecl) : StmtCode :=
  ofEmit <| decls.forM fun d => do
    let type ← ctx.variableType d.declared
    let slot ← Emit.slotOf ctx d.declared
    match d.init with
    | none => pure ()
    | some init =>
      (ctx.compile init).valueAs type
      Emit.store type slot

/-- A statement on a condition. It counts as passed even if the condition always holds. -/
def ifThen (test : Expr) (body : StmtCode) : StmtCode := fun flow => do
  let otherwise ← (ctx.compile test).jump false
  let o ← body flow
  Emit.land otherwise
  return { o with completes := true }

def ifElse (test : Expr) (body alternative : StmtCode) : StmtCode := fun flow => do
  let otherwise ← (ctx.compile test).jump false
  let a ← body flow
  let done ← if a.completes then (fun site => [site]) <$> Emit.goto else pure []
  Emit.land otherwise
  Emit.setDepth 0
  let b ← alternative flow
  Emit.land done
  return ⟨a.completes || (!otherwise.isEmpty && b.completes), a.pending ++ b.pending⟩

/-- What a loop leaves pending of what its body does. -/
def afterLoop (exits : List Nat) (o : Outcome) : Outcome :=
  ⟨!exits.isEmpty || !(o.sites .breaking).isEmpty, o.without [.breaking, .continuing]⟩

def whileLoop (test : Expr) (body : StmtCode) : StmtCode := fun flow => do
  let start ← Emit.here
  let exits ← (ctx.compile test).jump false
  let o ← body flow.intoLoop
  if o.completes then let _ ← CodeBuffer.emitGoto start
  Emit.patchAll (o.sites .continuing) start
  Emit.land exits
  Emit.land (o.sites .breaking)
  Emit.setDepth 0
  return afterLoop exits o

/-- A loop with its test at the end, which is left out if it cannot be reached. -/
def doLoop (body : StmtCode) (test : Expr) : StmtCode := fun flow => do
  let start ← Emit.here
  let o ← body flow.intoLoop
  Emit.land (o.sites .continuing)
  let tested := o.completes || !(o.sites .continuing).isEmpty
  if tested then
    let back ← (ctx.compile test).jump true
    Emit.patchAll back start
  Emit.land (o.sites .breaking)
  Emit.setDepth 0
  let ends := tested && ctx.knownTruth test != some true
  return ⟨ends || !(o.sites .breaking).isEmpty, o.without [.breaking, .continuing]⟩

def forLoop (init : StmtCode) (test : Option Expr) (update : List Expr) (body : StmtCode) :
    StmtCode := fun flow => do
  let first ← init flow
  let start ← Emit.here
  let exits ← match test with
    | some test => (ctx.compile test).jump false
    | none => pure []
  let o ← body flow.intoLoop
  Emit.land (o.sites .continuing)
  if o.completes || !(o.sites .continuing).isEmpty then
    update.forM fun e => (ctx.compile e).effect
    let _ ← CodeBuffer.emitGoto start
  Emit.land exits
  Emit.land (o.sites .breaking)
  Emit.setDepth 0
  let after := afterLoop exits o
  return { after with pending := first.pending ++ after.pending }

/-! Switches. -/

/-- The key of a case label. -/
def caseKey (label : Expr) : Except CompileError Int32 :=
  let key := match label with
    | .int v _ => if -2147483648 ≤ v.toInt ∧ v.toInt < 2147483648 then some v.toInt32 else none
    | _ => match ctx.constant label with
      | some (.int v _) => some v
      | _ => none
  match key with
  | some key => .ok key
  | none => .error (.code (.caseLabel label))

/-- The keys of all labels, each with the number of its case. No key may occur twice. -/
def caseKeys (number : Nat) (found : List (Int32 × Nat)) :
    List (List Expr) → Except CompileError (List (Int32 × Nat))
  | [] => .ok found
  | labels :: rest => do
    let found ← labels.foldlM addKey found
    caseKeys (number + 1) found rest
where
  addKey (found : List (Int32 × Nat)) (label : Expr) : Except CompileError (List (Int32 × Nat)) := do
    let key ← caseKey ctx label
    if found.any fun entry => entry.1 == key then .error (.code (.duplicateCase key))
    else return found ++ [(key, number)]

/-- The code of the cases of a switch: where each starts, where the default case starts, and how the
last one ends. -/
structure CaseOutcome where
  starts : List Nat
  defaultStart : Option Nat
  outcome : Outcome

/-- The code of the groups of a switch, one after another. -/
def cases (flow : Flow) : List (Bool × StmtCode) → Emit CaseOutcome
  | [] => return ⟨[], none, ⟨true, []⟩⟩
  | (isDefault, body) :: rest => do
    let start ← Emit.here
    let o ← body flow
    let others ← cases flow rest
    let last := if rest.isEmpty then o.completes else others.outcome.completes
    return ⟨start :: others.starts, others.defaultStart.or (if isDefault then some start else none),
      ⟨last, o.pending ++ others.outcome.pending⟩⟩

def switch (selector : Expr) (labels : List (List Expr)) (groups : List (Bool × StmtCode)) :
    StmtCode := fun flow => do
  let type ← (ctx.compile selector).value
  Emit.coerce type .int
  let found ← caseKeys ctx 0 [] labels
  let keyed := found.mergeSort fun a b => decide (a.1 ≤ b.1)
  let site ← CodeBuffer.emitSwitch (keyed.map Prod.fst)
  Emit.setDepth 0
  let c ← cases flow.intoSwitch groups
  let stop ← Emit.here
  let targets := keyed.map fun (_, number) => c.starts.getD number stop
  CodeBuffer.patchSwitch site (c.defaultStart.getD stop) targets
  Emit.patchAll (c.outcome.sites .breaking) stop
  Emit.setDepth 0
  let broken := !(c.outcome.sites .breaking).isEmpty
  return ⟨c.outcome.completes || c.defaultStart.isNone || broken, c.outcome.without [.breaking]⟩

/-! Returns and exceptions. -/

def ret (value : Option Expr) : StmtCode := fun flow => do
  match value with
  | some value =>
    let type ← (ctx.compile value).value
    if ctx.result.isVoid then Emit.pop type else Emit.coerce type ctx.result
  | none => if !ctx.result.isVoid then throw (.code (.missingValue ctx.result))
  return ⟨false, ← Emit.returnThrough ctx.result flow.hooks⟩

def raise (value : Expr) : StmtCode := fun _ => do
  let _ ← (ctx.compile value).value
  Emit.emit .athrow
  Emit.setDepth 0
  return ⟨false, []⟩

/-- A `break` or `continue`. -/
def jump (exit : Exit) : StmtCode := fun flow => return ⟨false, ← Emit.jumpOut flow exit⟩

/-- What is known of a `try` while its parts are emitted. -/
structure Protection where
  /-- What its body and its handlers leave pending. -/
  inside : List PendingExit
  /-- What the copies of its last part leave pending. -/
  outside : List PendingExit
  /-- Branches to its end. -/
  done : List Nat
  /-- The ranges of its body and its handlers. -/
  covered : List (Nat × Nat)

/-- Goes from a passed body or handler to the end of a `try`, through its last part. -/
def leave (last : Option StmtCode) (flow : Flow) (p : Protection) : Emit Protection := do
  let o ← match last with
    | some last => last flow
    | none => pure ⟨true, []⟩
  let done ← if o.completes then (fun site => [site]) <$> Emit.goto else pure []
  Emit.setDepth 0
  return { p with outside := p.outside ++ o.pending, done := p.done ++ done }

/-- Adds what a body or handler does to what is known of its `try`. -/
def covering (range : Nat × Nat) (o : Outcome) (last : Option StmtCode) (flow : Flow)
    (p : Protection) : Emit Protection := do
  let p := { p with inside := p.inside ++ o.pending, covered := p.covered ++ [range] }
  if o.completes then leave last flow p else return p

/-- The handlers of a `try` whose body has a range. -/
def handlers (range : Nat × Nat) (inner flow : Flow) (last : Option StmtCode) (p : Protection) :
    List (Variable × StmtCode) → Emit Protection
  | [] => return p
  | (param, body) :: rest => do
    let type ← ctx.variableType param
    let caught ← Emit.classIndex type
    let handler ← Emit.here
    CodeBuffer.addHandler range.1 range.2 handler caught
    Emit.setDepth 1
    Emit.store type (← Emit.slotOf ctx param)
    let o ← body inner
    let p ← covering (handler, ← Emit.here) o last flow p
    handlers range inner flow last p rest

/-- The handler of a `try` that runs its last part and throws the exception again. -/
def rethrow (last : StmtCode) (flow : Flow) (covered : List (Nat × Nat)) :
    Emit (List PendingExit) := do
  let handler ← Emit.here
  (covered.filter fun range => range.1 < range.2).forM fun range =>
    CodeBuffer.addHandler range.1 range.2 handler 0
  Emit.setDepth 1
  let saved ← Emit.reserve .exception .object
  Emit.store .object saved
  let o ← last flow
  if o.completes then
    Emit.load .object saved
    Emit.emit .athrow
  Emit.setDepth 0
  return o.pending

/-- Takes up what the parts of a `try` leave pending for one reason: runs the last part and goes on
leaving. -/
def resume (last : StmtCode) (flow : Flow) (frame : Nat) (inside : List PendingExit) (exit : Exit) :
    Emit (List PendingExit) := do
  let sites := Outcome.sites ⟨true, inside⟩ exit
  if sites.isEmpty then return []
  Emit.land sites
  Emit.setDepth 0
  let o ← last flow
  if !o.completes then return o.pending
  let more ← match exit with
    | .returning => do
      match ((← get).resultSlots[frame]?).join with
      | some slot => Emit.load ctx.result slot
      | none => pure ()
      Emit.returnThrough ctx.result flow.hooks
    | .breaking | .continuing => Emit.jumpOut flow exit
  return o.pending ++ more

/-- A `try`. The last part is copied to every way out. -/
def tryBlock (body : StmtCode) (catches : List (Variable × StmtCode)) (last : Option StmtCode) :
    StmtCode := fun flow => do
  let frame := (← get).resultSlots.size
  modify fun s => { s with resultSlots := s.resultSlots.push none }
  let inner := if last.isSome then flow.within (.lastPart frame) else flow
  let start ← Emit.here
  let o ← body inner
  let stop ← Emit.here
  if start = stop then throw (.code .emptyTry)
  let p ← covering (start, stop) o last flow ⟨[], [], [], []⟩
  let p ← handlers ctx (start, stop) inner flow last p catches
  let pending ← match last with
    | none => pure p.inside
    | some last => do
      let thrown ← rethrow last flow p.covered
      let broken ← resume ctx last flow frame p.inside .breaking
      let continued ← resume ctx last flow frame p.inside .continuing
      let returned ← resume ctx last flow frame p.inside .returning
      pure (p.outside ++ thrown ++ broken ++ continued ++ returned)
  Emit.land p.done
  Emit.setDepth 0
  return ⟨!p.done.isEmpty, pending⟩

/-- A statement that locks an object and unlocks it on every way out. -/
def synchronized (lock : Expr) (body : StmtCode) : StmtCode := fun flow => do
  let type ← (ctx.compile lock).value
  if !type.isReference then throw (.type (.lockType lock type))
  let slot ← Emit.reserve .lock .object
  Emit.emit (.stack .dup)
  Emit.store .object slot
  Emit.emit .monitorEnter
  let start ← Emit.here
  let o ← body (flow.within (.monitor slot))
  if o.completes then
    Emit.load .object slot
    Emit.emit .monitorExit
  let stop ← Emit.here
  let done ← if o.completes then (fun site => [site]) <$> Emit.goto else pure []
  let handler ← Emit.here
  Emit.setDepth 1
  let saved ← Emit.reserve .exception .object
  Emit.store .object saved
  Emit.load .object slot
  Emit.emit .monitorExit
  Emit.load .object saved
  Emit.emit .athrow
  if start < stop then CodeBuffer.addHandler start stop handler 0
  Emit.setDepth 0
  Emit.land done
  return o

end StmtCode

section

variable (ctx : TypingContext)

mutual

/-- The code of a statement. -/
def compileStmt : Stmt → StmtCode
  | .block body => compileBlock body
  | .decl decls => .declare ctx decls
  | .expr e => .ofEmit (ctx.compile e).effect
  | .ifThen test body => .ifThen ctx test (compileStmt body)
  | .ifElse test body otherwise => .ifElse ctx test (compileStmt body) (compileStmt otherwise)
  | .whileLoop test body => .whileLoop ctx test (compileStmt body)
  | .doLoop body test => .doLoop ctx (compileStmt body) test
  | .forLoop init test update body =>
    .forLoop ctx (compileBlock init) test update (compileStmt body)
  | .switch selector cases =>
    .switch ctx selector (cases.map SwitchCase.labels) (compileCases cases)
  | .tryCatch body catches => .tryBlock ctx (compileBlock body) (compileCatches catches) none
  | .tryFinally body catches last =>
    .tryBlock ctx (compileBlock body) (compileCatches catches) (some (compileBlock last))
  | .synchronized lock body => .synchronized ctx lock (compileBlock body)
  | .ret value => .ret ctx value
  | .raise value => .raise ctx value
  | .breakTo none => .jump .breaking
  | .continueTo none => .jump .continuing
  | .breakTo (some label) => fun _ => throw (.unsupported (.labeledBreak label))
  | .continueTo (some label) => fun _ => throw (.unsupported (.labeledContinue label))
  | .labeled _ body => compileStmt body
  | .empty => .ofEmit (pure ())

/-- The code of statements in order. -/
def compileBlock : List Stmt → StmtCode
  | [] => .ofEmit (pure ())
  | s :: rest => .andThen (compileStmt s) (compileBlock rest)

def compileCases : List SwitchCase → List (Bool × StmtCode)
  | [] => []
  | .mk _ isDefault body :: rest => (isDefault, compileBlock body) :: compileCases rest

def compileCatches : List CatchClause → List (Variable × StmtCode)
  | [] => []
  | .mk param body :: rest => (param, compileBlock body) :: compileCatches rest

end

end

end JavaFragment
