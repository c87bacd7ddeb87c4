import JavaFragment.Proofs.ExpressionCode
/-!
The meaning of statements over integers and truth values. Loops are followed for a number of rounds: what ends does so
within some number of rounds, and what goes on for ever is unfinished after every number.
-/
namespace JavaFragment

/-- How the execution of a statement ends. -/
inductive Completion where
  | passed
  | broken
  | continued
  | returned (value : Option Value)
  /-- A loop goes on after the rounds that are followed. -/
  | unfinished
deriving DecidableEq, Repr, Inhabited

namespace Evaluation

/-- What follows a statement, unless the statement is left. -/
def andThen (first rest : Evaluation Completion) : Evaluation Completion := do
  match ← first with
  | .passed => rest
  | c => return c

/-- Rounds of a loop until one of them ends it. -/
def rounds (round : Evaluation (Option Completion)) : Nat → Evaluation Completion
  | 0 => return .unfinished
  | n + 1 => do
    match ← round with
    | none => rounds round n
    | some c => return c

/-- What a loop does after its body. A `continue` goes on with the loop. -/
def afterBody (next : Evaluation (Option Completion)) : Completion → Evaluation (Option Completion)
  | .passed | .continued => next
  | .broken => return some .passed
  | c => return some c

/-- A loop with its test at the start. -/
def loop (test : Evaluation Bool) (body : Evaluation Completion) (update : Evaluation Unit) :
    Nat → Evaluation Completion :=
  rounds do
    if ← test then body >>= afterBody (do update; return none) else return some .passed

/-- A loop with its test at the end. -/
def loopAfter (body : Evaluation Completion) (test : Evaluation Bool) : Nat → Evaluation Completion :=
  rounds (body >>= afterBody do if ← test then return none else return some .passed)

/-- The end of a switch. -/
def endSwitch : Completion → Completion
  | .broken => .passed
  | c => c

/-- Gives variables their initial values. -/
def declareAll (ctx : TypingContext) (decls : List VariableDecl) : Evaluation Unit :=
  decls.forM fun d => match d.init with
    | none => return ()
    | some init => do let _ ← assign ctx d.declared (← eval ctx init)

end Evaluation

namespace SwitchCase

/-- Whether a case has a label of a value. No variable plays a part in labels. -/
def answersTo (ctx : TypingContext) (key : Int32) (case : SwitchCase) : Bool :=
  case.labels.any fun label => match eval ctx label fun _ => none with
    | .ok v _ => v == .int key
    | .error _ _ => false

/-- The number of the default case, of which the last one counts. Without any it is the number of cases. -/
def defaultEntry : List SwitchCase → Nat
  | [] => 0
  | case :: rest => if case.isDefault && rest.all (!·.isDefault) then 0 else defaultEntry rest + 1

/-- The number of the case at which a switch goes on. -/
def entry (ctx : TypingContext) (key : Int32) (cases : List SwitchCase) : Nat :=
  (cases.findIdx? (answersTo ctx key)).getD (defaultEntry cases)

end SwitchCase

section

variable (ctx : TypingContext) (limit : Nat)

open Evaluation

mutual

/-- The execution of a statement, with loops followed for a number of rounds. -/
def exec : Stmt → Evaluation Completion
  | .block body => execBlock body
  | .decl decls => do
    declareAll ctx decls
    return .passed
  | .expr e => do
    let _ ← eval ctx e
    return .passed
  | .ifThen test body => do if ← truthOf ctx test then exec body else return .passed
  | .ifElse test body otherwise => do if ← truthOf ctx test then exec body else exec otherwise
  | .whileLoop test body => loop (truthOf ctx test) (exec body) (pure ()) limit
  | .doLoop body test => loopAfter (exec body) (truthOf ctx test) limit
  | .forLoop init test update body =>
    andThen (execBlock init) <| loop (test.elim (pure true) (truthOf ctx)) (exec body)
      (update.forM fun e => do let _ ← eval ctx e) limit
  | .switch selector cases => do
    match ← convertTo (.ok .int) (← eval ctx selector) with
    | .int key => return endSwitch (← execCases cases (SwitchCase.entry ctx key cases))
    | _ => throw .illTyped
  | .ret none => return .returned none
  | .ret (some value) => do return .returned (some (← convertTo (.ok ctx.result) (← eval ctx value)))
  | .breakTo none => return .broken
  | .continueTo none => return .continued
  | .empty => return .passed
  | _ => throw .illTyped

/-- The execution of statements in order. -/
def execBlock : List Stmt → Evaluation Completion
  | [] => return .passed
  | stmt :: rest => andThen (exec stmt) (execBlock rest)

/-- The execution of the cases of a switch from one of them on. -/
def execCases : List SwitchCase → Nat → Evaluation Completion
  | [], _ => return .passed
  | .mk _ _ body :: rest, 0 => andThen (execBlock body) (execCases rest 0)
  | _ :: rest, n + 1 => execCases rest n

end

end

section

variable (known : Variable → Prop)

mutual

/-- Statements over integers and truth values whose variables satisfy a condition. -/
def Stmt.Discrete : Stmt → Prop
  | .block body => discreteBlock body
  | .decl decls => ∀ d ∈ decls, known d.declared ∧ ∀ init ∈ d.init, init.Discrete known
  | .expr e => e.Discrete known
  | .ifThen test body | .whileLoop test body | .doLoop body test => test.Discrete known ∧ body.Discrete
  | .ifElse test body otherwise => test.Discrete known ∧ body.Discrete ∧ otherwise.Discrete
  | .forLoop init test update body => discreteBlock init ∧ (∀ e ∈ test, e.Discrete known) ∧
    (∀ e ∈ update, e.Discrete known) ∧ body.Discrete
  | .switch selector cases => selector.Discrete known ∧ discreteCases cases
  | .ret value => ∀ e ∈ value, e.Discrete known
  | .breakTo none | .continueTo none | .empty => True
  | _ => False

def discreteBlock : List Stmt → Prop
  | [] => True
  | stmt :: rest => stmt.Discrete ∧ discreteBlock rest

def discreteCases : List SwitchCase → Prop
  | [] => True
  | .mk labels _ body :: rest => (∀ label ∈ labels, label.Discrete known) ∧ discreteBlock body ∧ discreteCases rest

end

end

end JavaFragment
