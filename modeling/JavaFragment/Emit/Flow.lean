import JavaFragment.Emit.Expression
/-!
Ways out of statements. A `break`, `continue` or `return` emits a branch that stays pending while it
leaves the statements around it, until a loop, a switch or the last part of a `try` takes it up.
-/
namespace JavaFragment

/-- Why a statement is left before its end. -/
inductive Exit where
  | breaking
  | continuing
  | returning
deriving DecidableEq, Repr, Inhabited

/-- A branch that leaves a statement and is not yet pointed to a target. -/
structure PendingExit where
  exit : Exit
  site : Nat
deriving DecidableEq, Repr, Inhabited

/-- How the code of a statement ends: whether what follows is reached, and what is pending. -/
structure Outcome where
  completes : Bool
  pending : List PendingExit
deriving DecidableEq, Repr, Inhabited

namespace Outcome

/-- The pending branches of a kind. -/
def sites (o : Outcome) (exit : Exit) : List Nat :=
  (o.pending.filter fun p => p.exit == exit).map PendingExit.site

/-- What is pending but for some kinds. -/
def without (o : Outcome) (taken : List Exit) : List PendingExit :=
  o.pending.filter fun p => !taken.contains p.exit

end Outcome

/-- What has to be done on the way out of a statement. -/
inductive Hook where
  /-- Unlock the object in a slot. -/
  | monitor (slot : UInt16)
  /-- Run the last part of a `try`, which is numbered. -/
  | lastPart (frame : Nat)
deriving DecidableEq, Repr, Inhabited

/-- The surroundings of a statement: the hooks around it from the inside out, and how many of these
are around the loop or switch that a jump leads to. -/
structure Flow where
  hooks : List Hook
  breakDepth : Option Nat
  continueDepth : Option Nat
deriving DecidableEq, Repr, Inhabited

namespace Flow

/-- The surroundings of the body of a method. -/
def top : Flow := ⟨[], none, none⟩

def within (flow : Flow) (hook : Hook) : Flow := { flow with hooks := hook :: flow.hooks }

def intoSwitch (flow : Flow) : Flow := { flow with breakDepth := some flow.hooks.length }

def intoLoop (flow : Flow) : Flow :=
  { flow.intoSwitch with continueDepth := some flow.hooks.length }

/-- The number of hooks around the target of a jump. -/
def targetDepth (flow : Flow) : Exit → Except CompileError Nat
  | .breaking => match flow.breakDepth with
    | some depth => .ok depth
    | none => .error (.code .breakOutside)
  | .continuing | .returning => match flow.continueDepth with
    | some depth => .ok depth
    | none => .error (.code .continueOutside)

end Flow

namespace Emit

/-- Leaves the loop or switch around. -/
def jumpOut (flow : Flow) (exit : Exit) : Emit (List PendingExit) := do
  let depth ← flow.targetDepth exit
  match flow.hooks with
  | .monitor _ :: _ =>
    if depth < flow.hooks.length then throw (.unsupported .leavesSynchronized)
  | _ => pure ()
  let site ← goto
  setDepth 0
  return [⟨exit, site⟩]

/-- The slot in which the result waits for the last part of a `try`. -/
def resultSlot (frame : Nat) (type : JavaType) : Emit UInt16 := do
  match ((← get).resultSlots[frame]?).join with
  | some slot => return slot
  | none =>
    let slot ← reserve .result type
    modify fun s => { s with resultSlots := s.resultSlots.set! frame (some slot) }
    return slot

/-- Returns the value on the stack. Locked objects are unlocked on the way, and the last part of a
`try` is run before. -/
def returnThrough (result : JavaType) : List Hook → Emit (List PendingExit)
  | [] => do
    emit (.returning result)
    setDepth 0
    return []
  | .monitor slot :: rest => do
    load .object slot
    emit .monitorExit
    returnThrough result rest
  | .lastPart frame :: _ => do
    if !result.isVoid then store result (← resultSlot frame result)
    let site ← goto
    setDepth 0
    return [⟨.returning, site⟩]

end Emit

end JavaFragment
