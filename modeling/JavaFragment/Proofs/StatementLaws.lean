import JavaFragment.Proofs.ExpressionLaws
/-!
The code of statements follows every law of emission that also tells of branches that are held while control leaves a
statement: each is pointed to its target while it is held, and what a statement leaves pending is held by what follows.
-/
namespace JavaFragment

open Emit

/-! The branches of what is pending. -/

/-- The branches of exits. -/
def PendingExit.branches (pending : List PendingExit) : List Nat := pending.map PendingExit.site

namespace PendingExit

@[grind =]
theorem branches_nil : branches [] = [] := rfl

@[grind =]
theorem branches_append (pending others : List PendingExit) :
    branches (pending ++ others) = branches pending ++ branches others := List.map_append

@[grind =]
theorem branches_singleton (exit : Exit) (site : Nat) : branches [⟨exit, site⟩] = [site] := rfl

@[grind →]
theorem mem_branches_of_sites {o : Outcome} {exit : Exit} {site : Nat} (h : site ∈ o.sites exit) :
    site ∈ branches o.pending :=
  List.map_subset _ (List.filter_subset_self _) h

@[grind →]
theorem mem_branches_of_without {o : Outcome} {taken : List Exit} {site : Nat} (h : site ∈ branches (o.without taken)) :
    site ∈ branches o.pending :=
  List.map_subset _ (List.filter_subset_self _) h

end PendingExit

open PendingExit (branches)

/-- The branches that a `try` holds. -/
def StmtCode.Protection.branches (p : StmtCode.Protection) : List Nat :=
  PendingExit.branches p.inside ++ (PendingExit.branches p.outside ++ p.done)

/-- A law that the code of statements can follow. Besides the code of expressions it tells of branches that are held. -/
structure StatementLaw (ctx : TypingContext) extends ExpressionLaw ctx where
  /-- Emission that keeps the branches that are held and adds those that its result tells. -/
  Runs : List Nat → {α : Type} → (α → List Nat) → Emit α → Prop
  runPure : ∀ {held : List Nat} {α : Type} {sites : α → List Nat} {a : α}, (∀ site ∈ sites a, site ∈ held) →
    Runs held sites (pure a)
  runBind : ∀ {held : List Nat} {α β : Type} {m : α → List Nat} {sites : β → List Nat} {x : Emit α} {f : α → Emit β},
    Runs held m x → (∀ a, Runs (m a ++ held) sites (f a)) → Runs held sites (x >>= f)
  runHolds : ∀ {held : List Nat} {α : Type} {x : Emit α}, Holds x → Runs held (fun _ => []) x
  runJumps : ∀ {held : List Nat} {α : Type} {sites : α → List Nat} {x : Emit α}, Jumps sites x → Runs held sites x
  runPatch : ∀ {held sites : List Nat} (target : Nat), (∀ site ∈ sites, site ∈ held) →
    Runs held (fun _ => []) (patchAll sites target)
  /-- A switch that gets as many targets as it has keys. -/
  runSwitch : ∀ {held : List Nat} {α β : Type} {m : β → List Nat} {sites : α → List Nat} {keys : List Int32}
    {body : Emit β} {default : β → Nat → Nat} {targets : β → Nat → List Nat} {f : β → Nat → Emit α},
    (∀ b stop, (targets b stop).length = keys.length) → Runs held m body →
    (∀ b stop, Runs (m b ++ held) sites (f b stop)) → Runs held sites (do
      let site ← CodeBuffer.emitSwitch keys
      setDepth 0
      let b ← body
      let stop ← here
      CodeBuffer.patchSwitch site (default b stop) (targets b stop)
      f b stop)
  /-- The state may be asked for the slots in which results wait. -/
  runResults : ∀ {held : List Nat} {α : Type} {sites : α → List Nat} {f : EmitState → Emit α},
    (∀ s t : EmitState, s.resultSlots = t.resultSlots → f s = f t) → (∀ s, Runs held sites (f s)) →
    Runs held sites (get >>= f)
  ofResults : ∀ f : Array (Option UInt16) → Array (Option UInt16),
    Holds (modify fun s => { s with resultSlots := f s.resultSlots })
  ofHere : Holds here
  ofDepth : ∀ depth : Int, Holds (setDepth depth)
  ofGoto : ∀ target : Nat, Holds (liftM (CodeBuffer.emitGoto target) : Emit Nat)
  ofHandler : ∀ (start stop handler : Nat) (caught : UInt16),
    Holds (liftM (CodeBuffer.addHandler start stop handler caught) : Emit Unit)
  ofInstruction : ∀ i : Instruction, Holds (emit i)
  ofReserve : ∀ {purpose : LocalPurpose} (type : JavaType), (∀ n, purpose ≠ .variable n) → Holds (reserve purpose type)

variable {ctx : TypingContext} {L : StatementLaw ctx} {held : List Nat}

namespace StatementLaw

variable {α β : Type} {sites : α → List Nat} {m : β → List Nat} {c : Prop} {k : Unit → Emit α}

theorem runThrow {e : CompileError} (h : e.kind ≠ .fatal) : L.Runs held sites (throw e) :=
  L.runJumps (L.jumpThrow (L.lenient e h))

theorem runAfter {x : Emit β} {f : β → Emit α} (hx : L.Holds x) (hf : ∀ b, L.Runs held sites (f b)) :
    L.Runs held sites (x >>= f) := L.runBind (L.runHolds hx) hf

theorem runLift {x : Except CompileError β} {f : β → Emit α} (hx : Faults L.allowed x)
    (hf : ∀ b, L.Runs held sites (f b)) : L.Runs held sites (liftM x >>= f) := by
  cases x with
  | ok b => exact hf b
  | error e => exact L.runJumps (L.jumpThrow (hx.of_error e rfl))

theorem runIte [Decidable c] {x y : Emit α} (hx : L.Runs held sites x) (hy : L.Runs held sites y) :
    L.Runs held sites (if c then x else y) := by
  split
  · exact hx
  · exact hy

/-- A part that is left out unless a condition holds. -/
theorem runOnlyIf [Decidable c] {x : Emit β} {k : Emit α} (hx : L.Runs held (fun _ => []) x)
    (hk : L.Runs held sites k) : L.Runs held sites (if c then x >>= fun _ => k else k) :=
  runIte (L.runBind hx fun _ => hk) hk

theorem runPatched {sites' : List Nat} (target : Nat) (h : ∀ site ∈ sites', site ∈ held)
    (hk : ∀ u, L.Runs held sites (k u)) : L.Runs held sites (patchAll sites' target >>= k) :=
  L.runBind (L.runPatch target h) hk

theorem runLand {sites' : List Nat} (h : ∀ site ∈ sites', site ∈ held)
    (hk : ∀ u, L.Runs held sites (k u)) : L.Runs held sites (land sites' >>= k) :=
  L.runBind (runAfter L.ofHere fun _ => L.runPatch _ h) hk

theorem runDepth {depth : Int} (hk : ∀ u, L.Runs held sites (k u)) :
    L.Runs held sites (setDepth depth >>= k) := runAfter (L.ofDepth depth) hk

/-- A branch to what follows, left out where control does not get there. -/
theorem runGotoIf [Decidable c] {k : List Nat → Emit α} (hk : ∀ done, L.Runs (done ++ held) sites (k done)) :
    L.Runs held sites (if c then ((fun site => [site]) <$> goto) >>= k else pure [] >>= k) := by
  have hBranch : L.Runs held id ((fun site => [site]) <$> goto) := by
    rw [map_eq_pure_bind]
    exact L.runJumps (L.jumpBranches _)
  exact runIte (L.runBind hBranch hk) (L.runBind (m := id) (L.runPure (by simp)) hk)

/-- A branch that stays pending. -/
theorem runPending (exit : Exit) : L.Runs held branches (do
    let site ← goto
    setDepth 0
    return [⟨exit, site⟩]) :=
  L.runBind (L.runJumps (L.jumpBranch _)) fun _ => runDepth fun _ => L.runPure (by grind)

theorem runJumpOut (flow : Flow) (exit : Exit) : L.Runs held branches (jumpOut flow exit) := by
  have hTarget : Faults L.allowed (flow.targetDepth exit) := by
    unfold Flow.targetDepth
    split <;> split <;> first | exact .ok _ | exact .mild L.lenient nofun
  refine runLift hTarget fun depth => ?_
  split
  · exact runOnlyIf (runThrow nofun) (runPending _)
  · exact runPending _

theorem runResultSlot (frame : Nat) (type : JavaType) : L.Runs held (fun _ => []) (resultSlot frame type) := by
  refine L.runResults (fun s t h => by rw [h]) fun s => ?_
  split
  · exact L.runPure (by simp)
  · exact runAfter (L.ofReserve type nofun) fun slot =>
      runAfter (L.ofResults fun slots => slots.set! frame (some slot)) fun _ => L.runPure (by simp)

theorem runReturnThrough (result : JavaType) (hooks : List Hook) :
    L.Runs held branches (returnThrough result hooks) := by
  induction hooks with
  | nil => exact runAfter (L.ofInstruction _) fun _ => runDepth fun _ => L.runPure (by grind)
  | cons hook rest ih =>
    cases hook with
    | monitor slot => exact runAfter (.load ..) fun _ => runAfter (L.ofInstruction _) fun _ => ih
    | lastPart frame =>
      exact runIte (L.runBind (runResultSlot ..) fun _ => runAfter (L.ofInstruction _) fun _ => runPending _)
        (runPending _)

end StatementLaw

/-- The code of a statement follows a law wherever it stands. -/
def StmtCode.Follows (L : StatementLaw ctx) (code : StmtCode) : Prop :=
  ∀ flow held, L.Runs held (fun o => branches o.pending) (code flow)

namespace StmtCode

open StatementLaw

variable {test : Expr} {body : StmtCode} {last : Option StmtCode} {p : Protection}

theorem Follows.andThen {first rest : StmtCode} (hFirst : first.Follows L) (hRest : rest.Follows L) :
    (andThen first rest).Follows L :=
  fun flow _ => L.runBind (hFirst flow _) fun _ => L.runBind (hRest flow _) fun _ => L.runPure (by grind)

theorem Follows.ofEmit {x : Emit Unit} (hx : L.Holds x) : (ofEmit x).Follows L :=
  fun _ _ => runAfter hx fun _ => L.runPure (by grind)

theorem Follows.declare {decls : List VariableDecl} (hKnown : ∀ d ∈ decls, L.known d.declared)
    (hInit : ∀ d ∈ decls, ∀ init ∈ d.init, (ctx.compile init).Follows L.toExpressionLaw) :
    (declare ctx decls).Follows L := by
  refine .ofEmit (.forM fun d hd => .liftThen (ctx.variableType_faults L.lenient _) fun type _ =>
    .bind (L.ofSlot (hKnown d hd)) fun slot => ?_)
  have hInit := hInit d hd
  split
  · exact .pure _
  · next init hSome => exact .bind ((hInit init hSome).valueAs type) fun _ => L.ofInstruction _

theorem Follows.ifThen (hTest : (ctx.compile test).Follows L.toExpressionLaw)
    (hBody : body.Follows L) : (ifThen ctx test body).Follows L :=
  fun flow _ => L.runBind (L.runJumps (hTest.jump _)) fun _ => L.runBind (hBody flow _) fun _ =>
    runLand (by grind) fun _ => L.runPure (by grind)

theorem Follows.ifElse {alternative : StmtCode}
    (hTest : (ctx.compile test).Follows L.toExpressionLaw) (hBody : body.Follows L)
    (hAlternative : alternative.Follows L) : (ifElse ctx test body alternative).Follows L :=
  fun flow _ => L.runBind (L.runJumps (hTest.jump _)) fun _ => L.runBind (hBody flow _) fun _ =>
    runGotoIf fun _ => runLand (by grind) fun _ => runDepth fun _ => L.runBind (hAlternative flow _) fun _ =>
      runLand (by grind) fun _ => L.runPure (by grind)

/-- The end of a loop, to which its exits and its breaks lead. -/
theorem runLoopEnd {exits : List Nat} {o result : Outcome} (hExits : ∀ site ∈ exits, site ∈ held)
    (ho : ∀ site ∈ branches o.pending, site ∈ held) (hResult : ∀ site ∈ branches result.pending, site ∈ held) :
    L.Runs held (fun o => branches o.pending) (do
      land exits
      land (o.sites .breaking)
      setDepth 0
      return result) :=
  runLand hExits fun _ => runLand (by grind) fun _ => runDepth fun _ => L.runPure hResult

theorem Follows.whileLoop (hTest : (ctx.compile test).Follows L.toExpressionLaw)
    (hBody : body.Follows L) : (whileLoop ctx test body).Follows L :=
  fun _ _ => runAfter L.ofHere fun _ => L.runBind (L.runJumps (hTest.jump _)) fun _ => L.runBind (hBody _ _) fun _ =>
    runOnlyIf (L.runHolds (L.ofGoto _)) <| runPatched _ (by grind) fun _ =>
      runLoopEnd (by grind) (by grind) (by grind [afterLoop])

theorem Follows.doLoop (hTest : (ctx.compile test).Follows L.toExpressionLaw)
    (hBody : body.Follows L) : (doLoop ctx body test).Follows L := by
  intro flow held
  refine runAfter L.ofHere fun start => L.runBind (hBody _ _) fun o => runLand (by grind) fun _ => runIte ?_ ?_
  · exact L.runBind (L.runJumps (hTest.jump _)) fun _ => runPatched _ (by grind) fun _ => runLand (by grind) fun _ =>
      runDepth fun _ => L.runPure (by grind)
  · exact runLand (by grind) fun _ => runDepth fun _ => L.runPure (by grind)

theorem Follows.forLoop {init : StmtCode} {test : Option Expr} {update : List Expr}
    (hInit : init.Follows L) (hTest : ∀ e ∈ test, (ctx.compile e).Follows L.toExpressionLaw)
    (hUpdate : ∀ e ∈ update, (ctx.compile e).Follows L.toExpressionLaw) (hBody : body.Follows L) :
    (forLoop ctx init test update body).Follows L := by
  intro flow held
  refine L.runBind (hInit flow _) fun first => runAfter L.ofHere fun start => ?_
  have hRest (held : List Nat) (exits : List Nat) (hExits : ∀ site ∈ exits, site ∈ held)
      (hFirst : ∀ site ∈ branches first.pending, site ∈ held) :
      L.Runs held (fun o => branches o.pending) (do
        let o ← body flow.intoLoop
        land (o.sites .continuing)
        if o.completes || !(o.sites .continuing).isEmpty then
          update.forM fun e => (ctx.compile e).effect
          let _ ← CodeBuffer.emitGoto start
        land exits
        land (o.sites .breaking)
        setDepth 0
        let after := afterLoop exits o
        return { after with pending := first.pending ++ after.pending }) := by
    refine L.runBind (hBody _ _) fun o => runLand (by grind) fun _ => runIte ?_ ?_
    · exact runAfter (.forM fun e he => (hUpdate e he).effect) fun _ => runAfter (L.ofGoto _) fun _ =>
        runLoopEnd (by grind) (by grind) (by grind [afterLoop])
    · exact runLoopEnd (by grind) (by grind) (by grind [afterLoop])
  cases test with
  | none => exact hRest _ [] (by simp) (by grind)
  | some test => exact L.runBind (L.runJumps ((hTest test rfl).jump _)) fun exits => hRest _ exits (by grind) (by grind)

/-! Switches. -/

theorem caseKey_faults {P : CompileError → Prop} (hP : Lenient P) (label : Expr) : Faults P (caseKey ctx label) := by
  unfold caseKey
  dsimp only
  split
  · exact .ok _
  · exact .mild hP nofun

theorem caseKeys_faults {P : CompileError → Prop} (hP : Lenient P) (number : Nat) (found : List (Int32 × Nat))
    (labels : List (List Expr)) : Faults P (caseKeys ctx number found labels) := by
  induction labels generalizing number found with
  | nil => exact .ok _
  | cons own rest ih =>
    have hOwn (found : List (Int32 × Nat)) : Faults P (own.foldlM (caseKeys.addKey ctx number) found) := by
      induction own generalizing found with
      | nil => exact .ok _
      | cons label own ih =>
        rw [List.foldlM_cons]
        exact .bind (.bind (caseKey_faults hP label) fun _ _ => .ite (fun _ => .mild hP nofun) fun _ => .ok _)
          fun _ _ => ih _
    exact .bind (hOwn found) fun _ _ => ih _ _

theorem runCases {flow : Flow} {groups : List (Bool × StmtCode)} (hGroups : ∀ group ∈ groups, group.2.Follows L) :
    L.Runs held (fun c => branches c.outcome.pending) (cases flow groups) := by
  induction groups generalizing held with
  | nil => exact L.runPure (by grind)
  | cons group rest ih =>
    exact runAfter L.ofHere fun _ => L.runBind (hGroups group (by simp) flow _) fun _ =>
      L.runBind (ih fun other hOther => hGroups other (by simp [hOther])) fun _ => L.runPure (by grind)

theorem Follows.switch {selector : Expr} (labels : List (List Expr)) {groups : List (Bool × StmtCode)}
    (hSelector : (ctx.compile selector).Follows L.toExpressionLaw) (hGroups : ∀ group ∈ groups, group.2.Follows L) :
    (switch ctx selector labels groups).Follows L := by
  intro flow held
  refine runAfter hSelector.value fun _ => runAfter (.coerce ..) fun _ =>
    runLift (caseKeys_faults L.lenient 0 [] labels) fun found => ?_
  exact L.runSwitch (fun _ _ => by simp) (runCases hGroups) fun _ _ => runPatched _ (by grind) fun _ =>
    runDepth fun _ => L.runPure (by grind)

/-! Returns and exceptions. -/

theorem Follows.ret {value : Option Expr} (hValue : ∀ e ∈ value, (ctx.compile e).Follows L.toExpressionLaw) :
    (ret ctx value).Follows L := by
  intro flow held
  have hLeave : L.Runs held (fun o => branches o.pending) (do
      return (⟨false, ← returnThrough ctx.result flow.hooks⟩ : Outcome)) :=
    L.runBind (runReturnThrough ..) fun _ => L.runPure (by grind)
  cases value with
  | none => exact runOnlyIf (runThrow nofun) hLeave
  | some value =>
    exact runAfter (hValue value rfl).value fun _ =>
      runIte (runAfter (.pop _) fun _ => hLeave) (runAfter (.coerce ..) fun _ => hLeave)

theorem Follows.raise {value : Expr} (hValue : (ctx.compile value).Follows L.toExpressionLaw) :
    (raise ctx value).Follows L :=
  fun _ _ => runAfter hValue.value fun _ => runAfter (L.ofInstruction _) fun _ => runDepth fun _ => L.runPure (by grind)

theorem Follows.jump (exit : Exit) : (jump exit).Follows L :=
  fun _ _ => L.runBind (runJumpOut ..) fun _ => L.runPure (by grind)

theorem runLeave (hLast : ∀ code ∈ last, code.Follows L) (flow : Flow)
    (hp : ∀ site ∈ p.branches, site ∈ held) : L.Runs held Protection.branches (leave last flow p) := by
  have hRest (o : Outcome) (held : List Nat) (hp : ∀ site ∈ p.branches, site ∈ held)
      (ho : ∀ site ∈ branches o.pending, site ∈ held) : L.Runs held Protection.branches (do
        let done ← if o.completes then (fun site => [site]) <$> goto else pure []
        setDepth 0
        return { p with outside := p.outside ++ o.pending, done := p.done ++ done }) :=
    runGotoIf fun _ => runDepth fun _ => L.runPure (by grind [Protection.branches])
  cases last with
  | none => exact hRest ⟨true, []⟩ held hp (by grind)
  | some last => exact L.runBind (hLast last rfl flow _) fun o => hRest o _ (by grind) (by grind)

theorem runCovering (range : Nat × Nat) {o : Outcome}
    (hLast : ∀ code ∈ last, code.Follows L) (flow : Flow) (hp : ∀ site ∈ p.branches, site ∈ held)
    (ho : ∀ site ∈ branches o.pending, site ∈ held) : L.Runs held Protection.branches (covering range o last flow p) :=
  runIte (runLeave hLast flow (by grind [Protection.branches])) (L.runPure (by grind [Protection.branches]))

theorem runHandlers (range : Nat × Nat) (inner flow : Flow)
    (hLast : ∀ code ∈ last, code.Follows L) {catches : List (Variable × StmtCode)}
    (hCatches : ∀ entry ∈ catches, L.known entry.1 ∧ entry.2.Follows L)
    (hp : ∀ site ∈ p.branches, site ∈ held) :
    L.Runs held Protection.branches (handlers ctx range inner flow last p catches) := by
  induction catches generalizing p held with
  | nil => exact L.runPure hp
  | cons entry rest ih =>
    obtain ⟨hParam, hBody⟩ := hCatches entry (by simp)
    exact runLift (ctx.variableType_faults L.lenient _) fun _ => runAfter (.classIndex _) fun _ =>
      runAfter L.ofHere fun _ => runAfter (L.ofHandler ..) fun _ => runDepth fun _ => runAfter (L.ofSlot hParam) fun _ =>
        runAfter (L.ofInstruction _) fun _ => L.runBind (hBody inner _) fun _ => runAfter L.ofHere fun _ =>
          L.runBind (runCovering _ hLast flow (by grind) (by grind)) fun _ =>
            ih (fun other hOther => hCatches other (by simp [hOther])) (by grind)

theorem runRethrow {last : StmtCode} (hLast : last.Follows L) (flow : Flow) (covered : List (Nat × Nat)) :
    L.Runs held branches (rethrow last flow covered) := by
  refine runAfter L.ofHere fun _ => runAfter (.forM fun _ _ => L.ofHandler ..) fun _ => runDepth fun _ =>
    runAfter (L.ofReserve _ nofun) fun _ => runAfter (L.ofInstruction _) fun _ => L.runBind (hLast flow _) fun _ =>
      runIte (runAfter (.load ..) fun _ => runAfter (L.ofInstruction _) fun _ => ?_) ?_
  all_goals exact runDepth fun _ => L.runPure (by grind)

theorem runResume {last : StmtCode} (hLast : last.Follows L) (flow : Flow) (frame : Nat) {inside : List PendingExit}
    (hInside : ∀ site ∈ branches inside, site ∈ held) (exit : Exit) :
    L.Runs held branches (resume ctx last flow frame inside exit) := by
  refine runIte (L.runPure (by grind)) (runLand (by grind) fun _ => runDepth fun _ => L.runBind (hLast flow _) fun o =>
    runIte (L.runPure (by grind)) ?_)
  cases exit with
  | breaking | continuing => exact L.runBind (runJumpOut ..) fun _ => L.runPure (by grind)
  | returning =>
    have hMore (held : List Nat) (ho : ∀ site ∈ branches o.pending, site ∈ held) : L.Runs held branches (do
        return o.pending ++ (← returnThrough ctx.result flow.hooks)) :=
      L.runBind (runReturnThrough ..) fun _ => L.runPure (by grind)
    refine L.runResults (fun s t h => by rw [h]) fun s => ?_
    split
    · exact runAfter (.load ..) fun _ => hMore _ (by grind)
    · exact hMore _ (by grind)

theorem Follows.tryBlock {catches : List (Variable × StmtCode)}
    (hBody : body.Follows L) (hCatches : ∀ entry ∈ catches, L.known entry.1 ∧ entry.2.Follows L)
    (hLast : ∀ code ∈ last, code.Follows L) : (tryBlock ctx body catches last).Follows L := by
  intro flow held
  refine L.runResults (fun s t h => by rw [h]) fun s => runAfter (L.ofResults fun slots => slots.push none) fun _ =>
    runAfter L.ofHere fun _ => L.runBind (hBody _ _) fun _ => runAfter L.ofHere fun _ => runOnlyIf (runThrow nofun) ?_
  refine L.runBind (runCovering _ hLast flow (by grind [Protection.branches]) (by grind)) fun _ =>
    L.runBind (runHandlers _ _ _ hLast hCatches (by grind)) fun q => ?_
  have hEnd (pending : List PendingExit) (held : List Nat) (hq : ∀ site ∈ q.branches, site ∈ held)
      (hPending : ∀ site ∈ branches pending, site ∈ held) : L.Runs held (fun o => branches o.pending) (do
        land q.done
        setDepth 0
        return (⟨!q.done.isEmpty, pending⟩ : Outcome)) :=
    runLand (by grind [Protection.branches]) fun _ => runDepth fun _ => L.runPure (by grind)
  cases last with
  | none => exact hEnd q.inside _ (by grind) (by grind [Protection.branches])
  | some last =>
    have hAgain := hLast last rfl
    exact L.runBind (runRethrow hAgain ..) fun _ =>
      L.runBind (runResume hAgain _ _ (by grind [Protection.branches]) .breaking) fun _ =>
        L.runBind (runResume hAgain _ _ (by grind [Protection.branches]) .continuing) fun _ =>
          L.runBind (runResume hAgain _ _ (by grind [Protection.branches]) .returning) fun _ =>
            hEnd _ _ (by grind) (by grind [Protection.branches])

theorem Follows.synchronized {lock : Expr} (hLock : (ctx.compile lock).Follows L.toExpressionLaw)
    (hBody : body.Follows L) : (synchronized ctx lock body).Follows L := by
  intro flow held
  refine runAfter hLock.value fun type => runOnlyIf (runThrow nofun) ?_
  refine runAfter (L.ofReserve _ nofun) fun slot => runAfter (L.ofInstruction _) fun _ =>
    runAfter (L.ofInstruction _) fun _ => runAfter (L.ofInstruction _) fun _ => runAfter L.ofHere fun start =>
      L.runBind (hBody _ _) fun o => runIte (runAfter (.load ..) fun _ => runAfter (L.ofInstruction _) fun _ => ?_) ?_
  all_goals
    exact runAfter L.ofHere fun stop => runGotoIf fun done => runAfter L.ofHere fun _ => runDepth fun _ =>
      runAfter (L.ofReserve _ nofun) fun _ => runAfter (L.ofInstruction _) fun _ => runAfter (.load ..) fun _ =>
        runAfter (L.ofInstruction _) fun _ => runAfter (.load ..) fun _ => runAfter (L.ofInstruction _) fun _ =>
          runOnlyIf (L.runHolds (L.ofHandler ..)) <| runDepth fun _ => runLand (by grind) fun _ => L.runPure (by grind)

end StmtCode

/-! Statements. -/

theorem Expr.anyOf_eq_any (p : Expr → Bool) (es : List Expr) : Expr.anyOf p es = es.any (Expr.any p) := by
  induction es with
  | nil => rfl
  | cons e rest ih => rw [Expr.anyOf, List.any_cons, ih]

/-- Whether some part of the initial value of a variable satisfies a test. -/
@[simp]
def VariableDecl.any (p : Expr → Bool) (d : VariableDecl) : Bool := d.init.any (Expr.any p)

mutual

/-- Whether some expression in a statement satisfies a test. -/
@[simp]
def Stmt.any (p : Expr → Bool) : Stmt → Bool
  | .block body => Stmt.anyOf p body
  | .decl decls => decls.any (VariableDecl.any p)
  | .expr e | .raise e => e.any p
  | .ifThen test body | .whileLoop test body | .doLoop body test => test.any p || body.any p
  | .ifElse test body otherwise => test.any p || body.any p || otherwise.any p
  | .forLoop init test update body => Stmt.anyOf p init || test.any (Expr.any p) || Expr.anyOf p update || body.any p
  | .switch selector cases => selector.any p || SwitchCase.anyOf p cases
  | .tryCatch body catches => Stmt.anyOf p body || CatchClause.anyOf p catches
  | .tryFinally body catches last => Stmt.anyOf p body || CatchClause.anyOf p catches || Stmt.anyOf p last
  | .synchronized lock body => lock.any p || Stmt.anyOf p body
  | .ret value => value.any (Expr.any p)
  | .labeled _ body => body.any p
  | .breakTo _ | .continueTo _ | .empty => false

@[simp]
def Stmt.anyOf (p : Expr → Bool) : List Stmt → Bool
  | [] => false
  | s :: rest => s.any p || Stmt.anyOf p rest

@[simp]
def SwitchCase.anyOf (p : Expr → Bool) : List SwitchCase → Bool
  | [] => false
  | .mk labels _ body :: rest => Expr.anyOf p labels || Stmt.anyOf p body || SwitchCase.anyOf p rest

@[simp]
def CatchClause.anyOf (p : Expr → Bool) : List CatchClause → Bool
  | [] => false
  | .mk _ body :: rest => Stmt.anyOf p body || CatchClause.anyOf p rest

end

section

open StmtCode

/-- A law allows statements, given by the tests that some expression in them passes and by their variables. -/
abbrev StatementLaw.Allows (L : StatementLaw ctx) (any : (Expr → Bool) → Bool) (vars : List Variable) : Prop :=
  ExpressionLaw.Allows L.toExpressionLaw ctx.forwardCode any vars

theorem compile_allowed (hParams : ExprCode.ParamsKnown ctx L.known) {e : Expr}
    (he : L.Allows (fun p => e.any p) e.variables) : (ctx.compile e).Follows L.toExpressionLaw :=
  compileWith_follows hParams e he

theorem compile_each (hParams : ExprCode.ParamsKnown ctx L.known) {es : List Expr}
    (hs : L.Allows (fun p => Expr.anyOf p es) (Expr.variablesOf es)) :
    ∀ e ∈ es, (ctx.compile e).Follows L.toExpressionLaw := by
  intro e he
  refine compile_allowed hParams (hs.part ⟨fun p hp => ?_, fun v hv => ?_⟩)
  · rw [Expr.anyOf_eq_any]
    exact List.any_eq_true.2 ⟨e, he, hp⟩
  · rw [Expr.variablesOf_eq]
    exact List.mem_flatMap.2 ⟨e, he, hv⟩

theorem compile_present (hParams : ExprCode.ParamsKnown ctx L.known) {e? : Option Expr}
    (hs : L.Allows (fun p => e?.any (Expr.any p)) (e?.toList.flatMap Expr.variables)) :
    ∀ e ∈ e?, (ctx.compile e).Follows L.toExpressionLaw := by
  rintro e ⟨⟩
  exact compile_allowed hParams hs.part

mutual

/-- The code of a statement follows a law that allows it. -/
theorem compileStmt_follows (hParams : ExprCode.ParamsKnown ctx L.known) : (s : Stmt) →
    L.Allows (fun p => s.any p) s.variables → (compileStmt ctx s).Follows L
  | .block body, hs => by
    rw [compileStmt]
    exact compileBlock_follows hParams body hs
  | .decl decls, hs => .declare (fun d hd => hs.known _ (List.mem_flatMap.2 ⟨d, hd, by simp⟩)) fun d hd =>
    compile_present hParams (hs.part ⟨fun p hp => List.any_eq_true.2 ⟨d, hd, hp⟩, fun v hv =>
      List.mem_flatMap.2 ⟨d, hd, List.mem_cons_of_mem _ hv⟩⟩)
  | .expr e, hs => .ofEmit (compile_allowed hParams hs).effect
  | .ifThen test body, hs => by
    rw [compileStmt]
    exact .ifThen (compile_allowed hParams hs.part) (compileStmt_follows hParams body hs.part)
  | .ifElse test body otherwise, hs => by
    rw [compileStmt]
    exact .ifElse (compile_allowed hParams hs.part) (compileStmt_follows hParams body hs.part)
      (compileStmt_follows hParams otherwise hs.part)
  | .whileLoop test body, hs => by
    rw [compileStmt]
    exact .whileLoop (compile_allowed hParams hs.part) (compileStmt_follows hParams body hs.part)
  | .doLoop body test, hs => by
    rw [compileStmt]
    exact .doLoop (compile_allowed hParams hs.part) (compileStmt_follows hParams body hs.part)
  | .forLoop init test update body, hs => by
    rw [compileStmt]
    have hTest : L.Allows (fun p => test.any (Expr.any p)) (test.toList.flatMap Expr.variables) :=
      hs.part ⟨by simp +contextual, fun v hv => List.mem_append_right _ (List.mem_append_left _ hv)⟩
    exact .forLoop (compileBlock_follows hParams init hs.part) (compile_present hParams hTest)
      (compile_each hParams hs.part) (compileStmt_follows hParams body hs.part)
  | .switch selector cases, hs => by
    rw [compileStmt]
    exact .switch _ (compile_allowed hParams hs.part) (compileCases_follows hParams cases hs.part)
  | .tryCatch body catches, hs => by
    rw [compileStmt]
    exact .tryBlock (compileBlock_follows hParams body hs.part) (compileCatches_follows hParams catches hs.part) nofun
  | .tryFinally body catches last, hs => by
    rw [compileStmt]
    refine .tryBlock (compileBlock_follows hParams body hs.part) (compileCatches_follows hParams catches hs.part) ?_
    rintro _ ⟨⟩
    exact compileBlock_follows hParams last hs.part
  | .synchronized lock body, hs => by
    rw [compileStmt]
    exact .synchronized (compile_allowed hParams hs.part) (compileBlock_follows hParams body hs.part)
  | .ret value, hs => .ret (compile_present hParams hs)
  | .raise value, hs => .raise (compile_allowed hParams hs)
  | .breakTo none, _ | .continueTo none, _ => .jump _
  | .breakTo (some _), _ | .continueTo (some _), _ => fun _ _ => StatementLaw.runThrow nofun
  | .labeled _ body, hs => by
    rw [compileStmt]
    exact compileStmt_follows hParams body hs
  | .empty, _ => .ofEmit (.pure _)

theorem compileBlock_follows (hParams : ExprCode.ParamsKnown ctx L.known) : (body : List Stmt) →
    L.Allows (fun p => Stmt.anyOf p body) (Stmt.variablesOf body) → (compileBlock ctx body).Follows L
  | [], _ => .ofEmit (.pure _)
  | s :: rest, hs => by
    rw [compileBlock]
    exact .andThen (compileStmt_follows hParams s hs.part) (compileBlock_follows hParams rest hs.part)

theorem compileCases_follows (hParams : ExprCode.ParamsKnown ctx L.known) : (cases : List SwitchCase) →
    L.Allows (fun p => SwitchCase.anyOf p cases) (SwitchCase.variablesOf cases) →
      ∀ group ∈ compileCases ctx cases, group.2.Follows L
  | [], _ => nofun
  | .mk _ _ body :: rest, hs => fun group hGroup => by
    rw [compileCases] at hGroup
    rcases List.mem_cons.1 hGroup with rfl | hRest
    · exact compileBlock_follows hParams body hs.part
    · exact compileCases_follows hParams rest hs.part group hRest

theorem compileCatches_follows (hParams : ExprCode.ParamsKnown ctx L.known) : (catches : List CatchClause) →
    L.Allows (fun p => CatchClause.anyOf p catches) (CatchClause.variablesOf catches) →
      ∀ entry ∈ compileCatches ctx catches, L.known entry.1 ∧ entry.2.Follows L
  | [], _ => nofun
  | .mk param body :: rest, hs => fun entry hEntry => by
    rw [compileCatches] at hEntry
    rcases List.mem_cons.1 hEntry with rfl | hRest
    · exact ⟨hs.known param (by simp), compileBlock_follows hParams body hs.part⟩
    · exact compileCatches_follows hParams rest hs.part entry hRest

end

end

end JavaFragment
