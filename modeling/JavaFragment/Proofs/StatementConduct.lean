import JavaFragment.Proofs.ExpressionConduct
/-!
What the code of statements can run into. Branches that are pending while control leaves a statement stay branches
until they are taken up, and a switch has as many keys as it is given targets.
-/
namespace JavaFragment

open Emit

variable {P : CompileError → Prop} {ctx : TypingContext} {C : Conduct ctx}

theorem EmitState.Branches.of_held {s t : EmitState} {held sites : List Nat} (h : s.Branches held)
    (hLater : s.Continues C t) (hSites : ∀ site ∈ sites, site ∈ held) : t.Branches sites :=
  fun site hSite => hLater.branch site (h site (hSites site hSite))

/-- A switch keeps its keys until it is given as many targets. -/
theorem Obeys.switch {α β : Type} {s₀ : EmitState} {M : β → EmitState → Prop} {Q : α → EmitState → Prop}
    (keys : List Int32) {body : Emit β} {default : β → Nat → Nat} {targets : β → Nat → List Nat}
    {f : β → Nat → Emit α} (hTargets : ∀ b stop, (targets b stop).length = keys.length)
    (hBody : ∀ s, s₀.Continues C s → Obeys (discipline C) s M body)
    (hf : ∀ b stop s t, s₀.Continues C s → s.Continues C t → M b s →
      Obeys (discipline C) t Q (f b stop)) :
    Obeys (discipline C) s₀ Q (do
      let site ← CodeBuffer.emitSwitch keys
      Emit.setDepth 0
      let b ← body
      let stop ← Emit.here
      CodeBuffer.patchSwitch site (default b stop) (targets b stop)
      f b stop) := by
  refine .bind (.buffer fun _ _ => CodeBuffer.emit_obeys _) fun site r hr hSite => ?_
  have hSwitch : r.code.HasSwitch site keys.length := ⟨_, _, hSite, by simp⟩
  refine .andThen (.setDepth _) fun _ _ hs => .bind (hBody _ (hr.trans hs)) fun b s hs' hb =>
    .andThen .here fun stop _ hs'' => ?_
  have hSwitch := hs''.switch _ _ (hs'.switch _ _ (hs.switch _ _ hSwitch))
  rw [← hTargets b stop] at hSwitch
  exact .andThen (Obeys.buffer fun _ hb => CodeBuffer.patchSwitch_obeys (hb.switch _ _ hSwitch)).passes fun _ _ hs₃ =>
    hf b stop s _ ((hr.trans hs).trans hs') (hs''.trans hs₃) hb

/-- Conduct, as a law for statements. -/
def Conduct.statements (C : Conduct ctx) : StatementLaw ctx where
  toExpressionLaw := C.expressions
  Runs held _ sites x := ∀ s, s.Branches held → Obeys (discipline C) s (fun a t => t.Branches (sites a)) x
  runPure hSites _ hHeld := .pure fun _ hs => hHeld.of_held hs hSites
  runBind hx hf s hHeld := .bind (hx s hHeld) fun a t hs ha => hf a t (ha.append (hHeld.later hs))
  runHolds hx s _ := (hx s).mono fun _ _ _ _ => EmitState.branches_nil
  runJumps hx s _ := hx s
  runPatch _ hSites _ hHeld := (Obeys.patchAll (hHeld.of_held (.refl (C := C) _) hSites) _).mono fun _ _ _ _ =>
    EmitState.branches_nil
  runSwitch hTargets hBody hf _ hHeld := .switch _ hTargets (fun _ hs => hBody _ (hHeld.later hs))
    fun b stop _ t hs ht hb => hf b stop t ((hb.later ht).append (hHeld.later (hs.trans ht)))
  runResults _ hf _ hHeld := .bind .get fun s' _ hs _ => hf s' _ (hHeld.later hs)
  ofResults _ _ := .modify fun _ _ hSound => ⟨hSound, .of_keeps (.refl _) rfl⟩
  ofHere _ := .here
  ofDepth _ _ := .setDepth _
  ofGoto _ _ := (Obeys.buffer fun _ _ => CodeBuffer.emitGoto_obeys C.lenient _).passes
  ofHandler _ _ _ _ _ := (Obeys.buffer fun _ _ => CodeBuffer.addHandler_obeys C.lenient ..).passes
  ofInstruction _ _ := .emit _
  ofReserve type hHidden _ := .reserve type hHidden

/-! Class literals in statements. -/

abbrev Expr.IsTightIfAny (e? : Option Expr) : Prop := ¬ e?.any (Expr.any Expr.isLooseLiteral) = true

/-- Every class literal in statements is of a type that can be written. -/
abbrev Stmt.AreTight (body : List Stmt) : Prop := ¬ Stmt.anyOf Expr.isLooseLiteral body = true

/-- The code of statements keeps to the discipline of emission. -/
theorem compileBlock_safe (h : ctx.Sound P) {body : List Stmt} (hBody : Stmt.AreTight body) (s : EmitState) :
    Passes (discipline (.ofSafe h.toSafe)) s (compileBlock ctx body .top) :=
  (compileBlock_follows (L := (Conduct.ofSafe h.toSafe).statements) (fun _ _ _ _ => trivial) body
    ⟨fun _ => h.covers.forwardCode, fun _ => hBody, fun _ _ => trivial⟩ .top [] s EmitState.branches_nil).passes

/-- The code of statements reserves locals for their variables and for hidden values at most. -/
theorem compileBlock_reserves {known : Variable → Prop} (h : ctx.Known known) {body : List Stmt}
    (hBody : ∀ v ∈ Stmt.variablesOf body, known v) : Reserving ctx known (compileBlock ctx body .top) := fun s =>
  (compileBlock_follows (L := (Conduct.ofKnown ctx known).statements) h.params body
    ⟨fun _ => h.covers.forwardCode, False.elim, hBody⟩ .top [] s EmitState.branches_nil).passes

end JavaFragment
