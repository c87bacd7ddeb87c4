import JavaFragment.Proofs.Conduct
/-!
What the code of expressions can run into. It reserves locals for its variables at most. In surroundings with
well-formed classes, where no recorded type is that of `null`, the code of every expression keeps to the discipline of
emission.
-/
namespace JavaFragment

open Emit

variable {P : CompileError → Prop} {ctx : TypingContext} {C : Conduct ctx} {s₀ : EmitState}

theorem Obeys.truthValue {jump : Bool → Emit (List Nat)}
    (hJump : ∀ s, Obeys (discipline C) s (fun sites t => t.Branches sites) (jump false)) :
    Passes (discipline C) s₀ (ExprCode.truthValue jump) := by
  refine .andThen .depth fun _ _ _ => .bind (hJump _) fun sites _ _ hSites => .andThen (.emit _) fun _ _ hs =>
    .ite (fun _ => .done) fun _ => .bind (.branch _) fun done _ hs' hDone =>
      .andThen (.land ((hSites.later hs).later hs')) fun _ _ hs => ?_
  have hDone := (EmitState.branches_singleton hDone).later hs
  exact .andThen (.setDepth _) fun _ _ hs => .andThen (.emit _) fun _ _ hs' =>
    .andThen (.land ((hDone.later hs).later hs')) fun _ _ _ => .done

theorem Obeys.choice {test : Emit (List Nat)} {x y : Emit JavaType} {f g : JavaType → Emit Unit}
    {result : JavaType} (hTest : ∀ s, Obeys (discipline C) s (fun sites t => t.Branches sites) test)
    (hx : ∀ s, Passes (discipline C) s x) (hf : ∀ type s, Passes (discipline C) s (f type))
    (hy : ∀ s, Passes (discipline C) s y) (hg : ∀ type s, Passes (discipline C) s (g type)) :
    Passes (discipline C) s₀ (do
      let depth ← Emit.depth
      let otherwise ← test
      f (← x)
      let done ← goto
      Emit.land otherwise
      Emit.setDepth depth
      g (← y)
      Emit.land [done]
      return result) := by
  refine .andThen .depth fun _ _ _ => .bind (hTest _) fun _ _ _ hOtherwise => .andThen (hx _) fun _ _ hs =>
    .andThen (hf _ _) fun _ _ hs' => ?_
  have hOtherwise := (hOtherwise.later hs).later hs'
  refine .bind (.branch _) fun done _ hs hDone => .andThen (.land (hOtherwise.later hs)) fun _ _ hs => ?_
  have hDone := (EmitState.branches_singleton hDone).later hs
  exact .andThen (.setDepth _) fun _ _ hs => .andThen (hy _) fun _ _ hs' => .andThen (hg _ _) fun _ _ hs'' =>
    .andThen (.land (((hDone.later hs).later hs').later hs'')) fun _ _ _ => .done

/-- Conduct, as a law for expressions. -/
def Conduct.expressions (C : Conduct ctx) : ExpressionLaw ctx where
  toLaw := C.law
  known := C.known
  fair := C.fair
  safe := C.safe
  ofSlot hKnown _ := .slotOf hKnown
  Jumps sites x := ∀ s, Obeys (discipline C) s (fun a t => t.Branches (sites a)) x
  jumpNone hNone _ := .pure fun _ _ => by
    rw [hNone]
    exact EmitState.branches_nil
  jumpThrow h _ := .throw h
  jumpAfter hx hf s := .andThen (hx s) fun b t _ => hf b t
  jumpBranch b _ := (Obeys.branch b).mono fun _ _ _ h => EmitState.branches_singleton h
  jumpReturn f hx hSame s := .bind (hx s) fun b _ _ hSites => .pure fun _ hs => by
    rw [hSame]
    exact hSites.later hs
  jumpBoth hx hy _ := .bind (hx _) fun _ _ _ hFirst => .bind (hy _) fun _ _ hs hSecond =>
    .pure fun _ hs' => ((hFirst.later hs).append hSecond).later hs'
  jumpSkip hx hy _ := .bind (hx _) fun _ _ _ hSkip => .bind (hy _) fun _ _ hs hSites =>
    .andThen (.land (hSkip.later hs)) fun _ _ hs => .pure fun _ hs' => (hSites.later hs).later hs'
  ofTruth hJump _ := .truthValue hJump
  ofChoice _ hTest hx hf hy hg _ := .choice hTest hx hf hy hg
  Places x := ∀ s, Obeys (discipline C) s (fun (l : Location) _ => C.strict → l.Declared ctx) x
  Writes _ _ x := ∀ s, Passes (discipline C) s x
  placeThrow h _ := .throw h
  placeAfter hx hf s := .andThen (hx s) fun a t _ => hf a t
  placeSlot hKnown _ _ := .andThen (.slotOf hKnown) fun _ _ _ => .pure fun _ _ _ => trivial
  placeField hField _ := .pure fun _ _ => hField
  placeElement _ _ := .pure fun _ _ _ => trivial
  ofPlace hx hf s := .bind (hx s) fun l t _ hl => hf l hl t
  writeNone := id
  writeAfter hx hf s := .andThen (hx s) fun a t _ => hf a t
  writeLocal _ _ hk _ := .andThen (.emit _) fun u t _ => hk u t

/-- Surroundings whose recorded call is on a target that can be compiled. -/
structure TypingContext.Sound (P : CompileError → Prop) (ctx : TypingContext) : Prop extends ctx.Safe P where
  proceed : ∀ call target, ctx.bindings.proceed = some call → call.target = some target → target.IsTight

theorem TypingContext.Sound.covers (h : ctx.Sound P) : (Conduct.ofSafe h.toSafe).expressions.Covers :=
  ⟨fun _ _ _ _ => trivial, fun call target hCall hTarget =>
    ⟨fun _ => h.proceed call target hCall hTarget, fun _ _ => trivial⟩⟩

/-- The code of an expression keeps to the discipline of emission. -/
theorem TypingContext.Sound.compile (h : ctx.Sound P) {e : Expr} (he : e.IsTight) :
    (ctx.compile e).Follows (Conduct.ofSafe h.toSafe).expressions :=
  compile_follows h.covers (fun _ => he) fun _ _ => trivial

/-- Emission that reserves locals only for values of its own and for variables that are known. -/
abbrev Emit.Reserving {α : Type} (ctx : TypingContext) (known : Variable → Prop) (x : Emit α) : Prop :=
  ∀ s, Passes (discipline (.ofKnown ctx known)) s x

variable {known : Variable → Prop}

theorem TypingContext.Known.covers (h : ctx.Known known) : (Conduct.ofKnown ctx known).expressions.Covers :=
  ⟨h.params, fun _ target hCall hTarget => ⟨False.elim, h.proceed target (by rw [hCall, Option.bind_some, hTarget])⟩⟩

theorem compile_reserves (h : ctx.Known known) {e : Expr} (he : ∀ v ∈ e.variables, known v) :
    Reserving ctx known (ctx.compile e).value := (compile_follows h.covers False.elim he).value

end JavaFragment
