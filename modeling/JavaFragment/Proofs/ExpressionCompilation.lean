import JavaFragment.Proofs.AssignmentCode
import JavaFragment.Proofs.ValueTypes
/-!
The code of every expression over integers and truth values carries out its evaluation.
-/
namespace JavaFragment

open Emit Evaluation

variable {types : Nat → Primitive} {z : EmitState} {ctx : TypingContext} {p q : Primitive}

/-! What may be assigned to a type. -/

theorem Value.fits_assignable {view : Viewpoint} {v : Value}
    (hAssign : view.isAssignable (.prim p) (.prim q)) (hFits : v.fits p)
    (hFamily : (JavaType.prim q).isIntFamily) : v.fits q := by
  unfold Viewpoint.isAssignable at hAssign
  split at hAssign
  · next hSame => exact JavaType.prim_inj hSame ▸ hFits
  · split at hAssign
    · cases hAssign
    · change (BaseType.primitive p).widensTo (.primitive q) = true at hAssign
      cases v <;> cases p <;> first | (cases hFits; done) | skip
      all_goals cases q <;> first | (cases hAssign; done) | (cases hFamily; done) | rfl | skip
      all_goals
        simp only [fits, Bool.and_eq_true, decide_eq_true_eq] at hFits ⊢
        omega

theorem Viewpoint.assignable_truth {view : Viewpoint}
    (hAssign : view.isAssignable (.prim p) (.prim q)) : p = .boolean ↔ q = .boolean := by
  unfold Viewpoint.isAssignable at hAssign
  split at hAssign
  · next hSame => rw [JavaType.prim_inj hSame]
  · split at hAssign
    · cases hAssign
    · change (BaseType.primitive p).widensTo (.primitive q) = true at hAssign
      cases p <;> cases q <;> first | (cases hAssign; done) | simp

theorem TypingContext.narrows_int {c : Option Const} (h : narrows c (.prim p) (.prim q)) :
    (p = .boolean ↔ q = .boolean) ∧ ∃ a kind, c = some (.int a kind) ∧ (Value.int a).fits q := by
  unfold narrows at h
  split at h
  · next a kind q' hq =>
    cases hq
    simp only [Bool.and_eq_true, Bool.or_eq_true, decide_eq_true_eq] at h
    obtain ⟨⟨hSmall, hFamily⟩, hHolds⟩ := h
    refine ⟨?_, a, kind, rfl, ?_⟩
    · rcases hSmall with (rfl | rfl) | rfl <;> cases p <;> first | (cases hFamily; done) | simp
    · rcases hSmall with (rfl | rfl) | rfl <;>
        simpa [BaseType.holdsConstant, Value.fits] using hHolds
  · cases h

theorem TypingContext.isCastable_truth (h : isCastable (.prim p) (.prim q)) : p = .boolean ↔ q = .boolean := by
  cases p <;> cases q <;> first | (cases h; done) | simp

theorem TypingContext.compoundFits_prim {op : BinaryOp}
    (h : compoundFits op (.prim p) (.prim q)) : ∃ t, binaryType op (.prim p) (.prim q) = some t := by
  unfold compoundFits at h
  cases hType : binaryType op (.prim p) (.prim q) with
  | none =>
    rw [hType, Bool.and_false, Bool.or_false] at h
    exact absurd (Bool.and_eq_true_iff.1 h).2 (by intro h; cases h)
  | some t => exact ⟨t, rfl⟩

namespace ExprCode

variable {forward : Emit JavaType}

theorem foreseen {known : Variable → Prop} {e : Expr} (he : e.Discrete known) {t : JavaType}
    (hType : ctx.typeOf e = .ok t) : Foreseen ctx e := by
  intro b hKnown
  unfold TypingContext.knownTruth at hKnown
  split at hKnown
  · next hConst =>
    cases hKnown
    obtain ⟨p, v, rfl, hMeans, hEval⟩ := constant_value e (Expr.scalar_of_discrete e he) hType hConst
    cases hMeans
    exact hEval
  · cases hKnown

/-- The code of an expression over integers and truth values grows. -/
theorem discrete_grows : (e : Expr) → e.Discrete (ctx.Knows types z) →
    (compileWith ctx forward e).Grows ctx (some fun n => .prim (types n))
  | .int _ _, _ => .ofValue _ (.bind (.pushInt _) fun _ => .pure _)
  | .long _, _ => .ofValue _ (.bind (.pushLong _) fun _ => .pure _)
  | .bool _, _ => .ofValue _ (.bind (.pushTruth _) fun _ => .pure _)
  | .var _, h => .ofVariable h.agrees
  | .unary op e, h => .ofUnary op e (discrete_grows e h)
  | .binary op l r, h => .ofBinary op l r (discrete_grows l h.1) (discrete_grows r h.2)
  | .compare op l r, h => .ofCompare op l r (discrete_grows l h.1) (discrete_grows r h.2)
  | .and l r, h => .ofAnd l r (discrete_grows l h.1) (discrete_grows r h.2)
  | .or l r, h => .ofOr l r (discrete_grows l h.1) (discrete_grows r h.2)
  | .not e, h => .ofNot e (discrete_grows e h)
  | .cast (.primitive p) e, h => .ofCast (.primitive p) e (discrete_grows e h.2)
  | .conditional c a b, h =>
    .ofConditional c a b (discrete_grows c h.1) (discrete_grows a h.2.1) (discrete_grows b h.2.2)
  | .assign op (.var v) value, h => .ofAssign op (.var v) value (discrete_grows (.var v) h.1) (discrete_grows value h.2)
  | .incDec increases before (.var v), h => .ofIncDec increases before (.var v) (discrete_grows (.var v) h)

/-- The code of an expression over integers and truth values carries out its evaluation. -/
theorem discrete_evaluates (hz : z.Sound types) : (e : Expr) → e.Discrete (ctx.Knows types z) →
    ∀ {t}, ctx.typeOf e = .ok t →
      ∃ p, t = .prim p ∧ p.isDiscrete ∧ (compileWith ctx forward e).Evaluates types z ctx e p
  | .int a kind, he, t, hType => by
    have hKnown := foreseen he hType
    rw [TypingContext.typeOf_int] at hType
    cases hType
    exact ⟨_, rfl, Value.isDiscrete_of_fits he, .int hz he hKnown⟩
  | .long a, he, t, hType => by
    have hKnown := foreseen he hType
    rw [TypingContext.typeOf_long] at hType
    cases hType
    exact ⟨_, rfl, rfl, .long hz hKnown⟩
  | .bool b, he, t, hType => by
    have hKnown := foreseen he hType
    rw [TypingContext.typeOf_bool] at hType
    cases hType
    exact ⟨_, rfl, rfl, .bool hKnown⟩
  | .var v, he, t, hType => by
    have hKnown := foreseen he hType
    rw [TypingContext.typeOf_var, he.type] at hType
    cases hType
    exact ⟨_, rfl, he.discrete, .ofVariable he hKnown⟩
  | .unary op e, he, t, hType => by
    obtain ⟨a, hTypeE, hUnary⟩ := TypingContext.typeOf_unary.1 hType
    obtain ⟨p, rfl, hp, hCode⟩ := discrete_evaluates hz e he hTypeE
    obtain ⟨rfl, hKind⟩ := TypingContext.unaryType_discrete hUnary hp
    refine ⟨_, rfl, ?_, .ofUnary hz hCode hType hKind (foreseen he hType)⟩
    rcases hKind with hKind | hKind <;> rw [hKind] <;> rfl
  | .binary op l r, he, t, hType => by
    obtain ⟨a, b, hTypeL, hTypeR, hBinary⟩ := TypingContext.typeOf_binary.1 hType
    obtain ⟨p, rfl, hp, hl⟩ := discrete_evaluates hz l he.1 hTypeL
    obtain ⟨q, rfl, hq, hr⟩ := discrete_evaluates hz r he.2 hTypeR
    obtain ⟨k, rfl, hTyped⟩ := TypingContext.binaryType_discrete hBinary hp hq
    exact ⟨k, rfl, hTyped.isDiscrete, .ofBinary hl hr
      hType hTyped (foreseen he hType)⟩
  | .compare op l r, he, t, hType => by
    obtain ⟨a, b, hTypeL, hTypeR, hComparable, rfl⟩ := TypingContext.typeOf_compare.1 hType
    obtain ⟨p, rfl, hp, hl⟩ := discrete_evaluates hz l he.1 hTypeL
    obtain ⟨q, rfl, hq, hr⟩ := discrete_evaluates hz r he.2 hTypeR
    exact ⟨_, rfl, rfl, .ofCompare hl hr hTypeL hTypeR
      hp hq hComparable (foreseen he hType)⟩
  | .and l r, he, t, hType => by
    obtain ⟨hTypeL, hTypeR, rfl⟩ := TypingContext.typeOf_and.1 hType
    obtain ⟨_, hSame, _, hl⟩ := discrete_evaluates hz l he.1 hTypeL
    cases hSame
    obtain ⟨_, hSame, _, hr⟩ := discrete_evaluates hz r he.2 hTypeR
    cases hSame
    exact ⟨_, rfl, rfl, .ofAnd hl hr
      (foreseen he.1 hTypeL) (foreseen he hType)⟩
  | .or l r, he, t, hType => by
    obtain ⟨hTypeL, hTypeR, rfl⟩ := TypingContext.typeOf_or.1 hType
    obtain ⟨_, hSame, _, hl⟩ := discrete_evaluates hz l he.1 hTypeL
    cases hSame
    obtain ⟨_, hSame, _, hr⟩ := discrete_evaluates hz r he.2 hTypeR
    cases hSame
    exact ⟨_, rfl, rfl, .ofOr hl hr
      (foreseen he.1 hTypeL) (foreseen he hType)⟩
  | .not e, he, t, hType => by
    obtain ⟨hTypeE, rfl⟩ := TypingContext.typeOf_not.1 hType
    obtain ⟨_, hSame, _, hCode⟩ := discrete_evaluates hz e he hTypeE
    cases hSame
    exact ⟨_, rfl, rfl, .ofNot hCode (foreseen he hType)⟩
  | .cast (.primitive q) e, he, t, hType => by
    obtain ⟨a, hTypeE, hCastable, rfl⟩ := TypingContext.typeOf_cast.1 hType
    obtain ⟨p, rfl, hp, hCode⟩ := discrete_evaluates hz e he.2 hTypeE
    exact ⟨q, rfl, he.1, .ofCast hCode he.1
      (TypingContext.isCastable_truth hCastable) (foreseen he hType)⟩
  | .conditional test a b, he, t, hType => by
    obtain ⟨hTypeC, ta, tb, hTypeA, hTypeB, hBranch⟩ := TypingContext.typeOf_conditional.1 hType
    obtain ⟨_, hSame, _, hc⟩ := discrete_evaluates hz test he.1 hTypeC
    cases hSame
    obtain ⟨p, rfl, hp, ha⟩ := discrete_evaluates hz a he.2.1 hTypeA
    obtain ⟨q, rfl, hq, hb⟩ := discrete_evaluates hz b he.2.2 hTypeB
    obtain ⟨k, rfl, hk, hpk, hqk⟩ := TypingContext.branchType_discrete hBranch hp hq
    exact ⟨k, rfl, hk, .ofConditional hc ha
      hb hType hk hpk hqk (foreseen he hType)⟩
  | .assign none (.var v) value, he, t, hType => by
    have hInit (items : List Expr) (h : value = .arrayInit items) : False := by
      rw [h] at he
      exact he.2
    obtain ⟨hVar, source, hTypeV, hAssign⟩ := (TypingContext.typeOf_assign hInit).1 hType
    obtain ⟨p, rfl, hp, hCode⟩ := discrete_evaluates hz value he.2 hTypeV
    rw [he.1.type] at hVar
    cases hVar
    refine ⟨_, rfl, he.1.discrete, .ofAssign hz he.1 hCode ?_ ?_
      (foreseen he hType)⟩
    · exact hAssign.elim Viewpoint.assignable_truth fun h => (TypingContext.narrows_int h).1
    · rintro a kind rfl hFamily
      rw [TypingContext.typeOf_int] at hTypeV
      cases hTypeV
      rcases hAssign with hAssign | hNarrows
      · exact Value.fits_assignable hAssign he.2 hFamily
      · obtain ⟨_, b, _, hConst, hFits⟩ := TypingContext.narrows_int hNarrows
        rw [TypingContext.constant, constantWith] at hConst
        cases hConst
        exact hFits
  | .assign (some op) (.var v) value, he, t, hType => by
    obtain ⟨hVar, source, hTypeV, hCompound⟩ := TypingContext.typeOf_compound.1 hType
    obtain ⟨q, rfl, hq, hCode⟩ := discrete_evaluates hz value he.2 hTypeV
    rw [he.1.type] at hVar
    cases hVar
    obtain ⟨k, hBinary⟩ := TypingContext.compoundFits_prim hCompound
    obtain ⟨k, rfl, hTyped⟩ := TypingContext.binaryType_discrete hBinary he.1.discrete hq
    exact ⟨_, rfl, he.1.discrete, .ofCompound hz he.1 hCode hTypeV hBinary
      hTyped (foreseen he hType)⟩
  | .incDec increases before (.var v), he, t, hType => by
    have hKnown := foreseen he hType
    obtain ⟨hVar, hNumber⟩ := TypingContext.typeOf_incDec.1 hType
    rw [he.type] at hVar
    cases hVar
    exact ⟨_, rfl, he.discrete, .ofIncDec hz he hNumber hKnown⟩

end ExprCode

/-! Evaluation in stores in which the variables have values. -/

namespace Evaluation

/-- Whether the variables that satisfy a condition have values. -/
def Assigned (known : Variable → Prop) (σ : Store) : Prop := ∀ v, known v → (σ v.number).isSome

/-- What starts where variables have values does not miss one, and leaves them with values. -/
structure Complete {α : Type} (known : Variable → Prop) (x : Evaluation α) : Prop where
  ok : ∀ σ a τ, Assigned known σ → x σ = .ok a τ → Assigned known τ
  error : ∀ σ fault τ, Assigned known σ → x σ = .error fault τ → fault ≠ .unassigned

namespace Complete

variable {known : Variable → Prop} {α β : Type}

theorem pure (a : α) : Complete known (pure a) where
  ok _ _ _ hσ h := by cases h; exact hσ
  error _ _ _ _ h := by cases h

theorem throw {fault : Fault} (hFault : fault ≠ .unassigned) : Complete known (throw fault : Evaluation α) where
  ok _ _ _ _ h := by cases h
  error _ _ _ _ h := by cases h; exact hFault

theorem bind {x : Evaluation α} {f : α → Evaluation β} (hx : Complete known x)
    (hf : ∀ a, Complete known (f a)) : Complete known (x >>= f) := by
  have hBind (σ : Store) : (x >>= f) σ = match x σ with
    | .ok a τ => f a τ
    | .error fault τ => .error fault τ := by
    show EStateM.bind x f σ = _
    unfold EStateM.bind
    cases x σ <;> rfl
  constructor
  · intro σ b τ hσ h
    rw [hBind] at h
    split at h
    · next hFirst => exact (hf _).ok _ _ _ (hx.ok _ _ _ hσ hFirst) h
    · cases h
  · intro σ fault τ hσ h
    rw [hBind] at h
    split at h
    · next hFirst => exact (hf _).error _ _ _ (hx.ok _ _ _ hσ hFirst) h
    · next hFirst => cases h; exact hx.error _ _ _ hσ hFirst

theorem answer {result : Except Fault α} (h : result ≠ .error .unassigned) : Complete known (answer result) := by
  cases result with
  | ok a => exact .pure a
  | error fault => exact .throw fun hSame => h (by rw [hSame])

theorem expect (a : Option α) : Complete known (expect .illTyped a) := by
  cases a with
  | some a => exact .pure a
  | none => exact .throw (by decide)

theorem truth (v : Value) : Complete known (truth v) := by
  cases v with
  | bool b => exact .pure b
  | _ => exact .throw (by decide)

theorem read {v : Variable} (hv : known v) : Complete known (read v.number) := by
  have hRead (σ : Store) : Evaluation.read v.number σ = Evaluation.expect .unassigned (σ v.number) σ := rfl
  constructor
  · intro σ a τ hσ h
    rw [hRead] at h
    cases hValue : σ v.number <;> rw [hValue] at h <;> cases h
    exact hσ
  · intro σ fault τ hσ h
    rw [hRead] at h
    obtain ⟨w, hw⟩ := Option.isSome_iff_exists.1 (hσ v hv)
    rw [hw] at h
    cases h

theorem write (n : Nat) (w : Value) : Complete known (write n w) where
  ok σ _ τ hσ h v hv := by
    cases h
    dsimp only
    split
    · rfl
    · exact hσ v hv
  error _ _ _ _ h := by cases h

end Complete

end Evaluation

theorem Value.unary_fault (op : UnaryOp) (v : Value) : unary op v ≠ .error .unassigned := by
  cases v <;> simp [unary]

theorem BinaryOp.exact_fault (op : BinaryOp) (bits : Nat) (a b : Int) {f : Int → Value} :
    (op.exact bits a b).map f ≠ .error .unassigned := by
  by_cases hb : b = 0 <;> cases op <;> simp [exact, Except.map, hb]

theorem Value.binary_fault (op : BinaryOp) (v w : Value) : binary op v w ≠ .error .unassigned := by
  unfold binary
  split
  · exact op.exact_fault _ _ _
  · split
    · exact op.exact_fault _ _ _
    · exact op.exact_fault _ _ _
  · exact op.exact_fault _ _ _
  · exact op.exact_fault _ _ _
  · split <;> simp
  · simp

theorem Value.compare_fault (op : CompareOp) (v w : Value) : compare op v w ≠ .error .unassigned := by
  unfold compare
  split
  · simp
  · simp
  · split <;> simp

theorem eval_complete {known : Variable → Prop} : (e : Expr) → e.Discrete known → Complete known (eval ctx e)
  | .int _ _, _ | .long _, _ | .bool _, _ => .pure _
  | .var _, h => .read h
  | .unary op e, h => .bind (eval_complete e h) fun _ => .answer (Value.unary_fault op _)
  | .binary op l r, h => .bind (eval_complete l h.1) fun _ => .bind (eval_complete r h.2) fun _ =>
    .answer (Value.binary_fault op _ _)
  | .compare op l r, h => .bind (eval_complete l h.1) fun _ => .bind (eval_complete r h.2) fun _ =>
    .bind (.answer (Value.compare_fault op _ _)) fun _ => .pure _
  | .and l r, h => .bind (eval_complete l h.1) fun _ => .bind (.truth _) fun b => by
    cases b
    · exact .pure _
    · exact .bind (eval_complete r h.2) fun _ => .bind (.truth _) fun _ => .pure _
  | .or l r, h => .bind (eval_complete l h.1) fun _ => .bind (.truth _) fun b => by
    cases b
    · exact .bind (eval_complete r h.2) fun _ => .bind (.truth _) fun _ => .pure _
    · exact .pure _
  | .not e, h => .bind (eval_complete e h) fun _ => .bind (.truth _) fun _ => .pure _
  | .cast (.primitive p) e, h => .bind (eval_complete e h.2) fun _ => .expect _
  | .conditional c a b, h => .bind (eval_complete c h.1) fun _ => .bind (.truth _) fun pick => by
    cases pick
    · exact .bind (eval_complete b h.2.2) fun _ => .expect _
    · exact .bind (eval_complete a h.2.1) fun _ => .expect _
  | .assign none (.var v) value, h => .bind (eval_complete value h.2) fun _ =>
    .bind (.expect _) fun _ => .bind (.write _ _) fun _ => .pure _
  | .assign (some op) (.var v) value, h => .bind (.read h.1) fun _ => .bind (eval_complete value h.2) fun _ =>
    .bind (.answer (Value.binary_fault op _ _)) fun _ => .bind (.expect _) fun _ => .bind (.write _ _) fun _ => .pure _
  | .incDec increases before (.var v), h => .bind (.read h) fun _ =>
    .bind (.answer (Value.binary_fault _ _ _)) fun _ =>
      .bind (.bind (.expect _) fun _ => .bind (.write _ _) fun _ => .pure _) fun _ => .pure _

/-- The code of an expression over integers and truth values computes its value. It runs from where it
starts to just behind its end, with the value on top of the stack and the variables as evaluation leaves
them; or evaluation divides by zero, and it throws with the variables as they are then. -/
theorem expression_code_correct {e : Expr} {s z : EmitState} {t t' : JavaType}
    (he : e.Discrete (ctx.Knows types s)) (hType : ctx.typeOf e = .ok t)
    (hEmit : (ctx.compile e).value s = .ok t' z) (hCode : s.code.Consistent)
    (hSlots : s.SlotsApart fun n => .prim (types n)) (hPool : z.pool.entries.size ≤ 65535) :
    t' = t ∧ ∀ (env : Environment) (f : MethodFrame env) (σ : Store), f.pc = s.code.pc →
      Assigned (ctx.Knows types s) σ → z.Represents types σ f.locals →
        (∃ p v σ' locals, eval ctx e σ = .ok v σ' ∧ t = .prim p ∧ v.fits p ∧
          z.Represents types σ' locals ∧ z.Untouched types f.locals locals ∧
          z.program.Runs (.running f)
            (.running { f with pc := z.code.pc, stack := v.words ++ f.stack, locals := locals })) ∨
        ∃ σ' pc stack locals, eval ctx e σ = .error .divisionByZero σ' ∧
          z.Represents types σ' locals ∧ z.Untouched types f.locals locals ∧
          z.program.Runs (.running f) (Program.throwNew
            { f with pc := pc, stack := stack, locals := locals } env.arithmeticException) := by
  have hGrows : s.Grows (fun n => .prim (types n)) z := (ExprCode.discrete_grows e he).value.grows s t' z hEmit
  have hSize := hGrows.later.slots_size
  have hKnows : ctx.Knows types s = ctx.Knows types z := by
    funext v
    refine propext ⟨fun h => { h with number := ?_ }, fun h => { h with number := ?_ }⟩
    · rw [hSize]
      exact h.number
    · rw [← hSize]
      exact h.number
  have hz : z.Sound types := ⟨hPool, hGrows.apart hSlots⟩
  refine ⟨(compileWith_returns e hType).result s t' z hEmit, fun env f σ hPc hσ hRep => ?_⟩
  obtain ⟨p, rfl, -, hCorrect⟩ := ExprCode.discrete_evaluates hz e (hKnows ▸ he) hType
  have hEnds := hCorrect.value.carries s t' z (fun _ => True) hEmit hCode (.refl _ z)
    (fun _ _ _ => trivial) env f f.stack σ hPc rfl hRep
  cases hResult : eval ctx e σ with
  | ok v σ' =>
    rw [hResult] at hEnds
    obtain ⟨⟨-, hFits⟩, locals, steps, hRep', hSame, -, hRun⟩ := hEnds
    exact .inl ⟨p, v, σ', locals, rfl, rfl, hFits, hRep', hSame, steps, hRun⟩
  | error fault σ' =>
    rw [hResult] at hEnds
    cases fault with
    | divisionByZero =>
      obtain ⟨pc, stack, locals, -, hRep', hSame, hRun⟩ := hEnds
      exact .inr ⟨σ', pc, stack, locals, rfl, hRep', hSame, hRun⟩
    | unassigned => exact absurd rfl ((eval_complete e he).error σ _ σ' hσ hResult)
    | illTyped => exact hEnds.elim

theorem expression_code_correct_quotient : ∃ (e : Expr) (s z : EmitState),
    e = .binary .div (.int 7 .int) (.var ⟨0, "x", .primitive .int⟩) ∧ s.slots = #[some 0] ∧
      ((default : TypingContext).compile e).value s = .ok .int z ∧
      ∀ (env : Environment) (f : MethodFrame env), f.pc = 0 → f.locals 0 = .int 2 →
        ∃ locals, z.program.Runs (.running f)
          (.running { f with pc := z.code.pc, stack := .int 3 :: f.stack, locals := locals }) := by
  let e : Expr := .binary .div (.int 7 .int) (.var ⟨0, "x", .primitive .int⟩)
  let s : EmitState := ⟨.withLocals 1, default, #[some 0], [], #[]⟩
  have hSlot (n : Nat) (slot : UInt16) (h : s.slot? n = some slot) : n = 0 ∧ slot = 0 := by
    cases n with
    | zero => exact ⟨rfl, (Option.some.inj h).symm⟩
    | succ n => simp [EmitState.slot?, s] at h
  have hApart : s.SlotsApart fun _ => .prim .int :=
    { below := fun n slot h => by
        obtain ⟨rfl, rfl⟩ := hSlot n slot h
        decide
      apart := fun n m a b hne hn hm => absurd ((hSlot n a hn).1.trans (hSlot m b hm).1.symm) hne }
  refine ⟨e, s, _, rfl, rfl, rfl, fun env f hPc hLocal => ?_⟩
  obtain ⟨-, hRuns⟩ := @expression_code_correct (fun _ => .int) default e s _ .int .int
    ⟨rfl, by decide, rfl, rfl⟩ rfl rfl ⟨rfl, rfl, by simp [s, CodeBuffer.withLocals]⟩ hApart (by decide)
  have hRuns := hRuns env f (fun n => if n = 0 then some (.int 2) else none) hPc
    (fun v hv => congrArg Option.isSome (if_pos (Nat.lt_one_iff.1 hv.number)))
    { fits := fun n v h => by
        split at h <;> cases h
        rfl
      holds := fun n v slot h hSame => by
        split at h <;> cases h
        obtain rfl := (hSlot n slot hSame).2
        exact hLocal }
  rcases hRuns with ⟨p, v, σ', locals, hEval, -, -, -, -, hRun⟩ | ⟨σ', -, -, -, hEval, -⟩
  · cases hEval
    exact ⟨locals, hRun⟩
  · cases hEval

end JavaFragment
