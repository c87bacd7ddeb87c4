import JavaFragment.Proofs.ExpressionCode
/-!
The code of each form of expression over integers and truth values carries out its evaluation, if the
code of its parts does.
-/
namespace JavaFragment

open Emit Evaluation

/-- A variable that has a slot, a type among integers and truth values, and the same type wherever it
is compiled. -/
structure TypingContext.Knows (ctx : TypingContext) (types : Nat → Primitive) (z : EmitState)
    (v : Variable) : Prop where
  number : v.number < z.slots.size
  type : ctx.variableType v = .ok (.prim (types v.number))
  discrete : (types v.number).isDiscrete

theorem TypingContext.Knows.agrees {ctx : TypingContext} {types : Nat → Primitive} {z : EmitState}
    {v : Variable} (hv : ctx.Knows types z v) : ctx.Agrees (some fun n => .prim (types n)) v :=
  fun given hGiven type hType => by
    cases hGiven
    rw [hv.type] at hType
    exact Except.ok.inj hType

namespace ExprCode

variable {types : Nat → Primitive} {z : EmitState} {ctx : TypingContext} {operand : Expr} {code : ExprCode}
  {k p q : Primitive} {op : CompareOp}

theorem Evaluates.int (hz : z.Sound types) {a : Int64} {kind : IntKind}
    (hFits : (Value.int a.toInt32).fits kind.primitive) (hKnown : Foreseen ctx (.int a kind)) :
    (ExprCode.ofValue ctx (.int a kind) do
      Emit.pushInt a.toInt32
      return .prim kind.primitive).Evaluates types z ctx (.int a kind) kind.primitive :=
  .ofValue hKnown (.bind (.pushInt _) fun _ => .pure _) <|
    (Does.pushInt hz _).andReturn fun _ _ hSame => ⟨rfl, hSame ▸ hFits⟩

theorem Evaluates.long (hz : z.Sound types) {a : Int64} (hKnown : Foreseen ctx (.long a)) :
    (ExprCode.ofValue ctx (.long a) do
      Emit.pushLong a
      return .long).Evaluates types z ctx (.long a) .long :=
  .ofValue hKnown (.bind (.pushLong _) fun _ => .pure _) <|
    (Does.pushLong hz _).andReturn fun _ _ hSame => ⟨rfl, hSame ▸ rfl⟩

theorem Evaluates.bool {b : Bool} (hKnown : Foreseen ctx (.bool b)) : (ExprCode.ofValue ctx (.bool b) do
      Emit.pushTruth b
      return .boolean).Evaluates types z ctx (.bool b) .boolean :=
  .ofValue hKnown (.bind (.pushTruth _) fun _ => .pure _) <|
    (Does.pushTruth b).andReturn fun _ _ hSame => ⟨rfl, hSame ▸ rfl⟩

theorem Evaluates.ofVariable {v : Variable} (hv : ctx.Knows types z v) (hKnown : Foreseen ctx (.var v)) :
    (ofVariable ctx v).Evaluates types z ctx (.var v) (types v.number) := by
  have hGrows := Grows.ofVariable hv.agrees
  refine { Evaluates.ofValue hKnown hGrows.value ?_ with grows := hGrows }
  refine .lift fun type hType => ?_
  rw [hv.type] at hType
  cases hType
  refine .withSlot hv.number fun slot hSlot => ?_
  exact (Does.load hSlot).andReturn fun _ _ hFits => ⟨rfl, hFits⟩

/-! Operators. -/

theorem unaryOperator_does (hz : z.Sound types) (op : UnaryOp) {r : Primitive}
    (hKind : r = .int ∨ r = .long) {v : Value} (hFits : v.fits r) :
    Does types z (unaryOperator op (.prim r)) v.words (answer (Value.unary op v)) Value.words
      (fun _ w => w.fits r) := by
  rcases hKind with rfl | rfl
  · obtain ⟨a, rfl⟩ := Value.eq_int hFits rfl
    rw [Value.unary_int]
    cases op with
    | plus => exact .nothing rfl rfl
    | neg => exact .instruction (fun _ _ => rfl) rfl
    | bitNot =>
      have hOnes : Does types z (emit (.iconst ⟨0, by decide⟩)) [] (pure (.int (-1))) Value.words
          fun _ r => r = .int (-1) := .value fun _ _ => rfl
      refine .andThen (hOnes.onTop _) fun _ _ => .instruction (fun rest locals => ?_) rfl
      show Effect.done (.int (a ^^^ -1) :: rest) locals = _
      rw [Int32.xor_neg_one]
      rfl
  · obtain ⟨a, rfl⟩ := Value.eq_long hFits rfl
    rw [Value.unary_long]
    cases op with
    | plus => exact .nothing rfl rfl
    | neg => exact .instruction (fun _ _ => rfl) rfl
    | bitNot =>
      refine .andThen ((Does.pushLong hz (-1)).onTop _) fun _ _ => .instruction (fun rest locals => ?_) rfl
      show Effect.done (.long (a ^^^ -1) :: .filler :: rest) locals = _
      rw [Int64.xor_neg_one]
      rfl

theorem Evaluates.ofUnary (hz : z.Sound types) {op : UnaryOp} (hCode : code.Evaluates types z ctx operand p)
    (hType : ctx.typeOf (.unary op operand) = .ok (.prim p.promoted))
    (hKind : p.promoted = .int ∨ p.promoted = .long) (hKnown : Foreseen ctx (.unary op operand)) :
    (ofUnary ctx op operand code).Evaluates types z ctx (.unary op operand) p.promoted := by
  have := hCode.extending
  refine .ofValue hKnown (Follows.ofUnary op operand hCode.grows).value ?_
  refine .lift fun type hSame => ?_
  rw [hType] at hSame
  cases hSame
  rw [eval]
  refine .bind hCode.value ?_
  rintro t v ⟨rfl, hFits⟩
  have hPromoted := Value.fits_promoted hFits
  have hTruth : p = .boolean ↔ p.promoted = .boolean := by cases p <;> simp [Primitive.promoted]
  refine .andThen (.coerce (Value.isDiscrete_of_fits hPromoted) hTruth hFits
    (Value.convert_of_fits hPromoted)) fun _ _ => ?_
  exact (unaryOperator_does hz op hKind hPromoted).andReturn fun _ _ hResult => ⟨rfl, hResult⟩

section

variable {op : BinaryOp} {p q k : Primitive}

/-- An operator applied to a value on the stack and to one that is pushed, before what follows. -/
theorem operate_does {γ δ : Type} (hTyped : op.Typed p q k) {a : Value} (hFitsA : a.fits p)
    {value : Emit JavaType} [Extending value] {evR : Evaluation Value}
    (hValue : Does types z value [] evR Value.words fun t v => t = .prim q ∧ v.fits q)
    {rest : Emit γ} {ev : Value → Evaluation δ} {push : δ → List Word} {post : γ → δ → Prop}
    [Extending rest] (hRest : ∀ c, c.fits k → Does types z rest c.words (ev c) push post) :
    Does types z (do
        coerce (.prim p) (.prim k)
        let source ← value
        coerce source (if op.isShift then .int else .prim k)
        let i ← binaryInstruction op (.prim k)
        emit i
        rest) a.words
      (evR >>= fun b => answer (Value.binary op a b) >>= ev) push post := by
  obtain ⟨a', hConvertA, -⟩ := Conversion.takeAll_conversions hTyped.isDiscrete hTyped.left_truth hFitsA
  refine .andThen (.coerce hTyped.isDiscrete hTyped.left_truth hFitsA hConvertA) fun _ _ => ?_
  refine .bind (hValue.onTop a'.words) ?_
  rintro t b ⟨rfl, hFitsB⟩
  obtain ⟨a'', b', hConvertA', hConvertB, hSame⟩ := hTyped.converted hFitsA hFitsB
  obtain rfl : a' = a'' := Option.some.inj (hConvertA.symm.trans hConvertA')
  rw [op.rightType_eq, ← hSame]
  refine .andThen ((Does.coerce hTyped.rightDiscrete hTyped.right_truth hFitsB hConvertB).above _)
    fun _ _ => ?_
  refine .lift fun i hi => ?_
  have hAnswers := hTyped.instruction z.pool (Value.convert_fits hConvertA)
    (Value.convert_fits hConvertB) hi
  refine .bind (.answer hAnswers fun c hc => ?_) fun _ c hc => hRest c hc
  exact hTyped.result_fits hFitsA hFitsB (hSame ▸ hc)

theorem Evaluates.ofBinary {left right : Expr} {l r : ExprCode} (hl : l.Evaluates types z ctx left p)
    (hr : r.Evaluates types z ctx right q)
    (hType : ctx.typeOf (.binary op left right) = .ok (.prim k)) (hTyped : op.Typed p q k)
    (hKnown : Foreseen ctx (.binary op left right)) :
    (ofBinary ctx op left right l r).Evaluates types z ctx (.binary op left right) k := by
  have := hl.extending
  have := hr.extending
  have hGrows := Follows.ofBinary op left right hl.grows hr.grows
  refine { Evaluates.ofValue hKnown hGrows.value ?_ with grows := hGrows }
  refine .lift fun type hSame => ?_
  rw [hType] at hSame
  cases hSame
  refine .lift fun type hSame => ?_
  rw [hType] at hSame
  cases hSame
  rw [eval]
  refine .bind hl.value ?_
  rintro t a ⟨rfl, hFits⟩
  have hEval : (eval ctx right >>= fun b => answer (Value.binary op a b)) =
      eval ctx right >>= fun b => answer (Value.binary op a b) >>= pure := by
    simp only [bind_pure]
  rw [hEval]
  exact operate_does hTyped hFits hr.value fun c hc => .nothing rfl ⟨rfl, hc⟩

end

/-! Comparisons. -/

/-- The comparison that is tested for a wanted truth. -/
theorem related_effective (op : CompareOp) (wanted : Bool) (m n : Int) :
    Value.related (if wanted then op else op.negate) m n = (Value.related op m n == wanted) := by
  cases wanted with
  | true => simp
  | false => rw [if_neg (by decide), CompareOp.related_negate]; simp

/-- The branch that follows two numbers on the stack. -/
theorem compareStacked_jumps (hKind : k = .int ∨ k = .long)
    {a b : Value} {m n : Int} (ha : a.fits k) (hb : b.fits k) (hm : a.number? = some m)
    (hn : b.number? = some n) (wanted : Bool) :
    Jumps types z (fun site => [site])
      (match comparison op (numberKind (.prim k)) with
        | none => branch (.ifInts (relation (if wanted then op else op.negate)))
        | some c => do
          emit (.compare c)
          branch (.ifZero (relation (if wanted then op else op.negate)))) (b.words ++ a.words)
      (pure (Value.related op m n)) wanted := by
  rcases hKind with rfl | rfl
  · obtain ⟨x, rfl⟩ := Value.eq_int ha rfl
    obtain ⟨y, rfl⟩ := Value.eq_int hb rfl
    cases hm
    cases hn
    refine .branch fun rest => ?_
    show some ((relation _).holds x y, rest) = _
    rw [Relation.holds_eq, related_effective]
  · obtain ⟨x, rfl⟩ := Value.eq_long ha rfl
    obtain ⟨y, rfl⟩ := Value.eq_long hb rfl
    cases hm
    cases hn
    have hCompare : Does types z (emit (.compare .long)) ((Value.long y).words ++ (Value.long x).words)
        (pure (.int (compareLongs x y))) Value.words fun _ r => r = .int (compareLongs x y) :=
      .value fun _ _ => rfl
    refine .andThen hCompare (fun _ => .branch _) fun _ _ => .branch fun rest => ?_
    show some ((relation _).holds (compareLongs x y) 0, rest) = _
    rw [compareLongs_eq, related_effective]

/-- Jumps on a comparison of numbers. -/
theorem compareNumbers_jumps {left right : Expr} {l r : ExprCode} (hl : l.Evaluates types z ctx left p)
    (hr : r.Evaluates types z ctx right q)
    (hTyped : BinaryOp.add.Typed p q k) (hKind : k = .int ∨ k = .long) (wanted : Bool) :
    Jumps types z (fun site => [site])
      (compareNumbers op (if wanted then op else op.negate) (.prim k) right l r) []
      (eval ctx left >>= fun a => eval ctx right >>= fun b => answer (Value.compare op a b)) wanted := by
  unfold compareNumbers
  have := hl.extending
  have := hr.extending
  refine .bind hl.value (fun _ => .bind (.coerce ..) fun _ => .ite (.branch _) <|
    .bind hr.grows.value fun _ => .bind (.coerce ..) fun _ => compareStacked_follows (L := growth ctx _) ..) ?_
  rintro t a ⟨rfl, hFitsA⟩
  obtain ⟨a', hConvertA, -⟩ := Conversion.takeAll_conversions hTyped.isDiscrete hTyped.left_truth hFitsA
  refine .andThen (.coerce hTyped.isDiscrete hTyped.left_truth hFitsA hConvertA)
    (fun _ => .ite (.branch _) <| .bind hr.grows.value fun _ => .bind (.coerce ..) fun _ =>
      compareStacked_follows (L := growth ctx _) ..) fun _ _ => .ite (fun hZero => ?_) fun _ => ?_
  · -- Zero is not pushed: there is a branch that compares with it.
    rw [Bool.and_eq_true, beq_iff_eq] at hZero
    obtain ⟨hInt, hZero⟩ := hZero
    cases hInt
    cases right with
    | int v kind =>
      obtain rfl : v = 0 := by simpa using hZero
      obtain ⟨x, rfl⟩ := Value.eq_int hFitsA hTyped.left_int
      obtain rfl : Value.int x = a' := by
        rw [Value.convert_of_fits rfl] at hConvertA
        exact Option.some.inj hConvertA
      show Jumps types z _ _ _ (pure (Value.related op x.toInt 0)) wanted
      refine .branch fun rest => ?_
      show some ((relation _).holds x 0, rest) = _
      rw [Relation.holds_eq, related_effective]
      rfl
    | _ => cases hZero
  · refine .bind (hr.value.onTop a'.words)
      (fun _ => .bind (.coerce ..) fun _ => compareStacked_follows (L := growth ctx _) ..) ?_
    rintro t b ⟨rfl, hFitsB⟩
    obtain ⟨a'', b', m, n, hConvertA', hConvertB, hm, hn, hSame⟩ := hTyped.compare_converted op hFitsA hFitsB
    obtain rfl : a' = a'' := Option.some.inj (hConvertA.symm.trans hConvertA')
    rw [hSame]
    refine .andThen ((Does.coerce hTyped.isDiscrete hTyped.right_truth hFitsB hConvertB).above _)
      (fun _ => compareStacked_follows (L := growth ctx _) ..) fun _ _ => ?_
    exact compareStacked_jumps hKind (Value.convert_fits hConvertA) (Value.convert_fits hConvertB) hm
      hn wanted

theorem Evaluates.ofCompare {left right : Expr} {l r : ExprCode} (hl : l.Evaluates types z ctx left p)
    (hr : r.Evaluates types z ctx right q)
    (hTypeL : ctx.typeOf left = .ok (.prim p)) (hTypeR : ctx.typeOf right = .ok (.prim q))
    (hp : p.isDiscrete) (hq : q.isDiscrete)
    (hComparable : ctx.isComparable op (.prim p) (.prim q))
    (hKnown : Foreseen ctx (.compare op left right)) :
    (ofCompare ctx op left right l r).Evaluates types z ctx (.compare op left right) .boolean := by
  refine .ofJump hKnown (eval_compare op left right) (Follows.ofCompare op left right hl.grows hr.grows)
    fun wanted => ?_
  · dsimp only
    refine .lift fun a hA => ?_
    rw [hTypeL] at hA
    cases hA
    refine .lift fun b hB => ?_
    rw [hTypeR] at hB
    cases hB
    cases hPromoted : (JavaType.prim p).promotedWith? (.prim q) with
    | some promoted =>
      obtain ⟨k, rfl, hTyped, hKind⟩ := JavaType.promotedWith?_discrete hPromoted hp hq
      exact .andReturn _ (compareNumbers_jumps hl hr hTyped hKind wanted) fun _ => rfl
    | none =>
      obtain ⟨rfl, rfl, hOp⟩ := TypingContext.comparable_truths hComparable hPromoted
      have hEffective : ¬ ((if wanted then op else op.negate) ≠ .eq ∧ (if wanted then op else op.negate) ≠ .ne) := by
        rcases hOp with rfl | rfl <;> cases wanted <;> decide
      dsimp only
      rw [if_neg hEffective]
      refine .ite nofun fun _ => ?_
      have := hl.extending
      have := hr.extending
      refine .bind hl.value (fun _ => .bind hr.grows.value fun _ => .branches _) ?_
      rintro t a ⟨-, hFitsA⟩
      refine .bind (hr.value.onTop a.words) (fun _ => .branches _) ?_
      rintro t b ⟨-, hFitsB⟩
      obtain ⟨a, rfl⟩ := Value.eq_bool hFitsA rfl
      obtain ⟨b, rfl⟩ := Value.eq_bool hFitsB rfl
      rcases hOp with rfl | rfl <;> refine .branches fun rest => ?_ <;>
        cases wanted <;> cases a <;> cases b <;> rfl

/-! Conditions. -/

section

variable {left right : Expr} {l r : ExprCode}

theorem Evaluates.ofAnd (hl : l.Evaluates types z ctx left .boolean)
    (hr : r.Evaluates types z ctx right .boolean) (hKnownL : Foreseen ctx left)
    (hKnown : Foreseen ctx (.and left right)) :
    (ofAnd ctx left right l r).Evaluates types z ctx (.and left right) .boolean := by
  refine .ofJump hKnown (eval_and left right) (Follows.ofAnd left right hl.grows hr.grows) ?_
  exact inSequence_jumps true hKnownL hl hr

theorem Evaluates.ofOr (hl : l.Evaluates types z ctx left .boolean)
    (hr : r.Evaluates types z ctx right .boolean) (hKnownL : Foreseen ctx left)
    (hKnown : Foreseen ctx (.or left right)) :
    (ofOr ctx left right l r).Evaluates types z ctx (.or left right) .boolean := by
  refine .ofJump hKnown (eval_or left right) (Follows.ofOr left right hl.grows hr.grows) ?_
  exact inSequence_jumps false hKnownL hl hr

end

theorem Evaluates.ofNot (hCode : code.Evaluates types z ctx operand .boolean) (hKnown : Foreseen ctx (.not operand)) :
    (ofNot ctx operand code).Evaluates types z ctx (.not operand) .boolean :=
  .ofJump hKnown (eval_not operand) (Follows.ofNot operand hCode.grows) fun wanted => .not (hCode.jump rfl (!wanted))

theorem Evaluates.ofConditional {test whenTrue whenFalse : Expr} {c a b : ExprCode}
    (hc : c.Evaluates types z ctx test .boolean)
    (ha : a.Evaluates types z ctx whenTrue p) (hb : b.Evaluates types z ctx whenFalse q)
    (hType : ctx.typeOf (.conditional test whenTrue whenFalse) = .ok (.prim k)) (hk : k.isDiscrete)
    (hp : p = .boolean ↔ k = .boolean) (hq : q = .boolean ↔ k = .boolean)
    (hKnown : Foreseen ctx (.conditional test whenTrue whenFalse)) :
    (ofConditional ctx test whenTrue whenFalse c a b).Evaluates types z ctx
      (.conditional test whenTrue whenFalse) k := by
  have := ha.extending
  have := hb.extending
  refine .ofValue hKnown (Follows.ofConditional test whenTrue whenFalse hc.grows ha.grows hb.grows).value ?_
  refine .lift fun type hSame => ?_
  rw [hType] at hSame
  cases hSame
  refine ⟨fun s t' t inside h hs hKept hInside => ?_⟩
  obtain ⟨depth, _, hDepth, h⟩ := bind_ok.1 h
  obtain ⟨-, rfl⟩ := depth_ok.1 hDepth
  obtain ⟨sites, s₁, hSites, h⟩ := bind_ok.1 h
  obtain ⟨x, s₂, hTrue, h⟩ := bind_ok.1 h
  obtain ⟨_, s₃, hCoerce, h⟩ := bind_ok.1 h
  obtain ⟨done, s₄, hDone, h⟩ := bind_ok.1 h
  obtain ⟨_, s₅, hLand, h⟩ := bind_ok.1 h
  obtain ⟨_, s₆, hSet, h⟩ := bind_ok.1 h
  obtain ⟨y, s₇, hFalse, h⟩ := bind_ok.1 h
  obtain ⟨_, s₈, hCoerce', h⟩ := bind_ok.1 h
  obtain ⟨_, s₉, hLast, h⟩ := bind_ok.1 h
  obtain ⟨rfl, rfl⟩ := pure_ok.1 h
  have hAll := choice_carries (hc.grows.jump false) (hc.jump rfl false)
    (.bind ha.grows.value fun _ => .coerce ..) (converted ha.value hk hp)
    (.bind hb.grows.value fun _ => .coerce ..) (converted hb.value hk hq)
    hSites (bind_ok.2 ⟨_, _, hTrue, hCoerce⟩) hDone hLand hSet (bind_ok.2 ⟨_, _, hFalse, hCoerce'⟩) hLast
    hs hKept hInside
  rw [eval_conditional hType]
  exact hAll.mono fun v hFits => ⟨⟨rfl, hFits⟩, rfl, rfl⟩

/-! Casts. -/

theorem Evaluates.ofCast (hCode : code.Evaluates types z ctx operand p)
    (hq : q.isDiscrete) (hTruth : p = .boolean ↔ q = .boolean)
    (hKnown : Foreseen ctx (.cast (.primitive q) operand)) :
    (ofCast ctx (.primitive q) operand code).Evaluates types z ctx (.cast (.primitive q) operand) q := by
  have := hCode.extending
  refine .ofValue hKnown (Follows.ofCast (.primitive q) operand hCode.grows).value ?_
  rw [if_neg (by intro h; cases h), if_neg (by intro h; cases h), Viewpoint.resolveType_primitive]
  refine .lift fun target hTarget => ?_
  cases hTarget
  rw [eval]
  refine .bind hCode.value ?_
  rintro t v ⟨rfl, hFits⟩
  obtain ⟨w, hConvert, -⟩ := Conversion.takeAll_conversions hq hTruth hFits
  rw [hConvert]
  refine .ite (fun hNo => by cases hNo) fun _ => (Does.coerce hq hTruth hFits hConvert).andReturn fun _ _ hSame => ?_
  exact ⟨rfl, hSame ▸ Value.convert_fits hConvert⟩

end ExprCode

end JavaFragment
