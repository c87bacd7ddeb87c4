import JavaFragment.Proofs.Emission
import JavaFragment.Proofs.Faults
/-!
The type that comes with the code of a value is the type of the expression.
-/
namespace JavaFragment

namespace Emit

variable {α β : Type}

/-- What is emitted, if it is, has a result that satisfies a condition. -/
structure Returns (P : α → Prop) (x : Emit α) : Prop where
  result : ∀ s a t, x s = .ok a t → P a

namespace Returns

variable {P : α → Prop} {Q : β → Prop} {x : Emit β} {f : β → Emit α}

theorem pure {a : α} (h : P a) : Returns P (pure a) := ⟨fun _ _ _ hResult => (pure_ok.1 hResult).1 ▸ h⟩

theorem throw (e : CompileError) : Returns P (throw e) := ⟨fun _ _ _ h => (not_throw_ok h).elim⟩

/-- What follows decides the result. -/
theorem bind (hx : Returns Q x) (hf : ∀ b, Q b → Returns P (f b)) : Returns P (x >>= f) := by
  refine ⟨fun s a t h => ?_⟩
  obtain ⟨b, r, hFirst, hSecond⟩ := bind_ok.1 h
  exact (hf b (hx.result s b r hFirst)).result r a t hSecond

theorem andThen (hf : ∀ b, Returns P (f b)) : Returns P (x >>= f) :=
  .bind ⟨fun _ _ _ _ => trivial⟩ fun b (_ : True) => hf b

/-- What a rule says is known when its answer is used. -/
theorem lift {x : Except CompileError β} (hf : ∀ b, x = .ok b → Returns P (f b)) :
    Returns P ((liftM x : Emit β) >>= f) :=
  .bind ⟨fun _ _ _ h => (lift_ok.1 h).1⟩ hf

theorem ite {c : Prop} [Decidable c] {x y : Emit α} (hx : c → Returns P x) (hy : ¬ c → Returns P y) :
    Returns P (if c then x else y) := by
  split
  · exact hx ‹_›
  · exact hy ‹_›

/-- What is emitted under a condition does not decide the result. -/
theorem onlyIf {c : Prop} [Decidable c] {y : Emit α} (hy : Returns P y) :
    Returns P (if c then x >>= fun _ => y else y) :=
  .ite (fun _ => .andThen fun _ => hy) fun _ => hy

end Returns

variable {ctx : TypingContext} {t : JavaType}

theorem assign_returns {op : Option BinaryOp} {location : Emit Location} {value : Expr}
    {code : Emit JavaType} {codeAs : JavaType → Emit Unit}
    (hLocation : Returns (fun l => l.type = t) location) :
    Returns (· = t) (assign ctx op location value code codeAs true) := by
  refine .bind hLocation fun l hl => ?_
  subst hl
  dsimp only
  split
  · exact .andThen fun _ => .andThen fun _ => .pure rfl
  · exact .andThen fun _ => .andThen fun _ => .andThen fun _ => .pure rfl
  · exact .andThen fun _ => .andThen fun _ => .andThen fun _ => .pure rfl

theorem step_returns {increases before : Bool} {location : Emit Location} {target : Expr}
    (hLocation : Returns (fun l => l.type = t) location) :
    Returns (· = t) (step ctx increases before location target true) := by
  refine .bind hLocation fun l hl => ?_
  subst hl
  dsimp only
  split
  · exact .onlyIf <| .andThen fun _ => .onlyIf <| .pure rfl
  · split
    · exact .throw _
    · exact .andThen fun _ => .andThen fun _ => .onlyIf <| .andThen fun _ => .andThen fun _ =>
        .andThen fun _ => .andThen fun _ => .andThen fun _ => .onlyIf <| .andThen fun _ => .pure rfl

theorem classLiteral_returns (type : JavaType) : Returns (· = .ofClass "java/lang/Class") (classLiteral type) := by
  unfold classLiteral
  split
  · exact .andThen fun _ => .pure rfl
  · exact .throw _
  · exact .andThen fun _ => .andThen fun _ => .pure rfl

theorem concat_returns (values : List (Emit JavaType)) : Returns (· = .string) (concat values) :=
  .andThen fun _ => .andThen fun _ => .andThen fun _ => .andThen fun _ => .andThen fun _ => .andThen fun _ => .pure rfl

end Emit

open Emit

namespace ExprCode

variable {ctx : TypingContext} {t : JavaType} {array e : Expr} {a i : ExprCode} {receiver : Emit Unit} {type : JavaType}
  {codes : List ExprCode} {args : List Expr} {types : List JavaType} {name : String}

theorem truthValue_returns (jump : Bool → Emit (List Nat)) : Returns (· = .boolean) (truthValue jump) :=
  .andThen fun _ => .andThen fun _ => .andThen fun _ => .ite (fun _ => .pure rfl) fun _ =>
    .andThen fun _ => .andThen fun _ => .andThen fun _ => .andThen fun _ => .andThen fun _ => .pure rfl

theorem ofVariable_returns {v : Variable} (hType : ctx.variableType v = .ok t) :
    Returns (· = t) (ofVariable ctx v).value := by
  refine .lift fun type h => .andThen fun _ => .andThen fun _ => .pure ?_
  rw [hType] at h
  exact (Except.ok.inj h).symm

theorem ofVariable_location {v : Variable} (hType : ctx.variableType v = .ok t) :
    Returns (fun l => l.type = t) (ofVariable ctx v).location := by
  refine .lift fun type h => .andThen fun _ => .pure ?_
  rw [hType] at h
  exact (Except.ok.inj h).symm

/-- Code that begins with the question for the type. -/
theorem asked_returns {f : JavaType → Emit JavaType} (hType : ctx.typeOf e = .ok t)
    (hf : Returns (· = t) (f t)) : Returns (· = t) (liftM (ctx.typeOf e) >>= f) := by
  refine .lift fun type h => ?_
  rw [hType] at h
  cases h
  exact hf

theorem ofBinary_returns {op : BinaryOp} {left right : Expr} {l r : ExprCode}
    (hType : ctx.typeOf (.binary op left right) = .ok t) :
    Returns (· = t) (ofBinary ctx op left right l r).value := by
  have hOperate := asked_returns hType (f := fun type => do
    Emit.coerce (← l.value) type
    Emit.coerce (← r.value) (if op.isShift then .int else type)
    Emit.emit (← Emit.binaryInstruction op type)
    return type) <| .andThen fun _ => .andThen fun _ => .andThen fun _ => .andThen fun _ =>
      .andThen fun _ => .andThen fun _ => .pure rfl
  refine asked_returns hType <| .ite (fun hString => ?_) fun _ => hOperate
  rw [JavaType.isString_iff.1 hString]
  exact .andThen fun _ => concat_returns _

theorem ofUnary_returns {op : UnaryOp} {operand : Expr} {code : ExprCode}
    (hType : ctx.typeOf (.unary op operand) = .ok t) :
    Returns (· = t) (ofUnary ctx op operand code).value :=
  asked_returns hType <| .andThen fun _ => .andThen fun _ => .andThen fun _ => .pure rfl

theorem ofConditional_returns {test whenTrue whenFalse : Expr} {c b : ExprCode}
    (hType : ctx.typeOf (.conditional test whenTrue whenFalse) = .ok t) :
    Returns (· = t) (ofConditional ctx test whenTrue whenFalse c a b).value :=
  asked_returns hType <| .andThen fun _ => .andThen fun _ => .andThen fun _ => .andThen fun _ =>
    .andThen fun _ => .andThen fun _ => .andThen fun _ => .andThen fun _ => .andThen fun _ =>
      .andThen fun _ => .pure rfl

theorem resultValue_returns (source : JavaType) : Returns (· = ctx.bindings.resultCastType) (resultValue ctx source) :=
  .ite (fun _ => .andThen fun _ => .pure rfl) fun _ => .ite (fun _ => .andThen fun _ => .pure rfl)
    fun _ => .ite (fun _ => .andThen fun _ => .ite (fun _ => .pure rfl) fun _ => .andThen fun _ => .pure rfl)
      fun _ => .ite (fun _ => .andThen fun _ => .pure rfl) fun _ => .andThen fun _ => .pure rfl

theorem ofCast_returns {operand : Expr} {written : WrittenType} {source : JavaType} {code : ExprCode}
    (hCode : Returns (· = source) code.value) (hCast : ctx.castType e written source = .ok t) :
    Returns (· = t) (ofCast ctx written operand code).value := by
  unfold TypingContext.castType at hCast
  refine .ite (fun hResult => ?_) fun hResult => .ite (fun hBox => ?_) fun hBox => ?_
  · rw [if_pos hResult] at hCast
    cases hCast
    exact .andThen fun _ => resultValue_returns _
  · rw [if_neg hResult, if_pos hBox] at hCast
    cases hCast
    exact .bind hCode fun _ hSame => .andThen fun _ => .pure (congrArg _ hSame)
  · rw [if_neg hResult, if_neg hBox] at hCast
    obtain ⟨target, hTarget, hCast⟩ := except_bind_ok.1 hCast
    refine .lift fun type hType => ?_
    rw [hTarget] at hType
    cases hType
    have hSame : target = t := by
      split at hCast <;> cases hCast
      rfl
    exact .andThen fun _ => .ite (fun _ => .ite (fun _ => .pure hSame) fun _ => .andThen fun _ =>
      .pure hSame) fun _ => .andThen fun _ => .pure hSame

/-! Fields and names. -/

theorem readField_returns {target : FieldTarget} (h : target.type = .ok t) :
    Returns (· = t) (readField ctx receiver target) := by
  cases target with
  | arrayLength => exact .andThen fun _ => .andThen fun _ => .pure (Except.ok.inj h)
  | ofClass f =>
    refine .lift fun type hType => .andThen fun _ => .pure ?_
    exact Except.ok.inj (hType.symm.trans h)
  | ofObject f =>
    refine .andThen fun _ => .lift fun type hType => .andThen fun _ => .pure ?_
    exact Except.ok.inj (hType.symm.trans h)

theorem ofField_returns (h : ∀ target, ctx.fieldTarget e = .ok (some target) → target.type = .ok t) :
    Returns (· = t) (ofField ctx e receiver).value := by
  refine .lift fun found hFound => ?_
  cases found with
  | none => exact .throw _
  | some target => exact readField_returns (h target hFound)

theorem ofField_location (h : ∀ found, ctx.fieldTarget e = .ok found → TypingContext.fieldLocation e found = .ok t) :
    Returns (fun l => l.type = t) (ofField ctx e receiver).location := by
  refine .lift fun found hFound => ?_
  have hType := h found hFound
  match found with
  | some (.ofClass f) =>
    refine .lift fun type hField => .pure ?_
    exact Except.ok.inj (hField.symm.trans hType)
  | some (.ofObject f) =>
    refine .andThen fun _ => .lift fun type hField => .pure ?_
    exact Except.ok.inj (hField.symm.trans hType)
  | some .arrayLength | none => exact .throw _

theorem pushPseudo_returns {pseudo : PseudoName} (h : Bindings.pseudoType pseudo = .ok t) :
    Returns (· = t) (pushPseudo ctx pseudo) := by
  cases pseudo with
  | args => exact .andThen fun _ => .andThen fun _ => .pure (Except.ok.inj h)
  | signature => exact .andThen fun _ => .andThen fun _ => .pure (Except.ok.inj h)
  | type =>
    cases h
    exact classLiteral_returns _
  | declaring =>
    cases h
    unfold pushPseudo
    exact classLiteral_returns _
  | splice => exact .throw _

theorem ofName_returns {n : String} (hType : ctx.typeOf (.name n) = .ok t) : Returns (· = t) (ofName ctx n).value := by
  unfold ofName
  split
  · rename_i pseudo hName
    rw [TypingContext.typeOf_ok, TypingContext.denote, denoteWith, TypingContext.denoteName, hName] at hType
    obtain ⟨own, hOwn, hSame⟩ := except_map_ok.1 hType
    cases hSame
    exact pushPseudo_returns hOwn
  · exact ofField_returns fun target hTarget => TypingContext.typeOf_name hType hTarget

theorem ofName_location {n : String} (hType : ctx.locationOf (.name n) = .ok t) :
    Returns (fun l => l.type = t) (ofName ctx n).location := by
  unfold ofName
  split
  · exact .throw _
  · refine ofField_location fun found hFound => ?_
    rw [TypingContext.locationOf, locationWith] at hType
    obtain ⟨found', hFound', hType⟩ := except_bind_ok.1 hType
    cases Except.ok.inj (hFound.symm.trans hFound')
    exact hType

/-! Arrays. -/

theorem pushPosition_returns (ha : Returns (· = type) a.value) (hElement : type.element? = some t) :
    Returns (· = t) (pushPosition array a i) := by
  refine .bind ha fun own hOwn => .andThen fun _ => .andThen fun _ => ?_
  subst hOwn
  rw [hElement]
  exact .pure rfl

theorem ofIndex_returns {position : Expr} (ha : Returns (· = type) a.value) (hElement : type.element? = some t) :
    Returns (· = t) (ofIndex ctx array position a i).value :=
  .bind (pushPosition_returns ha hElement) fun _ h => .andThen fun _ => .pure h

theorem ofIndex_location {position : Expr} (ha : Returns (· = type) a.value) (hElement : type.element? = some t) :
    Returns (fun l => l.type = t) (ofIndex ctx array position a i).location :=
  .bind (pushPosition_returns ha hElement) fun _ h => .pure h

theorem ofNewArray_returns {element : WrittenType} {lengths : List Expr} {extra : Nat}
    {base : JavaType} (hBase : ctx.view.resolveType element = .ok base) :
    Returns (· = base.arrayOf (lengths.length + extra)) (ofNewArray ctx element lengths extra codes).value := by
  refine .lift fun own hOwn => .andThen fun _ => ?_
  cases Except.ok.inj (hBase.symm.trans hOwn)
  split
  · exact .andThen fun _ => .pure rfl
  · exact .andThen fun _ => .pure rfl
  · exact .andThen fun _ => .andThen fun _ => .pure rfl

/-! Calls. -/

theorem call_returns (found : CallTarget) (receiver : Emit JavaType) (args : List ExprCode) :
    Returns (· = found.selected.signature.result) (call ctx found receiver args) := by
  have hRest (through : Option SyntheticMethod) :
      Returns (· = found.selected.signature.result) (callThrough found args through) := by
    unfold callThrough
    refine .andThen fun _ => ?_
    cases through <;> exact .andThen fun _ => .pure rfl
  unfold call
  dsimp only
  refine .ite (fun _ => .andThen fun through => ?_) fun _ => .andThen fun through => ?_
  all_goals
    cases found.receiver
    · exact hRest through
    · exact .andThen fun _ => hRest through
    · exact .andThen fun _ => hRest through

theorem readCounter_returns (args : List Expr) : Returns (· = .int) (readCounter ctx args) :=
  .andThen fun _ => .andThen fun _ => .andThen fun _ => .pure rfl

theorem argumentTypes_ok (h : ctx.argumentTypes args = .ok types) : typesWith ctx ctx.forward args = .ok types := by
  obtain ⟨_, -, h⟩ := except_bind_ok.1 h
  exact h

theorem callOn_returns {target : Expr} {code : Emit JavaType} {found : CallTarget}
    (hTypes : typesWith ctx ctx.forward args = .ok types)
    (hFound : ctx.callTarget target (ctx.denote target) name types = .ok found) :
    Returns (· = found.selected.signature.result) (callOn ctx target code name args codes) := by
  refine .lift fun types' hTypes' => .lift fun found' hFound' => .andThen fun _ => ?_
  cases Except.ok.inj (hTypes.symm.trans (argumentTypes_ok hTypes'))
  cases Except.ok.inj (hFound.symm.trans hFound')
  exact call_returns ..

theorem callBare_returns {found : CallTarget} (hTypes : typesWith ctx ctx.forward args = .ok types)
    (hFound : ctx.bareCall name types = .ok found) :
    Returns (· = found.selected.signature.result) (callBare ctx name args codes) := by
  refine .lift fun types' hTypes' => .lift fun found' hFound' => .andThen fun _ => ?_
  cases Except.ok.inj (hTypes.symm.trans (argumentTypes_ok hTypes'))
  cases Except.ok.inj (hFound.symm.trans hFound')
  exact call_returns ..

theorem create_returns {written : WrittenType}
    (hType : ctx.view.resolveType written = .ok t) : Returns (· = t) (create ctx written args codes) := by
  unfold create
  refine .lift fun own hOwn => .andThen fun _ => .andThen fun _ => ?_
  cases Except.ok.inj (hType.symm.trans hOwn)
  refine .ite (fun _ => .andThen fun shadow => ?_) fun _ => .andThen fun shadow => ?_
  all_goals
    refine .andThen fun _ => .andThen fun _ => .andThen fun _ => .andThen fun _ => .andThen fun _ => ?_
    cases shadow
    · exact .andThen fun _ => .pure rfl
    · exact .andThen fun _ => .andThen fun _ => .pure rfl

theorem ofCall_returns {forward : Emit JavaType} (hType : ctx.typeOf (.call name args) = .ok t) :
    Returns (· = t) (ofCall ctx forward name args codes).value := by
  rw [TypingContext.typeOf_ok, TypingContext.denote, denoteWith] at hType
  refine .ite (fun hProceed => ?_) fun hProceed => .ite (fun hCounter => ?_) fun hCounter => ?_
  · rw [if_pos hProceed] at hType
    obtain ⟨_, -, hType⟩ := except_bind_ok.1 hType
    obtain ⟨recorded, hRecorded, hType⟩ := except_bind_ok.1 hType
    refine .andThen fun _ => .lift fun recorded' hRecorded' => ?_
    cases Except.ok.inj (hRecorded.symm.trans hRecorded')
    cases hTarget : recorded.target with
    | some target =>
      rw [hTarget] at hType
      obtain ⟨types, hTypes, hType⟩ := except_bind_ok.1 hType
      obtain ⟨found, hFound, hType⟩ := except_bind_ok.1 hType
      cases hType
      have hProceed : ctx.bindings.proceed.bind ProceedCall.target = some target := by
        unfold Bindings.getProceed at hRecorded
        split at hRecorded <;> cases hRecorded
        rename_i hCall
        rw [hCall]
        exact hTarget
      exact callOn_returns hTypes <| (ctx.callTarget_settles (fun _ _ => trivial) target
        (TypingContext.forward_settles hProceed) _ _).of_ok _ hFound
    | none =>
      rw [hTarget] at hType
      dsimp only at hType ⊢
      refine .ite (fun _ => .throw _) fun hSelf => .ite (fun hCounter => ?_) fun hCounter => ?_
      · rw [if_neg hSelf, if_pos hCounter] at hType
        obtain ⟨_, -, hType⟩ := except_bind_ok.1 hType
        cases hType
        exact readCounter_returns _
      · rw [if_neg hSelf, if_neg hCounter] at hType
        obtain ⟨types, hTypes, hType⟩ := except_bind_ok.1 hType
        obtain ⟨found, hFound, hType⟩ := except_bind_ok.1 hType
        cases hType
        exact callBare_returns hTypes hFound
  · rw [if_neg hProceed, if_pos hCounter] at hType
    obtain ⟨_, -, hType⟩ := except_bind_ok.1 hType
    cases hType
    exact readCounter_returns _
  · rw [if_neg hProceed, if_neg hCounter] at hType
    obtain ⟨_, -, hType⟩ := except_bind_ok.1 hType
    obtain ⟨types, hTypes, hType⟩ := except_bind_ok.1 hType
    obtain ⟨found, hFound, hType⟩ := except_bind_ok.1 hType
    cases hType
    exact callBare_returns hTypes hFound

end ExprCode

section

open ExprCode TypingContext

variable {ctx : TypingContext} {forward : Emit JavaType}

mutual

/-- The type that comes with the code of an expression is its type. -/
theorem compileWith_returns : (e : Expr) → ∀ {t}, ctx.typeOf e = .ok t →
    Returns (· = t) (compileWith ctx forward e).value
  | .int _ _, t, h | .long _, t, h | .float _, t, h | .double _, t, h | .bool _, t, h
  | .nullRef, t, h => by
    rw [typeOf_ok, denote, denoteWith] at h
    cases h
    exact .andThen fun _ => .pure rfl
  | .string _, t, h => by
    rw [typeOf_ok, denote, denoteWith] at h
    cases h
    exact .andThen fun _ => .andThen fun _ => .pure rfl
  | .thisRef, t, h | .superRef, t, h => by
    rw [typeOf_ok, denote, denoteWith] at h
    obtain ⟨own, hOwn, hSame⟩ := except_map_ok.1 h
    cases hSame
    exact .lift fun type hType => .andThen fun _ => .pure (Except.ok.inj (hType.symm.trans hOwn))
  | .name n, _, h => ofName_returns h
  | .var v, _, h => by
    rw [typeOf_var] at h
    exact ofVariable_returns h
  | .unary _ _, _, h => ofUnary_returns h
  | .binary _ _ _, _, h => ofBinary_returns h
  | .compare _ _ _, _, h => by
    obtain ⟨_, _, _, _, _, rfl⟩ := typeOf_compare.1 h
    exact truthValue_returns _
  | .and _ _, _, h => by
    obtain ⟨_, _, rfl⟩ := typeOf_and.1 h
    exact truthValue_returns _
  | .or _ _, _, h => by
    obtain ⟨_, _, rfl⟩ := typeOf_or.1 h
    exact truthValue_returns _
  | .not _, _, h => by
    obtain ⟨_, rfl⟩ := typeOf_not.1 h
    exact truthValue_returns _
  | .instanceOf _ _, _, h => by
    rw [(typeOf_instanceOf h).2]
    exact .andThen fun _ => .andThen fun _ => .andThen fun _ => .andThen fun _ => .pure rfl
  | .cast _ e, _, h => by
    obtain ⟨source, hSource, hCast⟩ := castType_of_typeOf h
    exact ofCast_returns (compileWith_returns e hSource) hCast
  | .conditional _ _ _, _, h => ofConditional_returns h
  | .assign op target value, _, h => assign_returns (compileWith_location target (location_of_assign h))
  | .incDec _ _ target, _, h => step_returns (compileWith_location target (location_of_incDec h))
  | .field target n, _, h => ofField_returns fun found hFound => by
    obtain ⟨d, hDenote, hFound⟩ := except_bind_ok.1 hFound
    exact typeOf_field h hDenote hFound
  | .classLit _, _, h => by
    rw [typeOf_ok, denote, denoteWith] at h
    obtain ⟨_, -, h⟩ := except_bind_ok.1 h
    cases h
    exact .andThen fun _ => classLiteral_returns _
  | .index a _, _, h => by
    obtain ⟨array, _, hArray, -, hElement, -⟩ := typeOf_index h
    exact ofIndex_returns (compileWith_returns a hArray) hElement
  | .call _ _, _, h => ofCall_returns h
  | .callOn _ _ _, _, h => by
    obtain ⟨types, found, hTypes, hFound, rfl⟩ := typeOf_callOn h
    exact callOn_returns hTypes hFound
  | .new _ _, _, h => create_returns (typeOf_new h).1
  | .newArray _ _ _, _, h => by
    obtain ⟨base, hBase, -, rfl⟩ := typeOf_newArray h
    exact ofNewArray_returns hBase
  | .arrayOf _ _ _, _, h => by
    obtain ⟨base, _, hBase, -, -, rfl⟩ := typeOf_arrayOf h
    refine .lift fun own hOwn => .andThen fun _ => .pure ?_
    rw [Except.ok.inj (hBase.symm.trans hOwn)]
  | .arrayInit _, _, _ => .throw _
  | .concat _, _, h => by
    rw [typeOf_ok, denote, denoteWith] at h
    cases h
    exact concat_returns _

/-- The place that comes with the code of an expression has the type of the place. -/
theorem compileWith_location : (e : Expr) → ∀ {t}, ctx.locationOf e = .ok t →
    Returns (fun l => l.type = t) (compileWith ctx forward e).location
  | .var v, _, h => by
    rw [locationOf, locationWith] at h
    exact ofVariable_location h
  | .name n, _, h => ofName_location h
  | .field target n, _, h => ofField_location fun found hFound => by
    rw [locationOf, locationWith] at h
    obtain ⟨d, hDenote, hFound⟩ := except_bind_ok.1 hFound
    obtain ⟨d', hDenote', h⟩ := except_bind_ok.1 h
    cases Except.ok.inj (hDenote.symm.trans hDenote')
    obtain ⟨found', hFound', h⟩ := except_bind_ok.1 h
    cases Except.ok.inj (hFound.symm.trans hFound')
    exact h
  | .index a _, _, h => by
    obtain ⟨array, _, hArray, -, hElement, -⟩ := typeOf_index (typeOf_of_locationOf_index h)
    exact ofIndex_location (compileWith_returns a hArray) hElement
  | .int _ _, _, _ | .long _, _, _ | .float _, _, _ | .double _, _, _ | .string _, _, _
  | .thisRef, _, _ | .superRef, _, _ | .nullRef, _, _ | .bool _, _, _ | .unary _ _, _, _
  | .binary _ _ _, _, _ | .compare _ _ _, _, _ | .and _ _, _, _ | .or _ _, _, _ | .not _, _, _
  | .instanceOf _ _, _, _ | .cast _ _, _, _ | .conditional _ _ _, _, _ | .assign _ _ _, _, _
  | .incDec _ _ _, _, _ | .classLit _, _, _ | .call _ _, _, _ | .callOn _ _ _, _, _ | .new _ _, _, _
  | .newArray _ _ _, _, _ | .arrayOf _ _ _, _, _ | .arrayInit _, _, _ | .concat _, _, _ => .throw _

end

end

end JavaFragment
