import JavaFragment.Proofs.CheckedTypes
import JavaFragment.Proofs.ExpressionCompilation
/-!
Values before and after checking. On expressions over integers, truth values and the constants of classes,
evaluation gives a value or divides by zero, and checking changes neither what comes out nor what is
written to variables on the way.
-/
namespace JavaFragment

variable {p : Primitive} {ctx : TypingContext} {v : Value} {c : Const}

/-- By its number, a variable is of an integer or truth type. -/
structure TypingContext.Holds (ctx : TypingContext) (types : Nat → Primitive) (v : Variable) : Prop where
  type : ctx.variableType v = .ok (.prim (types v.number))
  discrete : (types v.number).isDiscrete

/-- Every variable of an integer or truth type has a value of it. -/
def Store.Filled (types : Nat → Primitive) (σ : Store) : Prop :=
  ∀ n, (types n).isDiscrete → ∃ v, σ n = some v ∧ v.fits (types n)

theorem Primitive.promoted_promoted (p : Primitive) : p.promoted.promoted = p.promoted := by
  cases p <;> rfl

theorem Primitive.promoted_eq_boolean : p.promoted = .boolean ↔ p = .boolean := by
  cases p <;> simp [promoted]

theorem Primitive.isDiscrete_promoted (hp : p.isDiscrete) : p.promoted.isDiscrete := by
  cases p <;> first | rfl | cases hp

namespace Evaluation

variable {types : Nat → Primitive} {ctx : TypingContext} {α β : Type}

/-- What starts where the variables are filled ends with a result of a kind or divides by zero, and
leaves the variables filled. -/
structure Safe (types : Nat → Primitive) (x : Evaluation α) (P : α → Prop) : Prop where
  ok : ∀ σ a τ, Store.Filled types σ → x σ = .ok a τ → P a ∧ Store.Filled types τ
  error : ∀ σ fault τ, Store.Filled types σ → x σ = .error fault τ → fault = .divisionByZero ∧ Store.Filled types τ

namespace Safe

variable {P : α → Prop} {Q : β → Prop} {v : Value} {p : Primitive}

theorem pure {a : α} (h : P a) : Safe types (pure a) P where
  ok _ _ _ hσ h := by cases h; exact ⟨‹_›, hσ⟩
  error _ _ _ _ h := by cases h

theorem bind {x : Evaluation α} {f : α → Evaluation β} (hx : Safe types x P)
    (hf : ∀ a, P a → Safe types (f a) Q) : Safe types (x >>= f) Q := by
  have hBind (σ : Store) : (x >>= f) σ = match x σ with
    | .ok a τ => f a τ
    | .error fault τ => .error fault τ := by
    show EStateM.bind x f σ = _
    unfold EStateM.bind
    cases x σ <;> rfl
  constructor
  · intro σ b τ hσ h
    rw [hBind] at h
    split at h
    · next hFirst =>
      obtain ⟨ha, hFilled⟩ := hx.ok _ _ _ hσ hFirst
      exact (hf _ ha).ok _ _ _ hFilled h
    · cases h
  · intro σ fault τ hσ h
    rw [hBind] at h
    split at h
    · next hFirst =>
      obtain ⟨ha, hFilled⟩ := hx.ok _ _ _ hσ hFirst
      exact (hf _ ha).error _ _ _ hFilled h
    · next hFirst => cases h; exact hx.error _ _ _ hσ hFirst

theorem answer {result : Except Fault α} (hOk : ∀ a, result = .ok a → P a)
    (hError : ∀ fault, result = .error fault → fault = .divisionByZero) :
    Safe types (answer result) P := by
  cases result with
  | ok a => exact .pure (hOk a rfl)
  | error fault =>
    obtain rfl := hError fault rfl
    constructor
    · intro σ a τ hσ h
      cases h
    · intro σ fault τ hσ h
      cases h
      exact ⟨rfl, hσ⟩

theorem expect {fault : Fault} {a : Option α} (h : ∃ b, a = some b ∧ P b) : Safe types (expect fault a) P := by
  obtain ⟨b, rfl, hb⟩ := h
  exact .pure hb

theorem truth (h : v.fits .boolean) : Safe types (truth v) fun _ => True := by
  obtain ⟨b, rfl⟩ := Value.eq_bool h rfl
  exact .pure trivial

theorem promoted {x : Evaluation Value} (h : Safe types x fun v => v.fits p) :
    Safe types x fun v => v.fits p.promoted where
  ok σ a τ hσ hx := (h.ok σ a τ hσ hx).imp_left Value.fits_promoted
  error := h.error

theorem convert {q : Primitive} (hFits : v.fits p) (hq : q.isDiscrete) (hTruth : p = .boolean ↔ q = .boolean) :
    Safe types (Evaluation.expect .illTyped (v.convert q)) fun w => w.fits q.promoted := by
  obtain ⟨w, hConvert, -⟩ := Conversion.takeAll_conversions hq hTruth hFits
  exact .expect ⟨w, hConvert, Value.fits_promoted (Value.convert_fits hConvert)⟩

theorem read {n : Nat} (hn : (types n).isDiscrete) : Safe types (read n) fun v => v.fits (types n) := by
  have hRead (σ : Store) : Evaluation.read n σ = Evaluation.expect .unassigned (σ n) σ := rfl
  constructor
  · intro σ a τ hσ h
    obtain ⟨v, hv, hFits⟩ := hσ n hn
    rw [hRead, hv] at h
    cases h
    exact ⟨hFits, hσ⟩
  · intro σ fault τ hσ h
    obtain ⟨v, hv, -⟩ := hσ n hn
    rw [hRead, hv] at h
    cases h

theorem write {n : Nat} (hFits : v.fits (types n)) : Safe types (write n v) fun _ => True where
  ok σ _ τ hσ h := by
    cases h
    refine ⟨trivial, fun m hm => ?_⟩
    dsimp only
    split
    · next hSame => exact ⟨v, rfl, hSame ▸ hFits⟩
    · exact hσ m hm
  error _ _ _ _ h := by cases h

theorem assign {v : Variable} (hv : ctx.Holds types v) {value : Value}
    (hFits : value.fits p) (hTruth : p = .boolean ↔ types v.number = .boolean) :
    Safe types (assign ctx v value) fun w => w.fits (types v.number) := by
  obtain ⟨w, hConvert, -⟩ := Conversion.takeAll_conversions hv.discrete hTruth hFits
  have hFitsW := Value.convert_fits hConvert
  refine .bind (P := fun w => w.fits (types v.number)) (.expect ⟨w, ?_, hFitsW⟩) fun w hw => ?_
  · rw [hv.type]
    exact hConvert
  · exact .bind (.write hw) fun _ _ => .pure hw

end Safe

end Evaluation

/-- An operator of a type on operands of the types it asks for faults only if it divides by zero. -/
theorem BinaryOp.Typed.fault {op : BinaryOp} {q r : Primitive} (h : op.Typed p q r) {a b : Value}
    (ha : a.fits p) (hb : b.fits q) {fault : Fault} (hFault : Value.binary op a b = .error fault) :
    fault = .divisionByZero := by
  have hExact {bits : Nat} {m n : Int} {f : Int → Value}
      (h : (op.exact bits m n).map f = .error fault) : fault = .divisionByZero := by
    by_cases hn : n = 0 <;> cases op <;> simp_all [exact, Except.map]
  cases h with
  | truths hp hq hOp =>
    obtain ⟨a, rfl⟩ := Value.eq_bool ha hp
    obtain ⟨b, rfl⟩ := Value.eq_bool hb hq
    cases op <;> first | (cases hOp; done) | cases hFault
  | ints hp hq =>
    obtain ⟨a, rfl⟩ := Value.eq_int ha hp
    obtain ⟨b, rfl⟩ := Value.eq_int hb hq
    exact hExact hFault
  | shiftedInt hp hq hOp =>
    obtain ⟨a, rfl⟩ := Value.eq_int ha hp
    obtain ⟨b, rfl⟩ := Value.eq_long hb hq
    rw [Value.binary, if_pos hOp] at hFault
    exact hExact hFault
  | widened hp hq hOp =>
    obtain ⟨a, rfl⟩ := Value.eq_int ha hp
    obtain ⟨b, rfl⟩ := Value.eq_long hb hq
    rw [Value.binary, hOp] at hFault
    exact hExact hFault
  | longs hp hq =>
    obtain ⟨a, rfl⟩ := Value.eq_long ha hp
    rcases hq with hq | hq
    · obtain ⟨b, rfl⟩ := Value.eq_int hb hq
      exact hExact hFault
    · obtain ⟨b, rfl⟩ := Value.eq_long hb hq
      exact hExact hFault

/-- What can be compared is compared. -/
theorem Value.compare_comparable {op : CompareOp} {q : Primitive}
    (hComparable : ctx.isComparable op (.prim p) (.prim q)) (hp : p.isDiscrete) (hq : q.isDiscrete)
    {a b : Value} (ha : a.fits p) (hb : b.fits q) : ∃ c, Value.compare op a b = .ok c := by
  cases hPromoted : (JavaType.prim p).promotedWith? (.prim q) with
  | some t =>
    obtain ⟨r, rfl, hTyped, -⟩ := JavaType.promotedWith?_discrete hPromoted hp hq
    obtain ⟨_, _, _, _, -, -, -, -, hCompare⟩ := hTyped.compare_converted op ha hb
    exact ⟨_, hCompare⟩
  | none =>
    obtain ⟨rfl, rfl, hOp⟩ := TypingContext.comparable_truths hComparable hPromoted
    obtain ⟨a, rfl⟩ := Value.eq_bool ha rfl
    obtain ⟨b, rfl⟩ := Value.eq_bool hb rfl
    rcases hOp with rfl | rfl <;> exact ⟨_, rfl⟩

/-- No number is divided by zero. -/
theorem Value.binary_zero {op : BinaryOp} (hOp : op = .div ∨ op = .rem) {w u : Value}
    (hw : w.number? = some 0) : binary op v w ≠ .ok u := by
  intro h
  cases w with
  | bool => cases hw
  | int b | long b =>
    obtain hb : b.toInt = 0 := Option.some.inj hw
    rcases hOp with rfl | rfl <;> cases v <;>
      simp [Value.binary, BinaryOp.isShift, Value.onInts, Value.onLongs, BinaryOp.exact, hb, Except.map] at h

open Evaluation in
/-- Evaluation of a typed expression over integers and truth values is safe. Its type is that of an
integer or a truth value, and so is what comes out. -/
theorem eval_safe {types : Nat → Primitive} : (e : Expr) →
    e.Scalar ctx (ctx.Holds types) → ∀ {t}, ctx.typeOf e = .ok t →
    ∃ p, t = .prim p ∧ p.isDiscrete ∧ Safe types (eval ctx e) fun v => v.fits p.promoted
  | .int a kind, _, t, hType => by
    rw [TypingContext.typeOf_int] at hType
    cases hType
    exact ⟨_, rfl, by cases kind <;> rfl, .pure (by cases kind <;> rfl)⟩
  | .long a, _, t, hType => by
    rw [TypingContext.typeOf_long] at hType
    cases hType
    exact ⟨_, rfl, rfl, .pure rfl⟩
  | .bool b, _, t, hType => by
    rw [TypingContext.typeOf_bool] at hType
    cases hType
    exact ⟨_, rfl, rfl, .pure rfl⟩
  | .var v, hv, t, hType => by
    have hv : ctx.Holds types v := hv
    rw [TypingContext.typeOf_var, hv.type] at hType
    cases hType
    refine ⟨_, rfl, hv.discrete, ?_⟩
    rw [eval]
    exact (Safe.read hv.discrete).promoted
  | .name n, hReaches, t, hType => by
    obtain ⟨target, p, v, d, hTarget, hOwn, -, hMeans, hValue⟩ := TypingContext.ReachesConstant.means hReaches
    obtain rfl : t = .prim p := Except.ok.inj ((TypingContext.typeOf_name hType hTarget).symm.trans hOwn)
    refine ⟨p, rfl, hMeans.isDiscrete, ?_⟩
    rw [eval]
    exact .expect ⟨v, hValue, hMeans.fits⟩
  | .field e n, ⟨_, hReaches⟩, t, hType => by
    obtain ⟨target, p, v, d, hTarget, hOwn, -, hMeans, hValue⟩ := TypingContext.ReachesConstant.means hReaches
    obtain ⟨q, hDenote, hTarget⟩ := except_bind_ok.1 hTarget
    obtain rfl : t = .prim p := Except.ok.inj ((TypingContext.typeOf_field hType hDenote hTarget).symm.trans hOwn)
    refine ⟨p, rfl, hMeans.isDiscrete, ?_⟩
    rw [eval]
    exact .expect ⟨v, hValue, hMeans.fits⟩
  | .unary op e, he, t, hType => by
    obtain ⟨a, hTypeE, hUnary⟩ := TypingContext.typeOf_unary.1 hType
    obtain ⟨p, rfl, hp, hSafe⟩ := eval_safe e he hTypeE
    obtain ⟨rfl, hKind⟩ := TypingContext.unaryType_discrete hUnary hp
    refine ⟨_, rfl, Primitive.isDiscrete_promoted hp, ?_⟩
    rw [eval, Primitive.promoted_promoted]
    refine .bind hSafe fun v hv => ?_
    rcases hKind with hInt | hLong
    · obtain ⟨a, rfl⟩ := Value.eq_int hv (by rw [hInt]; rfl)
      rw [Value.unary_int, hInt]
      exact .pure rfl
    · obtain ⟨a, rfl⟩ := Value.eq_long hv (by rw [hLong]; rfl)
      rw [Value.unary_long, hLong]
      exact .pure rfl
  | .binary op l r, he, t, hType => by
    obtain ⟨a, b, hTypeL, hTypeR, hBinary⟩ := TypingContext.typeOf_binary.1 hType
    obtain ⟨p, rfl, hp, hSafeL⟩ := eval_safe l he.1 hTypeL
    obtain ⟨q, rfl, hq, hSafeR⟩ := eval_safe r he.2 hTypeR
    rw [TypingContext.binaryType_promoted] at hBinary
    obtain ⟨k, rfl, hTyped⟩ := TypingContext.binaryType_discrete hBinary
      (Primitive.isDiscrete_promoted hp) (Primitive.isDiscrete_promoted hq)
    refine ⟨k, rfl, hTyped.isDiscrete, ?_⟩
    rw [eval]
    refine .bind hSafeL fun v hv => .bind hSafeR fun w hw => .answer ?_ ?_
    · exact fun c hc => Value.fits_promoted (hTyped.result_fits hv hw hc)
    · exact fun fault hFault => hTyped.fault hv hw hFault
  | .compare op l r, he, t, hType => by
    obtain ⟨a, b, hTypeL, hTypeR, hComparable, rfl⟩ := TypingContext.typeOf_compare.1 hType
    obtain ⟨p, rfl, hp, hSafeL⟩ := eval_safe l he.1 hTypeL
    obtain ⟨q, rfl, hq, hSafeR⟩ := eval_safe r he.2 hTypeR
    have hComparable : ctx.isComparable op (.prim p.promoted) (.prim q.promoted) := by
      cases p <;> cases q <;> exact hComparable
    refine ⟨.boolean, rfl, rfl, ?_⟩
    rw [eval]
    refine .bind hSafeL fun v hv => .bind hSafeR fun w hw => ?_
    obtain ⟨c, hc⟩ := Value.compare_comparable hComparable (Primitive.isDiscrete_promoted hp)
      (Primitive.isDiscrete_promoted hq) hv hw
    rw [hc]
    exact .pure rfl
  | .and l r, he, t, hType => by
    obtain ⟨hTypeL, hTypeR, rfl⟩ := TypingContext.typeOf_and.1 hType
    obtain ⟨p, hp, -, hSafeL⟩ := eval_safe l he.1 hTypeL
    obtain ⟨q, hq, -, hSafeR⟩ := eval_safe r he.2 hTypeR
    cases hp
    cases hq
    refine ⟨.boolean, rfl, rfl, ?_⟩
    rw [eval]
    refine .bind hSafeL fun v hv => .bind (.truth hv) fun b _ => ?_
    split
    · exact .bind hSafeR fun w hw => .bind (.truth hw) fun _ _ => .pure rfl
    · exact .pure rfl
  | .or l r, he, t, hType => by
    obtain ⟨hTypeL, hTypeR, rfl⟩ := TypingContext.typeOf_or.1 hType
    obtain ⟨p, hp, -, hSafeL⟩ := eval_safe l he.1 hTypeL
    obtain ⟨q, hq, -, hSafeR⟩ := eval_safe r he.2 hTypeR
    cases hp
    cases hq
    refine ⟨.boolean, rfl, rfl, ?_⟩
    rw [eval]
    refine .bind hSafeL fun v hv => .bind (.truth hv) fun b _ => ?_
    split
    · exact .pure rfl
    · exact .bind hSafeR fun w hw => .bind (.truth hw) fun _ _ => .pure rfl
  | .not e, he, t, hType => by
    obtain ⟨hTypeE, rfl⟩ := TypingContext.typeOf_not.1 hType
    obtain ⟨p, hp, -, hSafe⟩ := eval_safe e he hTypeE
    cases hp
    refine ⟨.boolean, rfl, rfl, ?_⟩
    rw [eval]
    exact .bind hSafe fun v hv => .bind (.truth hv) fun _ _ => .pure rfl
  | .cast (.primitive q) e, he, t, hType => by
    obtain ⟨a, hTypeE, hCast, rfl⟩ := TypingContext.typeOf_cast.1 hType
    obtain ⟨p, rfl, hp, hSafe⟩ := eval_safe e he.2 hTypeE
    refine ⟨q, rfl, he.1, ?_⟩
    rw [eval]
    exact .bind hSafe fun v hv =>
      .convert hv he.1 (Primitive.promoted_eq_boolean.trans (TypingContext.isCastable_truth hCast))
  | .conditional test a b, he, t, hType => by
    obtain ⟨hTypeC, ta, tb, hTypeA, hTypeB, hBranch⟩ := TypingContext.typeOf_conditional.1 hType
    obtain ⟨o, ho, -, hSafeC⟩ := eval_safe test he.1 hTypeC
    cases ho
    obtain ⟨p, rfl, hp, hSafeA⟩ := eval_safe a he.2.1 hTypeA
    obtain ⟨q, rfl, hq, hSafeB⟩ := eval_safe b he.2.2 hTypeB
    obtain ⟨r, rfl, hr, hTruthA, hTruthB⟩ := TypingContext.branchType_discrete hBranch hp hq
    refine ⟨r, rfl, hr, ?_⟩
    rw [eval, hType]
    refine .bind hSafeC fun v hv => .bind (.truth hv) fun pick _ => ?_
    split
    · exact .bind hSafeA fun w hw => .convert hw hr (Primitive.promoted_eq_boolean.trans hTruthA)
    · exact .bind hSafeB fun w hw => .convert hw hr (Primitive.promoted_eq_boolean.trans hTruthB)
  | .assign none (.var v) value, he, t, hType => by
    have hv : ctx.Holds types v := he.1
    have hInit : ∀ items, value ≠ .arrayInit items := by
      rintro items rfl
      exact he.2
    obtain ⟨hOwn, source, hSource, hAssign⟩ := (TypingContext.typeOf_assign hInit).1 hType
    rw [hv.type] at hOwn
    cases hOwn
    obtain ⟨p, rfl, hp, hSafe⟩ := eval_safe value he.2 hSource
    have hTruth : p = .boolean ↔ types v.number = .boolean := by
      rcases hAssign with hAssign | hNarrows
      · exact Viewpoint.assignable_truth hAssign
      · exact (TypingContext.narrows_int hNarrows).1
    refine ⟨_, rfl, hv.discrete, ?_⟩
    rw [eval]
    refine .bind hSafe fun w hw => ?_
    exact (Safe.assign hv hw (Primitive.promoted_eq_boolean.trans hTruth)).promoted
  | .assign (some op) (.var v) value, he, t, hType => by
    have hv : ctx.Holds types v := he.1
    obtain ⟨hOwn, source, hSource, hCompound⟩ := TypingContext.typeOf_compound.1 hType
    rw [hv.type] at hOwn
    cases hOwn
    obtain ⟨p, rfl, hp, hSafe⟩ := eval_safe value he.2 hSource
    obtain ⟨k, hBinary⟩ := TypingContext.compoundFits_prim hCompound
    rw [TypingContext.binaryType_promoted] at hBinary
    obtain ⟨r, rfl, hTyped⟩ := TypingContext.binaryType_discrete hBinary
      (Primitive.isDiscrete_promoted hv.discrete) (Primitive.isDiscrete_promoted hp)
    refine ⟨_, rfl, hv.discrete, ?_⟩
    rw [eval]
    refine .bind (Safe.read hv.discrete).promoted fun old hOld => .bind hSafe fun w hw => ?_
    refine .bind (P := fun c => c.fits r) (.answer ?_ ?_) fun c hc => ?_
    · exact fun c hc => hTyped.result_fits hOld hw hc
    · exact fun fault hFault => hTyped.fault hOld hw hFault
    · exact (Safe.assign hv hc
        (hTyped.left_truth.symm.trans Primitive.promoted_eq_boolean)).promoted
  | .incDec increases before (.var v), hv, t, hType => by
    have hv : ctx.Holds types v := hv
    obtain ⟨hOwn, hNumeric⟩ := TypingContext.typeOf_incDec.1 hType
    rw [hv.type] at hOwn
    cases hOwn
    have hTyped : ∃ r, (if increases then BinaryOp.add else .sub).Typed (types v.number) .int r := by
      obtain ⟨hInt | hLong, -⟩ := Primitive.promoted_numeric hv.discrete hNumeric
      · exact ⟨_, .ints hInt rfl⟩
      · exact ⟨_, .longs hLong (.inl rfl)⟩
    obtain ⟨r, hTyped⟩ := hTyped
    refine ⟨_, rfl, hv.discrete, ?_⟩
    rw [eval]
    refine .bind (Safe.read hv.discrete) fun old hOld => ?_
    refine .bind (P := fun c => c.fits r) (.answer ?_ ?_) fun c hc => ?_
    · exact fun c hc => hTyped.result_fits hOld rfl hc
    · exact fun fault hFault => hTyped.fault hOld rfl hFault
    · refine .bind (Safe.assign hv hc hTyped.left_truth.symm) fun new hNew => .pure ?_
      split
      · exact Value.fits_promoted hNew
      · exact Value.fits_promoted hOld

/-! Checking keeps the value. -/

theorem Const.Means.convert_number {r : Primitive} (h : c.Means p v)
    (hp : (JavaType.prim p).isNumeric) (hr : (JavaType.prim r).isNumeric) :
    ∃ d, c.convert r = some d := by
  cases h with
  | bool => cases hp
  | int a kind => cases r <;> first | exact ⟨_, rfl⟩ | cases hr
  | long a => cases r <;> first | exact ⟨_, rfl⟩ | cases hr

theorem Const.Means.constant_toExpr (h : c.Means p v) : ctx.constant c.toExpr = some c := by
  cases h with
  | int a kind => simp [Const.toExpr, TypingContext.constant, constantWith]
  | long | bool => simp [Const.toExpr, TypingContext.constant, constantWith]

theorem Const.Means.eval_toExpr (h : c.Means p v) : eval ctx c.toExpr = pure v := by
  cases h with
  | int a kind => simp [Const.toExpr, eval]
  | long | bool => simp [Const.toExpr, eval]

theorem Const.Means.scalar_toExpr {known : Variable → Prop} (h : c.Means p v) : c.toExpr.Scalar ctx known := by
  cases h <;> trivial

/-- A tree that may stand in place of another one. Both have a type, and the same constant and value. -/
structure Expr.Kept (ctx : TypingContext) (known : Variable → Prop) (e e' : Expr) (t : JavaType) : Prop where
  before : ctx.typeOf e = .ok t
  after : ctx.typeOf e' = .ok t
  constant : ctx.constant e' = ctx.constant e
  value : eval ctx e' = eval ctx e
  scalar : e'.Scalar ctx known

namespace Expr.Kept

variable {ctx : TypingContext} {known : Variable → Prop} {types : Nat → Primitive} {e e' l l' r r' : Expr}
  {t a b : JavaType} {p : Primitive}

theorem refl (he : e.Scalar ctx known) (hType : ctx.typeOf e = .ok t) : e.Kept ctx known e t :=
  ⟨hType, hType, rfl, rfl, he⟩

theorem trans {e'' : Expr} (h : e.Kept ctx known e' t) (h' : e'.Kept ctx known e'' t) : e.Kept ctx known e'' t where
  before := h.before
  after := h'.after
  constant := h'.constant.trans h.constant
  value := h'.value.trans h.value
  scalar := h'.scalar

theorem constantWith_eq (h : e.Kept ctx known e' t) :
    constantWith ctx ctx.forward e' = constantWith ctx ctx.forward e := h.constant

theorem typeOf_eq (h : e.Kept ctx known e' t) : ctx.typeOf e' = ctx.typeOf e := h.after.trans h.before.symm

theorem unary (op : UnaryOp) (h : e.Kept ctx known e' a) (hType : ctx.typeOf (.unary op e') = .ok t) :
    (Expr.unary op e).Kept ctx known (.unary op e') t where
  before := by rwa [TypingContext.typeOf_unary, ← h.typeOf_eq, ← TypingContext.typeOf_unary]
  after := hType
  constant := by rw [TypingContext.constant, TypingContext.constant, constantWith, constantWith, h.constantWith_eq]
  value := by rw [eval, eval, h.value]
  scalar := h.scalar

theorem binary (op : BinaryOp) (hl : l.Kept ctx known l' a) (hr : r.Kept ctx known r' b)
    (hType : ctx.typeOf (.binary op l' r') = .ok t) :
    (Expr.binary op l r).Kept ctx known (.binary op l' r') t where
  before := by rwa [TypingContext.typeOf_binary, ← hl.typeOf_eq, ← hr.typeOf_eq, ← TypingContext.typeOf_binary]
  after := hType
  constant := by
    rw [TypingContext.constant, TypingContext.constant, constantWith, constantWith, hl.constantWith_eq,
      hr.constantWith_eq]
  value := by rw [eval, eval, hl.value, hr.value]
  scalar := ⟨hl.scalar, hr.scalar⟩

theorem compare (op : CompareOp) (hl : l.Kept ctx known l' a) (hr : r.Kept ctx known r' b)
    (hType : ctx.typeOf (.compare op l' r') = .ok t) :
    (Expr.compare op l r).Kept ctx known (.compare op l' r') t where
  before := by rwa [TypingContext.typeOf_compare, ← hl.typeOf_eq, ← hr.typeOf_eq, ← TypingContext.typeOf_compare]
  after := hType
  constant := by
    rw [TypingContext.constant, TypingContext.constant, constantWith, constantWith, hl.constantWith_eq,
      hr.constantWith_eq]
  value := by rw [eval, eval, hl.value, hr.value]
  scalar := ⟨hl.scalar, hr.scalar⟩

theorem and (hl : l.Kept ctx known l' a) (hr : r.Kept ctx known r' b)
    (hType : ctx.typeOf (.and l' r') = .ok t) : (Expr.and l r).Kept ctx known (.and l' r') t where
  before := by rwa [TypingContext.typeOf_and, ← hl.typeOf_eq, ← hr.typeOf_eq, ← TypingContext.typeOf_and]
  after := hType
  constant := by
    rw [TypingContext.constant, TypingContext.constant, constantWith, constantWith, hl.constantWith_eq,
      hr.constantWith_eq]
  value := by rw [eval, eval, hl.value, hr.value]
  scalar := ⟨hl.scalar, hr.scalar⟩

theorem or (hl : l.Kept ctx known l' a) (hr : r.Kept ctx known r' b)
    (hType : ctx.typeOf (.or l' r') = .ok t) : (Expr.or l r).Kept ctx known (.or l' r') t where
  before := by rwa [TypingContext.typeOf_or, ← hl.typeOf_eq, ← hr.typeOf_eq, ← TypingContext.typeOf_or]
  after := hType
  constant := by
    rw [TypingContext.constant, TypingContext.constant, constantWith, constantWith, hl.constantWith_eq,
      hr.constantWith_eq]
  value := by rw [eval, eval, hl.value, hr.value]
  scalar := ⟨hl.scalar, hr.scalar⟩

theorem not (h : e.Kept ctx known e' a) (hType : ctx.typeOf (.not e') = .ok t) :
    (Expr.not e).Kept ctx known (.not e') t where
  before := by rwa [TypingContext.typeOf_not, ← h.typeOf_eq, ← TypingContext.typeOf_not]
  after := hType
  constant := by rw [TypingContext.constant, TypingContext.constant, constantWith, constantWith, h.constantWith_eq]
  value := by rw [eval, eval, h.value]
  scalar := h.scalar

theorem cast (hp : p.isDiscrete) (h : e.Kept ctx known e' a) (hType : ctx.typeOf (.cast (.primitive p) e') = .ok t) :
    (Expr.cast (.primitive p) e).Kept ctx known (.cast (.primitive p) e') t where
  before := by rwa [TypingContext.typeOf_cast, ← h.typeOf_eq, ← TypingContext.typeOf_cast]
  after := hType
  constant := by rw [TypingContext.constant, TypingContext.constant, constantWith, constantWith, h.constantWith_eq]
  value := by rw [eval, eval, h.value]
  scalar := ⟨hp, h.scalar⟩

theorem conditional {c c' : Expr} {k : JavaType} (hc : c.Kept ctx known c' k)
    (hl : l.Kept ctx known l' a) (hr : r.Kept ctx known r' b)
    (hType : ctx.typeOf (.conditional c' l' r') = .ok t) :
    (Expr.conditional c l r).Kept ctx known (.conditional c' l' r') t := by
  have hBefore : ctx.typeOf (.conditional c l r) = .ok t := by
    rwa [TypingContext.typeOf_conditional, ← hc.typeOf_eq, ← hl.typeOf_eq, ← hr.typeOf_eq,
      ← TypingContext.typeOf_conditional]
  refine ⟨hBefore, hType, ?_, ?_, hc.scalar, hl.scalar, hr.scalar⟩
  · rw [TypingContext.constant, TypingContext.constant, constantWith, constantWith,
      TypingContext.conditionalType_of_typeOf hType, TypingContext.conditionalType_of_typeOf hBefore,
      hc.constantWith_eq, hl.constantWith_eq, hr.constantWith_eq]
  · rw [eval, eval, hType, hBefore, hc.value, hl.value, hr.value]

theorem assign (op : Option BinaryOp) {v : Variable} (hv : known v) (h : e.Kept ctx known e' a)
    (he : e.Scalar ctx known) (hType : ctx.typeOf (.assign op (.var v) e') = .ok t) :
    (Expr.assign op (.var v) e).Kept ctx known (.assign op (.var v) e') t where
  before := by
    cases op with
    | none =>
      have hInit {x : Expr} (hx : x.Scalar ctx known) : ∀ items, x ≠ .arrayInit items := by
        rintro items rfl
        exact hx
      rwa [TypingContext.typeOf_assign (hInit he), ← h.typeOf_eq, ← h.constant,
        ← TypingContext.typeOf_assign (hInit h.scalar)]
    | some op => rwa [TypingContext.typeOf_compound, ← h.typeOf_eq, ← TypingContext.typeOf_compound]
  after := hType
  constant := by simp only [TypingContext.constant, constantWith]
  value := by cases op <;> rw [eval, eval, h.value]
  scalar := ⟨hv, h.scalar⟩

/-! Simplification. -/

/-- A branch that is cast to the type of a choice is a constant only if it was one. -/
theorem constant_of_promoteBranch {branch : Expr} {type : JavaType} {c : Const}
    (h : ctx.constant (ctx.promoteBranch type branch) = some c) :
    ∃ d, ctx.constant branch = some d := by
  unfold TypingContext.promoteBranch at h
  split at h
  · split at h
    · exact ⟨c, h⟩
    · rw [TypingContext.constant, constantWith] at h
      obtain ⟨d, hd, -⟩ := Option.bind_eq_some_iff.1 h
      exact ⟨d, hd⟩
  · exact ⟨c, h⟩

/-- A conversion that is carried out before the same conversion changes nothing. -/
theorem convert_promoteBranch (branch : Expr) (r : Primitive) :
    (eval ctx (ctx.promoteBranch (.prim r) branch) >>= fun v => Evaluation.expect .illTyped (v.convert r)) =
    eval ctx branch >>= fun v => Evaluation.expect .illTyped (v.convert r) := by
  unfold TypingContext.promoteBranch
  split
  · rename_i own p _ hp
    cases hp
    split
    · rfl
    · rw [eval, bind_assoc]
      refine congrArg (eval ctx branch >>= ·) (funext fun v => ?_)
      cases hConvert : v.convert r with
      | none => rfl
      | some w =>
        show Evaluation.expect .illTyped (w.convert r) = _
        rw [Value.convert_of_fits (Value.convert_fits hConvert)]
  · rfl

theorem scalar_promoteBranch {branch : Expr} (hp : p.isDiscrete)
    (h : branch.Scalar ctx known) : (ctx.promoteBranch (.prim p) branch).Scalar ctx known := by
  unfold TypingContext.promoteBranch
  split
  · rename_i own q _ hq
    cases hq
    split
    · exact h
    · exact ⟨hp, h⟩
  · exact h

/-- A choice between numbers is a constant if it is one between the promoted numbers. -/
theorem constant_promotedChoice {test : Expr} (he : (Expr.conditional test l r).Scalar ctx known)
    (hType : ctx.typeOf (.conditional test l r) = .ok (.prim p)) (hNumeric : (JavaType.prim p).isNumeric)
    (hConst : ctx.constant (.conditional test l r) = none) :
    ctx.constant (.conditional test (ctx.promoteBranch (.prim p) l) (ctx.promoteBranch (.prim p) r)) = none := by
  obtain ⟨-, ta, tb, hTypeL, hTypeR, hBranch⟩ := TypingContext.typeOf_conditional.1 hType
  obtain ⟨hNumericL, hNumericR, -⟩ := TypingContext.branchType_numeric hBranch hNumeric
  refine Option.eq_none_iff_forall_ne_some.2 fun c hc => ?_
  rw [TypingContext.constant, constantWith] at hc
  obtain ⟨pick, hPick, hc⟩ := Option.bind_eq_some_iff.1 hc
  cases pick with
  | bool pick =>
    obtain ⟨x, hx, hc⟩ := Option.bind_eq_some_iff.1 hc
    obtain ⟨y, hy, -⟩ := Option.bind_eq_some_iff.1 hc
    obtain ⟨x, hx⟩ := constant_of_promoteBranch hx
    obtain ⟨y, hy⟩ := constant_of_promoteBranch hy
    obtain ⟨q, v, rfl, hMeansL, -⟩ := constant_value l he.2.1 hTypeL hx
    obtain ⟨q', w, rfl, hMeansR, -⟩ := constant_value r he.2.2 hTypeR hy
    obtain ⟨d, hd⟩ := hMeansL.convert_number hNumericL hNumeric
    obtain ⟨d', hd'⟩ := hMeansR.convert_number hNumericR hNumeric
    have hChoice : ctx.constant (.conditional test l r) = some (if pick then d else d') := by
      rw [TypingContext.constant] at hx hy ⊢
      rw [constantWith, TypingContext.conditionalType_of_typeOf hType, hPick, hx, hy]
      show (if (JavaType.prim p).isNumeric then (if pick then x else y).convert p else _) = _
      rw [if_pos hNumeric]
      cases pick
      · exact hd'
      · exact hd
    rw [hChoice] at hConst
    cases hConst
  | _ => cases hc

/-- Simplification keeps the value. -/
theorem simplified (he : e.Scalar ctx (ctx.Holds types)) (hType : ctx.typeOf e = .ok t) :
    e.Kept ctx (ctx.Holds types) (ctx.simplified e t) t := by
  obtain ⟨p, rfl, hp, -⟩ := eval_safe e he hType
  unfold TypingContext.simplified
  split
  · exact .refl he hType
  · cases hConst : ctx.constant e with
    | some c =>
      obtain ⟨q, v, hSame, hMeans, hEval⟩ := constant_value e he hType hConst
      cases hSame
      exact
        { before := hType
          after := (TypingContext.typeOf_toExpr c).trans (by rw [hMeans.type])
          constant := by rw [hMeans.constant_toExpr, hConst]
          value := by rw [hMeans.eval_toExpr, hEval]
          scalar := hMeans.scalar_toExpr }
    | none =>
      cases e with
      | binary op l r =>
        cases op with
        | add =>
          dsimp only
          split
          · rename_i hString
            cases JavaType.isString_iff.1 hString
          · exact .refl he hType
        | _ => exact .refl he hType
      | conditional test l r =>
        dsimp only
        split
        · rename_i hNumeric
          have hPromoted := TypingContext.typeOf_promotedChoice hType hNumeric
          refine ⟨hType, hPromoted, ?_, ?_, he.1, scalar_promoteBranch hp he.2.1, scalar_promoteBranch hp he.2.2⟩
          · rw [constant_promotedChoice he hType hNumeric hConst, hConst]
          · rw [eval, eval, hType, hPromoted]
            refine congrArg (eval ctx test >>= ·) (funext fun v => ?_)
            refine congrArg (Evaluation.truth v >>= ·) (funext fun pick => ?_)
            split
            · exact convert_promoteBranch l p
            · exact convert_promoteBranch r p
        · exact .refl he hType
      | _ => exact .refl he hType

/-- What is concluded from a tree may stand in its place, and is a literal if the tree is constant. -/
theorem concluded {inner : Expr} (h : e.Kept ctx (ctx.Holds types) inner t) :
    e.Kept ctx (ctx.Holds types) (ctx.simplified inner t) t ∧
      ∀ c, ctx.constant e = some c → (ctx.simplified inner t).isLiteral := by
  refine ⟨h.trans (.simplified h.scalar h.after), fun c hc => ?_⟩
  rw [← h.constant] at hc
  unfold TypingContext.simplified
  split
  · assumption
  · rw [hc]
    cases c <;> rfl

end Expr.Kept

namespace TypingContext

variable {ctx : TypingContext} {types : Nat → Primitive}

/-- The tree that a check leaves may stand in place of the tree that was checked. -/
theorem check_kept : (e : Expr) → e.Scalar ctx (ctx.Holds types) → ∀ {e' t}, ctx.check e = ⟨e', .ok t⟩ →
    e.Kept ctx (ctx.Holds types) e' t ∧ ∀ c, ctx.constant e = some c → e'.isLiteral
  | .unary op e, he, _, _, h => by
    rw [check] at h
    obtain ⟨x, _, hx, hInner, rfl⟩ := concluded_map h
    exact ((check_kept e he hx).1.unary op hInner).concluded
  | .not e, he, _, _, h => by
    rw [check] at h
    obtain ⟨x, _, hx, hInner, rfl⟩ := concluded_map h
    exact ((check_kept e he hx).1.not hInner).concluded
  | .cast (.primitive p) e, he, _, _, h => by
    rw [check] at h
    obtain ⟨x, _, hx, hInner, rfl⟩ := concluded_map h
    exact ((check_kept e he.2 hx).1.cast he.1 hInner).concluded
  | .binary op l r, he, _, _, h => by
    rw [check] at h
    obtain ⟨x, _, y, _, hx, hy, hInner, rfl⟩ := concluded_pair h
    exact (.binary op (check_kept l he.1 hx).1 (check_kept r he.2 hy).1 hInner : Expr.Kept ..).concluded
  | .compare op l r, he, _, _, h => by
    rw [check] at h
    obtain ⟨x, _, y, _, hx, hy, hInner, rfl⟩ := concluded_pair h
    exact (.compare op (check_kept l he.1 hx).1 (check_kept r he.2 hy).1 hInner : Expr.Kept ..).concluded
  | .and l r, he, _, _, h => by
    rw [check] at h
    obtain ⟨x, _, y, _, hx, hy, hInner, rfl⟩ := concluded_pair h
    exact (.and (check_kept l he.1 hx).1 (check_kept r he.2 hy).1 hInner : Expr.Kept ..).concluded
  | .or l r, he, _, _, h => by
    rw [check] at h
    obtain ⟨x, _, y, _, hx, hy, hInner, rfl⟩ := concluded_pair h
    exact (.or (check_kept l he.1 hx).1 (check_kept r he.2 hy).1 hInner : Expr.Kept ..).concluded
  | .conditional c a b, he, _, _, h => by
    rw [check] at h
    obtain ⟨pair, _, z, _, hPair, hz, hInner, rfl⟩ := concluded_pair h
    obtain ⟨x, _, y, hx, hy, rfl⟩ := Checked.andThen_ok.1 hPair
    exact (.conditional (check_kept c he.1 hx).1 (check_kept a he.2.1 hy).1 (check_kept b he.2.2 hz).1
      hInner : Expr.Kept ..).concluded
  | .assign op (.var v) value, he, _, _, h => by
    have hInit : ∀ items, value ≠ .arrayInit items := by
      rintro items rfl
      exact he.2
    rw [check] at h
    · obtain ⟨place, _, value', _, hPlace, hValue, hInner, rfl⟩ := concluded_pair h
      simp only [checkLocation] at hPlace
      cases hPlace
      exact ((check_kept value he.2 hValue).1.assign op he.1 he.2 hInner).concluded
    · exact fun items h => hInit items h
  | .incDec increases before (.var v), hv, _, _, h => by
    rw [check] at h
    obtain ⟨place, _, hPlace, hInner, rfl⟩ := concluded_map h
    simp only [checkLocation] at hPlace
    cases hPlace
    exact (Expr.Kept.refl hv hInner).concluded
  | .field target n, he, _, _, h => by
    rw [check] at h
    obtain ⟨x, _, hx, hInner, rfl⟩ := concluded_map h
    obtain ⟨owner, hOwner⟩ := he.1
    rw [checkQualifier, hOwner] at hx
    cases hx
    exact (Expr.Kept.refl he hInner).concluded
  | .int _ _, he, _, _, h | .long _, he, _, _, h | .bool _, he, _, _, h | .name _, he, _, _, h
  | .var _, he, _, _, h => by
    simp only [check] at h
    obtain ⟨hInner, rfl⟩ := conclude_ok.1 h
    exact (Expr.Kept.refl he hInner).concluded

/-- A division by a constant zero is left as it is. -/
theorem check_division {op : BinaryOp} (hOp : op = .div ∨ op = .rem) {l r e' : Expr} {t : JavaType}
    {c : Const} (he : (Expr.binary op l r).Scalar ctx (ctx.Holds types)) (hConst : ctx.constant r = some c)
    (hZero : c.toLong? = some 0) (h : ctx.check (.binary op l r) = ⟨e', .ok t⟩) :
    ∃ l' r', e' = .binary op l' r' ∧ ctx.constant r' = some c := by
  rw [check] at h
  obtain ⟨x, _, y, _, hx, hy, hInner, rfl⟩ := concluded_pair h
  have hl := (check_kept l he.1 hx).1
  have hr := (check_kept r he.2 hy).1
  rw [← hr.constant] at hConst
  have hNone : ctx.constant (.binary op x y) = none := by
    refine Option.eq_none_iff_forall_ne_some.2 fun d hd => ?_
    rw [constant, constantWith] at hd
    obtain ⟨b, hb, hd⟩ := Option.bind_eq_some_iff.1 hd
    obtain ⟨c', hc', hd⟩ := Option.bind_eq_some_iff.1 hd
    obtain rfl : c = c' := Option.some.inj (hConst.symm.trans hc')
    obtain ⟨_, _, hTypeX, hTypeY, hBinary⟩ := typeOf_binary.1 hInner
    obtain ⟨p, v, rfl, hMeansX, -⟩ := constant_value x hl.scalar hTypeX hb
    obtain ⟨q, w, rfl, hMeansY, -⟩ := constant_value y hr.scalar hTypeY hConst
    obtain ⟨k, -, hTyped⟩ := binaryType_discrete hBinary hMeansX.isDiscrete hMeansY.isDiscrete
    obtain ⟨u, hu, -⟩ := hMeansX.binary hMeansY hTyped hd
    have hNumber : w.number? = some 0 := by
      cases hMeansY with
      | int a kind =>
        have hLong : a.toInt64 = 0 := Option.some.inj hZero
        exact congrArg some (by rw [← Int32.toInt_toInt64, hLong]; rfl)
      | long a =>
        cases hZero
        rfl
      | bool => cases hZero
    exact Value.binary_zero hOp hNumber hu
  refine ⟨x, y, ?_, hConst⟩
  show ctx.simplified (.binary op x y) t = _
  unfold simplified
  rw [if_neg (by simp [Expr.isLiteral, Expr.isKeyword]), hNone]
  rcases hOp with rfl | rfl <;> rfl

end TypingContext

/-- Checking an expression over integers, truth values and the constants of classes keeps its meaning. On
filled variables, both trees give the same value and leave the same variables behind, or both divide by
zero after the same changes; and no other store tells them apart. A constant expression becomes a literal
of its value, but a division by a constant zero remains. -/
theorem checking_keeps_value {ctx : TypingContext} {types : Nat → Primitive} {e e' : Expr}
    {t : JavaType} (he : e.Scalar ctx (ctx.Holds types)) (h : ctx.check e = ⟨e', .ok t⟩) :
    (∀ σ, Store.Filled types σ →
      (∃ p v σ', t = .prim p ∧ v.fits p.promoted ∧ eval ctx e σ = .ok v σ' ∧ eval ctx e' σ = .ok v σ') ∨
        ∃ σ', eval ctx e σ = .error .divisionByZero σ' ∧ eval ctx e' σ = .error .divisionByZero σ') ∧
      eval ctx e' = eval ctx e ∧
      (∀ c, ctx.constant e = some c → e'.isLiteral ∧ ∃ p v, t = .prim p ∧ c.Means p v ∧ eval ctx e = pure v) ∧
      ∀ op l r c, e = .binary op l r → op = .div ∨ op = .rem → ctx.constant r = some c →
        c.toLong? = some 0 → ∃ l' r', e' = .binary op l' r' ∧ ctx.constant r' = some c := by
  obtain ⟨hKept, hLiteral⟩ := TypingContext.check_kept e he h
  obtain ⟨p, rfl, -, hSafe⟩ := eval_safe e he hKept.before
  refine ⟨?_, hKept.value, ?_, ?_⟩
  · intro σ hσ
    rw [hKept.value]
    cases hEval : eval ctx e σ with
    | ok v σ' => exact .inl ⟨p, v, σ', rfl, (hSafe.ok σ v σ' hσ hEval).1, rfl, rfl⟩
    | error fault σ' =>
      obtain ⟨rfl, -⟩ := hSafe.error σ fault σ' hσ hEval
      exact .inr ⟨σ', rfl, rfl⟩
  · intro c hc
    exact ⟨hLiteral c hc, constant_value e he hKept.before hc⟩
  · rintro op l r c rfl hOp hc hZero
    exact TypingContext.check_division hOp he hc hZero h

/-- The largest `int` of a class plus one is folded to the smallest before it is added to a `long`. -/
theorem checking_keeps_value_overflow : let greatest : FieldModel :=
      ⟨"MAX", "I", AccessFlags.staticFlag.union .finalFlag, some (.int 2147483647)⟩
    let owner : ClassModel := { ClassModel.ofName "A" with fields := [greatest] }
    let view : Viewpoint :=
      { (default : Viewpoint) with
        thisClass := "A"
        table := ⟨[owner]⟩ }
    let ctx : TypingContext := { (default : TypingContext) with view := view }
    let x : Expr := .var ⟨0, "x", .primitive .long⟩
    let e : Expr := .assign (some .add) x (.binary .add (.name "MAX") (.int 1 .int))
    let e' : Expr := .assign (some .add) x (.int (-2147483648) .int)
    ctx.check e = ⟨e', .ok .long⟩ ∧ eval ctx e' = eval ctx e ∧
      ∃ σ, eval ctx e' (fun _ => some (.long 8)) = .ok (.long (-2147483640)) σ := by
  intro greatest owner view ctx x e e'
  have hCheck : ctx.check e = ⟨e', .ok .long⟩ := by cbv
  have hReaches : ctx.ReachesConstant (.name "MAX") :=
    ⟨⟨owner, greatest⟩, .int 2147483647, .int, by cbv, by cbv, rfl, by cbv, rfl, by cbv⟩
  have he : e.Scalar ctx (ctx.Holds fun _ => .long) := ⟨⟨rfl, rfl⟩, hReaches, trivial⟩
  exact ⟨hCheck, (checking_keeps_value he hCheck).2.1, _, rfl⟩

end JavaFragment
