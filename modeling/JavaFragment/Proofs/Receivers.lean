import JavaFragment.Proofs.BufferOperations
import JavaFragment.Proofs.CheckedTypes
/-!
The receivers of members. The receiver of a member of an object is compiled once, before the arguments and
before the access. The receiver of a static member gives its type alone: whatever it would do, none of its
code is emitted.
-/
namespace JavaFragment

/-- Whether a field is reached without an object. -/
def FieldTarget.isStatic : FieldTarget → Bool
  | .ofClass _ => true
  | .arrayLength | .ofObject _ => false

namespace Emit

variable {ctx : TypingContext} {s t : EmitState} {u : Unit}

/-- The state after the receiver of a member, which is compiled for a member of an object only. -/
def Receives (isStatic : Bool) (receiver : Emit JavaType) (s t : EmitState) : Prop :=
  if isStatic then s = t else ∃ type, receiver s = .ok type t

/-- One instruction is added to the code. -/
def AddsOne (s t : EmitState) : Prop := ∃ i change, t.code = s.code.appendWith i change

theorem receiver_ok {receiver : Emit JavaType}
    (h : (do let _ ← receiver : Emit Unit) s = .ok u t) : ∃ type, receiver s = .ok type t := by
  obtain ⟨type, _, hReceiver, h⟩ := bind_ok.1 h
  obtain ⟨-, rfl⟩ := pure_ok.1 h
  exact ⟨type, hReceiver⟩

theorem invoke_addsOne {kind : InvokeKind} {owner name descriptor : String}
    (h : invoke kind owner name descriptor s = .ok u t) : AddsOne s t := by
  obtain ⟨index, r, hCode, h⟩ : ∃ index r, r.code = s.code ∧
      (liftM (CodeBuffer.emitInvoke kind index descriptor) : Emit Unit) r = .ok u t := by
    cases kind <;>
    · obtain ⟨index, r, hIndex, h⟩ := bind_ok.1 h
      exact ⟨index, r, (onPool_ok.1 hIndex).2 ▸ rfl, h⟩
  obtain ⟨c, hInvoke, rfl⟩ := onBuffer_ok.1 h
  rcases CodeBuffer.emitInvoke_cases r.code kind index descriptor with ⟨_, hFault⟩ | ⟨i, change, -, hAdded⟩
  · rw [hFault] at hInvoke
    cases hInvoke
  · rw [hAdded] at hInvoke
    cases hInvoke
    exact ⟨i, change, hCode ▸ rfl⟩

theorem accessor_code {owner : String} {m : SyntheticMethod}
    {request : AccessorTable → Except CompileError (SyntheticMethod × AccessorTable)}
    (h : accessor owner request s = .ok m t) : t.code = s.code := by
  obtain ⟨_, _, hGet, h⟩ := bind_ok.1 h
  obtain ⟨rfl, rfl⟩ := get_ok.1 hGet
  obtain ⟨_, _, hRequest, h⟩ := bind_ok.1 h
  obtain ⟨-, rfl⟩ := lift_ok.1 hRequest
  obtain ⟨_, _, hModify, h⟩ := bind_ok.1 h
  obtain rfl := modify_ok.1 hModify
  obtain ⟨-, rfl⟩ := pure_ok.1 h
  rfl

theorem accessField_addsOne {f : Declared FieldModel} {type : JavaType} {put : Bool}
    (h : accessField ctx f type put s = .ok u t) : AddsOne s t := by
  unfold accessField at h
  dsimp only at h
  split at h
  · obtain ⟨m, r, hAccessor, h⟩ := bind_ok.1 h
    obtain ⟨i, change, hAdded⟩ := invoke_addsOne h
    exact ⟨i, change, accessor_code hAccessor ▸ hAdded⟩
  · obtain ⟨index, r, hIndex, h⟩ := bind_ok.1 h
    obtain rfl := change_ok.1 h
    obtain ⟨-, rfl⟩ := onPool_ok.1 hIndex
    exact ⟨_, _, rfl⟩

end Emit

namespace ExprCode

open Emit

variable {ctx : TypingContext} {s t : EmitState} {receiver : Emit JavaType}

theorem readField_ok {found : FieldTarget} {type : JavaType}
    (h : readField ctx (do let _ ← receiver) found s = .ok type t) :
    ∃ r, Receives found.isStatic receiver s r ∧ AddsOne r t := by
  cases found with
  | arrayLength =>
    obtain ⟨_, r, hReceiver, h⟩ := bind_ok.1 h
    obtain ⟨_, _, hEmit, h⟩ := bind_ok.1 h
    obtain rfl := emit_ok.1 hEmit
    obtain ⟨-, rfl⟩ := pure_ok.1 h
    exact ⟨r, receiver_ok hReceiver, _, _, rfl⟩
  | ofClass f =>
    obtain ⟨_, _, hType, h⟩ := bind_ok.1 h
    obtain ⟨-, rfl⟩ := lift_ok.1 hType
    obtain ⟨_, _, hAccess, h⟩ := bind_ok.1 h
    obtain ⟨-, rfl⟩ := pure_ok.1 h
    exact ⟨s, rfl, accessField_addsOne hAccess⟩
  | ofObject f =>
    obtain ⟨_, r, hReceiver, h⟩ := bind_ok.1 h
    obtain ⟨_, _, hType, h⟩ := bind_ok.1 h
    obtain ⟨-, rfl⟩ := lift_ok.1 hType
    obtain ⟨_, _, hAccess, h⟩ := bind_ok.1 h
    obtain ⟨-, rfl⟩ := pure_ok.1 h
    exact ⟨r, receiver_ok hReceiver, accessField_addsOne hAccess⟩

theorem fieldLocation_ok {e : Expr} {found : Option FieldTarget} {l : Location}
    (h : fieldLocation e (do let _ ← receiver) found s = .ok l t) :
    ∃ target, found = some target ∧ Receives target.isStatic receiver s t := by
  unfold fieldLocation at h
  split at h
  · obtain ⟨_, _, hType, h⟩ := bind_ok.1 h
    obtain ⟨-, rfl⟩ := lift_ok.1 hType
    exact ⟨_, rfl, (pure_ok.1 h).2⟩
  · obtain ⟨_, r, hReceiver, h⟩ := bind_ok.1 h
    obtain ⟨_, _, hType, h⟩ := bind_ok.1 h
    obtain ⟨-, rfl⟩ := lift_ok.1 hType
    obtain ⟨-, rfl⟩ := pure_ok.1 h
    exact ⟨_, rfl, receiver_ok hReceiver⟩
  · exact (not_throw_ok h).elim
  · exact (not_throw_ok h).elim

theorem call_ok {found : CallTarget} {args : List ExprCode} {type : JavaType}
    (hReceiver : found.receiver = if found.selected.method.isStatic then .nothing else .target)
    (h : call ctx found receiver args s = .ok type t) :
    ∃ a b c, a.code = s.code ∧ Receives found.selected.method.isStatic receiver a b ∧
      pushArguments found.selected.signature.params args b = .ok () c ∧ AddsOne c t := by
  unfold call at h
  dsimp only at h
  rw [hReceiver] at h
  have hRest {a b : EmitState} {through : Option SyntheticMethod} (hCode : a.code = s.code)
      (hReceives : Receives found.selected.method.isStatic receiver a b)
      (h : callThrough found args through b = .ok type t) :
      ∃ a b c, a.code = s.code ∧ Receives found.selected.method.isStatic receiver a b ∧
        pushArguments found.selected.signature.params args b = .ok () c ∧ AddsOne c t := by
    obtain ⟨_, c, hArgs, h⟩ := bind_ok.1 h
    refine ⟨a, b, c, hCode, hReceives, hArgs, ?_⟩
    cases through <;>
    · obtain ⟨_, _, hInvoke, h⟩ := bind_ok.1 h
      obtain ⟨-, rfl⟩ := pure_ok.1 h
      exact invoke_addsOne hInvoke
  -- The accessor of a private method is asked for before anything is emitted.
  obtain ⟨through, a, hCode, h⟩ : ∃ through a, a.code = s.code ∧
      (if found.selected.method.isStatic then callThrough found args through
        else receiver >>= fun _ => callThrough found args through) a = .ok type t := by
    split at h <;> obtain ⟨through, a, hThrough, h⟩ := bind_ok.1 h
    · obtain ⟨_, hAccessor, -⟩ := map_ok.1 hThrough
      refine ⟨through, a, accessor_code hAccessor, ?_⟩
      split <;> rename_i hStatic <;> simp only [hStatic] at h <;> exact h
    · refine ⟨through, a, (pure_ok.1 hThrough).2 ▸ rfl, ?_⟩
      split <;> rename_i hStatic <;> simp only [hStatic] at h <;> exact h
  split at h
  · next hStatic => exact hRest hCode (by simp [Receives, hStatic]) h
  · next hStatic =>
    obtain ⟨u, b, hTarget, h⟩ := bind_ok.1 h
    exact hRest hCode (by simpa [Receives, hStatic] using ⟨u, hTarget⟩) h

end ExprCode

namespace TypingContext

open Emit

variable {ctx : TypingContext} {e e' : Expr} {type t : JavaType} {name : String} {args : List Expr}

theorem invokeKind_static {c : ClassModel} {selected : SelectedMethod} :
    ctx.invokeKind c selected = .static ↔ selected.method.isStatic := by
  unfold invokeKind
  repeat' split
  all_goals simp_all

/-- A call on a value has no receiver exactly if its method is static. -/
theorem memberCall_receiver {types : List JavaType} {found : CallTarget}
    (h : ctx.memberCall e name types (.value type) = .ok found) :
    found.receiver = if found.selected.method.isStatic then .nothing else .target := by
  have hCall {searched owner : String} (h : (do
      let selected ← ctx.view.lookupMethod searched name types
      let kind := ctx.invokeKind (← ctx.view.getClass searched) selected
      return (⟨if kind = InvokeKind.static then .nothing else .target, selected, kind, owner⟩ : CallTarget)) =
        .ok found) :
      found.receiver = if found.selected.method.isStatic then .nothing else .target := by
    obtain ⟨selected, -, h⟩ := except_bind_ok.1 h
    obtain ⟨c, -, h⟩ := except_bind_ok.1 h
    cases h
    simp only [invokeKind_static]
  rw [memberCall] at h
  split at h
  · exact hCall h
  · split at h
    · exact hCall h
    · cases h

/-- A checked access keeps its checked receiver, unless it is that of a constant of a class. -/
theorem check_field (hValue : ctx.denote e = .ok (.value type)) (h : ctx.check (.field e name) = ⟨e', .ok t⟩) :
    ∃ target u, ctx.check e = ⟨target, .ok u⟩ ∧ (e' = .field target name ∨
      ∃ f c, ctx.fieldTarget (.field target name) = .ok (some (.ofClass f)) ∧
        (FieldTarget.ofClass f).constant? = some c ∧ e' = c.toExpr) := by
  rw [check] at h
  obtain ⟨target, _, hQualifier, -, rfl⟩ := concluded_map h
  rcases checkQualifier_ok hQualifier with ⟨_, u, -, hTarget⟩ | ⟨-, d, hDenote, hNot⟩
  · refine ⟨target, u, hTarget, ?_⟩
    cases hConst : ctx.constant (.field target name) with
    | none => exact .inl (by simp [simplified, Expr.isLiteral, hConst])
    | some c =>
      refine .inr ?_
      have hSimple : ctx.simplified (.field target name) t = c.toExpr := by
        simp [simplified, Expr.isLiteral, Expr.isKeyword, hConst]
      rw [constant, constantWith] at hConst
      obtain ⟨d, hDenote, hConst⟩ := Option.bind_eq_some_iff.1 hConst
      obtain ⟨x, hFound, hConst⟩ := Option.bind_eq_some_iff.1 hConst
      obtain ⟨found, rfl, hConst⟩ := Option.bind_eq_some_iff.1 hConst
      rw [except_toOption] at hDenote hFound
      cases found with
      | ofClass f => exact ⟨f, c, except_bind_ok.2 ⟨d, hDenote, hFound⟩, hConst, hSimple⟩
      | _ => cases hConst
  · cases hValue.symm.trans hDenote
    exact (hNot _ rfl).elim

/-- A checked call keeps its checked receiver and arguments. -/
theorem check_callOn (hValue : ctx.denote e = .ok (.value type)) (hKeyword : e.isKeyword = false)
    (h : ctx.check (.callOn e name args) = ⟨e', .ok t⟩) :
    ∃ target u args', ctx.check e = ⟨target, .ok u⟩ ∧ ctx.checkArgs args = ⟨args', .ok ()⟩ ∧
      e' = .callOn target name args' := by
  rw [check] at h
  obtain ⟨target, _, args', _, hQualifier, hArgs, -, rfl⟩ := concluded_pair h
  rw [if_neg (by simp [hKeyword])] at hQualifier
  rcases checkQualifier_ok hQualifier with ⟨_, u, -, hTarget⟩ | ⟨-, d, hDenote, hNot⟩
  · exact ⟨target, u, args', hTarget, hArgs, by simp [simplified, constant, constantWith]⟩
  · cases hValue.symm.trans hDenote
    exact (hNot _ rfl).elim

/-- A member whose receiver is a value. The code of the receiver is emitted once and first if the member is
one of an object, and not at all if the member is static, where the member is read, assigned to or called.
Checking keeps the receiver, checked, except for that of a constant. -/
theorem receivers_compiled (hValue : ctx.denote e = .ok (.value type)) {s z : EmitState} :
    (∀ t, (ctx.compile (.field e name)).value s = .ok t z →
      ∃ found r, ctx.fieldTarget (.field e name) = .ok (some found) ∧
        Receives found.isStatic (ctx.compile e).value s r ∧ AddsOne r z) ∧
    (∀ l, (ctx.compile (.field e name)).location s = .ok l z →
      ∃ found, ctx.fieldTarget (.field e name) = .ok (some found) ∧ Receives found.isStatic (ctx.compile e).value s z) ∧
    (e.isKeyword = false → ∀ args t, (ctx.compile (.callOn e name args)).value s = .ok t z →
      ∃ types found codes a b c, ctx.argumentTypes args = .ok types ∧
        ctx.callTarget e (ctx.denote e) name types = .ok found ∧ a.code = s.code ∧
        Receives found.selected.method.isStatic (ctx.compile e).value a b ∧
        ExprCode.expand ctx args (compileAllWith ctx ctx.forwardCode args) = .ok codes ∧
        ExprCode.pushArguments found.selected.signature.params codes b = .ok () c ∧ AddsOne c z) ∧
    (∀ e' t, ctx.check (.field e name) = ⟨e', .ok t⟩ →
      ∃ target u, ctx.check e = ⟨target, .ok u⟩ ∧ (e' = .field target name ∨
        ∃ f c, ctx.fieldTarget (.field target name) = .ok (some (.ofClass f)) ∧
          (FieldTarget.ofClass f).constant? = some c ∧ e' = c.toExpr)) ∧
    (e.isKeyword = false → ∀ args e' t, ctx.check (.callOn e name args) = ⟨e', .ok t⟩ →
      ∃ target u args', ctx.check e = ⟨target, .ok u⟩ ∧ ctx.checkArgs args = ⟨args', .ok ()⟩ ∧
        e' = .callOn target name args') := by
  refine ⟨fun t h => ?_, fun l h => ?_, fun hKeyword args t h => ?_, fun _ _ => check_field hValue,
    fun hKeyword _ _ _ => check_callOn hValue hKeyword⟩
  · obtain ⟨found, _, hLift, h⟩ := bind_ok.1 h
    obtain ⟨hFound, rfl⟩ := lift_ok.1 hLift
    cases found with
    | none => exact (not_throw_ok h).elim
    | some found =>
      obtain ⟨r, hReceives, hAdds⟩ := ExprCode.readField_ok h
      exact ⟨found, r, hFound, hReceives, hAdds⟩
  · obtain ⟨found, _, hLift, h⟩ := bind_ok.1 h
    obtain ⟨hFound, rfl⟩ := lift_ok.1 hLift
    obtain ⟨target, rfl, hReceives⟩ := ExprCode.fieldLocation_ok h
    exact ⟨target, hFound, hReceives⟩
  · obtain ⟨types, _, hLift, h⟩ := bind_ok.1 h
    obtain ⟨hTypes, rfl⟩ := lift_ok.1 hLift
    obtain ⟨found, _, hLift, h⟩ := bind_ok.1 h
    obtain ⟨hFound, rfl⟩ := lift_ok.1 hLift
    obtain ⟨codes, _, hLift, h⟩ := bind_ok.1 h
    obtain ⟨hCodes, rfl⟩ := lift_ok.1 hLift
    obtain ⟨d, hDenote, hMember⟩ := callTarget_of_not_mark (.inr hKeyword) hFound
    cases hValue.symm.trans hDenote
    obtain ⟨a, b, c, hCode, hReceives, hArgs, hAdds⟩ := ExprCode.call_ok (memberCall_receiver hMember) h
    exact ⟨types, found, codes, a, b, c, hTypes, hFound, hCode, hReceives, hCodes, hArgs, hAdds⟩

/-- The call `make()` is made for a field of its result, and not for a static one. -/
theorem receivers_compiled_make : let owner : ClassModel := { ClassModel.ofName "A" with
      fields := [⟨"n", "I", .staticFlag, none⟩, ⟨"m", "I", .none, none⟩]
      methods := [⟨"make", "()LA;", .staticFlag⟩] }
    let ctx : TypingContext := { (default : TypingContext) with view := .ofClass ⟨[owner]⟩ "A" [] }
    let make : Expr := .call "make" []
    (∃ t z, (ctx.compile (.field make "n")).value default = .ok t z ∧ AddsOne default z) ∧
      ∃ t z, (ctx.compile (.field make "m")).value default = .ok t z ∧
        ∃ type r, (ctx.compile make).value default = .ok type r ∧ AddsOne r z := by
  intro owner ctx make
  have hMake : ctx.denote make = .ok (.value (.ofClass "A")) := by
    simp only [ctx, make, owner]
    rfl
  obtain ⟨n, t, z, hStatic, hRun⟩ : ∃ n t z, ctx.fieldTarget (.field make "n") = .ok (some (.ofClass n)) ∧
      (ctx.compile (.field make "n")).value default = .ok t z := by
    simp only [ctx, make, owner]
    exact ⟨_, _, _, rfl, rfl⟩
  obtain ⟨m, t', z', hObject, hRun'⟩ : ∃ m t z, ctx.fieldTarget (.field make "m") = .ok (some (.ofObject m)) ∧
      (ctx.compile (.field make "m")).value default = .ok t z := by
    simp only [ctx, make, owner]
    exact ⟨_, _, _, rfl, rfl⟩
  obtain ⟨_, r, hFound, hReceives, hAdds⟩ := (receivers_compiled hMake).1 t hRun
  obtain ⟨_, r', hFound', hReceives', hAdds'⟩ := (receivers_compiled hMake).1 t' hRun'
  cases hStatic.symm.trans hFound
  cases hObject.symm.trans hFound'
  cases hReceives
  obtain ⟨type, hReceiver⟩ := hReceives'
  exact ⟨⟨t, z, hRun, hAdds⟩, t', z', hRun', type, r', hReceiver, hAdds'⟩

end TypingContext

end JavaFragment
