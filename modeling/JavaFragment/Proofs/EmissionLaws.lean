import JavaFragment.Proofs.Faults
import JavaFragment.Proofs.WellFormed
/-!
Properties that emission has if its parts have them. All code is put together from a few kinds of steps. What a property
needs of these is a law, and the short sequences from which code is made follow it.
-/
namespace JavaFragment

/-! Rules of typing on which code relies. -/

namespace TypingContext

variable {t : JavaType}

theorem rank_of_isIntegral (h : isIntegral t) : ∃ p rank, t.primitive? = some p ∧ p.rank? = some rank ∧ rank ≤ 1 := by
  simp only [isIntegral, JavaType.promoted?, Bool.or_eq_true, beq_iff_eq, Option.bind_eq_some_iff,
    Option.map_eq_some_iff] at h
  rcases h with ⟨p, hp, rank, hRank, hSame⟩ | ⟨p, hp, rank, hRank, hSame⟩
  all_goals
    refine ⟨p, rank, hp, hRank, ?_⟩
    rcases rank with _ | _ | _ | rank <;> first | omega | cases hSame

/-- Shifts and bitwise operators have a type on which they are instructions. -/
theorem integerKind_of_binaryType {op : BinaryOp} {a b : JavaType} (hOp : (op.isShift || op.isBitwise) = true)
    (h : binaryType op a b = some t) : ∃ kind, Emit.integerKind (Emit.numberKind t) = some kind := by
  have hSmall {rank : Nat} (hRank : rank ≤ 1) :
      ∃ kind, Emit.integerKind (Emit.numberKind (.prim (.ofRank rank))) = some kind := by
    rcases rank with _ | _ | rank
    · exact ⟨.int, rfl⟩
    · exact ⟨.long, rfl⟩
    · omega
  unfold binaryType at h
  rw [hOp] at h
  split at h
  · next hAdd =>
    have hAdd : op = .add := by simpa using (Bool.and_eq_true_iff.1 hAdd).1
    rw [hAdd] at hOp
    cases hOp
  · split at h
    · cases h
      exact ⟨.int, rfl⟩
    · split at h
      · cases h
      · next hIntegral =>
        simp only [Bool.true_and, Bool.not_eq_true, Bool.not_eq_false', Bool.and_eq_true] at hIntegral
        obtain ⟨p, m, hp, hm, hm'⟩ := rank_of_isIntegral hIntegral.1
        obtain ⟨q, n, hq, hn, hn'⟩ := rank_of_isIntegral hIntegral.2
        split at h
        · simp only [JavaType.promoted?, hp, hm, Option.bind_some, Option.map_some, Option.some.injEq] at h
          exact h ▸ hSmall hm'
        · simp only [JavaType.promotedWith?, hp, hq, hm, hn, Option.bind_eq_bind, Option.bind_some,
            Option.pure_def, Option.some.injEq] at h
          exact h ▸ hSmall (Nat.max_le.2 ⟨hm', hn'⟩)

/-- An operator that has a type has an instruction. -/
theorem binaryInstruction_faults {P : CompileError → Prop} {op : BinaryOp} {a b : JavaType}
    (h : binaryType op a b = some t) : Faults P (Emit.binaryInstruction op t) := by
  cases op with
  | add | sub | mul | div | rem => exact .ok _
  | shl | shr | ushr | bitAnd | bitOr | bitXor =>
    obtain ⟨kind, hKind⟩ := integerKind_of_binaryType rfl h
    unfold Emit.binaryInstruction
    dsimp only
    rw [hKind]
    exact .ok _

end TypingContext

theorem JavaType.eq_prim {t : JavaType} {p : Primitive} (h : t.primitive? = some p) : t = .prim p := by
  obtain ⟨base, dims⟩ := t
  unfold primitive? at h
  split at h
  · next hBase hDims =>
    cases h
    obtain rfl : base = _ := hBase
    obtain rfl : dims = 0 := hDims
    rfl
  · cases h

namespace Emit

/-! Instructions that write no local. -/

theorem isInert_loadSlot (kind : SlotKind) (slot : UInt16) : (Instruction.loadSlot kind slot).isInert := by
  unfold Instruction.loadSlot
  split
  · rfl
  · split <;> rfl

theorem isInert_zero (kind : NumberKind) : (zero kind).isInert := by cases kind <;> rfl

theorem isInert_one (kind : NumberKind) : (one kind).isInert := by cases kind <;> rfl

theorem isPlain_storeSlot (kind : SlotKind) (slot : UInt16) : (Instruction.storeSlot kind slot).isPlain := by
  unfold Instruction.storeSlot
  split
  · rfl
  · split <;> rfl

theorem written?_storeSlot (kind : SlotKind) (slot : UInt16) :
    (Instruction.storeSlot kind slot).written? = some (slot.toNat, kind.words) := by
  unfold Instruction.storeSlot
  split
  · rfl
  · split
    · next hSmall => simp [Instruction.written?, UInt16.toNat_toUInt8, Nat.mod_eq_of_lt hSmall]
    · rfl

theorem isPlain_increment (slot : UInt16) (amount : Int16) : (Instruction.increment slot amount).isPlain := by
  unfold Instruction.increment
  split <;> rfl

theorem written?_increment (slot : UInt16) (amount : Int16) :
    (Instruction.increment slot amount).written? = some (slot.toNat, 1) := by
  unfold Instruction.increment
  split
  · next hSmall => simp [Instruction.written?, UInt16.toNat_toUInt8, Nat.mod_eq_of_lt hSmall.1]
  · rfl

theorem isInert_binaryInstruction {op : BinaryOp} {type : JavaType} {i : Instruction}
    (h : binaryInstruction op type = .ok i) : i.isInert := by
  unfold binaryInstruction at h
  cases op <;> cases hKind : numberKind type <;> rw [hKind] at h <;> cases h <;> rfl

theorem appendParameter_faults {P : CompileError → Prop} (hP : Lenient P) (type : JavaType) :
    Faults P (appendParameter type) := by
  refine .ite (fun _ => .ok _) fun _ => ?_
  split
  · exact .ok _
  · exact .mild hP nofun
  · exact .ok _
  · exact .ok _
  · exact .ok _

theorem isCallable_append {type : JavaType} {param : String} (h : appendParameter type = .ok param) :
    isCallable ("(" ++ param ++ ")L" ++ builderClass ++ ";") := by
  unfold appendParameter at h
  unfold isCallable
  split at h
  · cases h
    decide +kernel
  · split at h
    · cases h
      decide +kernel
    · cases h
    · cases h
      decide +kernel
    · cases h
      decide +kernel
    · next p hVoid _ _ _ =>
      cases h
      cases p with
      | void => exact (hVoid rfl).elim
      | _ => decide +kernel

/-- A property of emission that what is put together has if its parts have it. Only some faults may be reported. A law
that is strict need not allow those to which only ill-formed classes and types lead. -/
structure Law where
  Holds : {α : Type} → Emit α → Prop
  allowed : CompileError → Prop
  strict : Prop
  lenient : Lenient allowed
  liberal : ¬ strict → ∀ e, allowed e
  ofPure : ∀ {α : Type} (a : α), Holds (pure a)
  ofThrow : ∀ {α : Type} {e : CompileError}, allowed e → Holds (throw e : Emit α)
  ofBind : ∀ {α β : Type} {x : Emit α} {f : α → Emit β}, Holds x → (∀ s a t, x s = .ok a t → Holds (f a)) →
    Holds (x >>= f)
  /-- An instruction that writes no local, with an effect on the stack that is given. -/
  ofAppend : ∀ {i : Instruction} (change : Int), i.isInert → Holds (Emit.change (·.appendWith i change))
  ofPool : ∀ {α : Type} {x : StateM ConstantPool α}, PoolGrowing x → Holds (liftM x : Emit α)
  ofInvoke : ∀ (kind : InvokeKind) (index : UInt16) {descriptor : String}, (strict → isCallable descriptor) →
    Holds (liftM (CodeBuffer.emitInvoke kind index descriptor) : Emit Unit)
  ofAccessor : ∀ {α : Type} {f : SyntheticMethod → Emit α} {owner : String} {a : Access},
    (strict → isClearName owner ∧ a.isWellFormed) → (∀ m, (strict → isCallable m.descriptor) → Holds (f m)) →
    Holds (accessor owner (fun table => a.request owner table) >>= f)

namespace Law.Holds

variable {L : Law} {α β : Type} {type : JavaType}

theorem pure (a : α) : L.Holds (pure a : Emit α) := L.ofPure a

theorem throw {e : CompileError} (h : L.allowed e) : L.Holds (throw e : Emit α) := L.ofThrow h

theorem mild {e : CompileError} (h : e.kind ≠ .fatal) : L.Holds (MonadExcept.throw e : Emit α) :=
  L.ofThrow (L.lenient e h)

theorem bind {x : Emit α} {f : α → Emit β} (hx : L.Holds x) (hf : ∀ a, L.Holds (f a)) : L.Holds (x >>= f) :=
  L.ofBind hx fun _ a _ _ => hf a

theorem liftThen {x : Except CompileError α} {f : α → Emit β} (hx : Faults L.allowed x)
    (hf : ∀ a, x = .ok a → L.Holds (f a)) : L.Holds (liftM x >>= f) := by
  cases x with
  | ok a => exact hf a rfl
  | error e => exact throw (hx.of_error e rfl)

theorem ite {c : Prop} [Decidable c] {x y : Emit α} (hx : L.Holds x) (hy : L.Holds y) :
    L.Holds (if c then x else y) := by
  split
  · exact hx
  · exact hy

theorem forM {xs : List α} {f : α → Emit PUnit} (hf : ∀ a ∈ xs, L.Holds (f a)) : L.Holds (xs.forM f) := by
  induction xs with
  | nil => exact .pure _
  | cons a xs ih => exact .bind (hf a (by simp)) fun _ => ih fun b hb => hf b (by simp [hb])

theorem pool {x : StateM ConstantPool α} (h : PoolGrowing x) : L.Holds (liftM x : Emit α) := L.ofPool h

theorem emit {i : Instruction} (h : i.isInert) : L.Holds (emit i) := L.ofAppend _ h

theorem loadConstant (index : UInt16) : L.Holds (loadConstant index) := .emit (by split <;> rfl)

theorem load (type : JavaType) (slot : UInt16) : L.Holds (load type slot) := .emit (isInert_loadSlot ..)

theorem pushTruth (value : Bool) : L.Holds (pushTruth value) := by
  cases value <;> exact .emit rfl

theorem pushOne (type : JavaType) : L.Holds (pushOne type) := .emit (isInert_one _)

theorem pushInt (value : Int32) : L.Holds (pushInt value) := by
  unfold Emit.pushInt
  dsimp only
  split
  · exact .emit rfl
  · exact .ite (.emit rfl) (.ite (.emit rfl) (.bind (.pool (.intern _)) fun _ => .loadConstant _))

theorem pushLong (value : Int64) : L.Holds (pushLong value) :=
  .ite (.emit rfl) (.ite (.emit rfl) (.bind (.pool (.intern _)) fun _ => .emit rfl))

theorem pushFloat (value : Binary32) : L.Holds (pushFloat value) :=
  .ite (.emit rfl) (.ite (.emit rfl) (.ite (.emit rfl) (.bind (.pool (.intern _)) fun _ => .loadConstant _)))

theorem pushDouble (value : Binary64) : L.Holds (pushDouble value) :=
  .ite (.emit rfl) (.ite (.emit rfl) (.bind (.pool (.intern _)) fun _ => .emit rfl))

theorem pushDefault (type : JavaType) : L.Holds (pushDefault type) :=
  .ite (.emit rfl) (.ite (.pure _) (.emit (isInert_zero _)))

theorem pop (type : JavaType) : L.Holds (pop type) := by
  unfold Emit.pop
  split
  · exact .pure _
  · exact .emit rfl
  · exact .emit rfl

theorem coerce (source target : JavaType) : L.Holds (coerce source target) :=
  .ite (.pure _) (.forM fun _ _ => .emit rfl)

theorem classIndex (type : JavaType) : L.Holds (classIndex type) := .pool (.ofClass _)

theorem checkCast (type : JavaType) : L.Holds (checkCast type) := .bind (.classIndex _) fun _ => .emit rfl

theorem invoke (kind : InvokeKind) (owner name : String) {descriptor : String} (h : L.strict → isCallable descriptor) :
    L.Holds (invoke kind owner name descriptor) := by
  cases kind <;> exact .bind (.pool (.reference ..)) fun _ => L.ofInvoke _ _ h

theorem appendField (op : FieldOp) (index : UInt16) (type : JavaType) :
    L.Holds (Emit.change (·.appendField op index type)) := L.ofAppend (i := .field op index) _ rfl

theorem getStatic (owner name : String) (type : JavaType) : L.Holds (getStatic owner name type) :=
  .bind (.pool (.reference ..)) fun _ => .appendField ..

theorem box (type : JavaType) : L.Holds (box type) := by
  refine .ite (.emit rfl) ?_
  split
  · next owner method hWrapper =>
    obtain ⟨p, hp, hWrapper⟩ := Option.bind_eq_some_iff.1 hWrapper
    obtain rfl := JavaType.eq_prim hp
    refine .invoke _ _ _ fun _ => ?_
    cases p <;> cases hWrapper <;> (unfold isCallable; decide +kernel)
  · exact .pure _

theorem unbox (hVoid : type.isVoid = false) (hReference : type.isReference = false) : L.Holds (unbox type) := by
  unfold Emit.unbox
  rcases type with ⟨base, dims⟩
  cases dims with
  | succ dims => simp [JavaType.isReference, JavaType.isArray] at hReference
  | zero =>
    cases base with
    | null => cases hReference
    | «class» name => cases hReference
    | primitive p =>
      cases p with
      | void => cases hVoid
      | _ =>
        refine .bind (.checkCast _) fun _ => .invoke _ _ _ fun _ => ?_
        unfold isCallable
        decide +kernel

theorem classLiteral (h : L.strict → type.isNull = false) : L.Holds (classLiteral type) := by
  unfold Emit.classLiteral
  dsimp only
  split
  · exact .bind (.getStatic ..) fun _ => .pure _
  · next hBase hDims =>
    have hNull : type.isNull = true := by simp [JavaType.isNull, hBase, hDims]
    exact .throw (L.liberal (fun hStrict => by simp [h hStrict] at hNull) _)
  · exact .bind (.classIndex _) fun _ => .bind (.loadConstant _) fun _ => .pure _

theorem unaryOperator (op : UnaryOp) (type : JavaType) : L.Holds (unaryOperator op type) := by
  unfold Emit.unaryOperator
  split
  · exact .pure _
  · exact .emit rfl
  · exact .bind (.pushLong _) fun _ => .emit rfl
  · exact .bind (.emit rfl) fun _ => .emit rfl

/-- The instruction of an operator that has a type, and what follows it. -/
theorem operator {op : BinaryOp} {a b : JavaType} (h : TypingContext.binaryType op a b = some type)
    {f : Unit → Emit α} (hf : ∀ u, L.Holds (f u)) :
    L.Holds ((liftM (binaryInstruction op type) : Emit Instruction) >>= fun i => Emit.emit i >>= f) :=
  .liftThen (TypingContext.binaryInstruction_faults h) fun _ hi => .bind (.emit (isInert_binaryInstruction hi)) hf

theorem newArray {element : JavaType} (h : type.element? = some element) : L.Holds (newArray type) := by
  unfold Emit.newArray
  rw [h]
  dsimp only
  split
  · exact .emit rfl
  · exact .bind (.classIndex _) fun _ => .emit rfl

theorem storeItems (position : Nat) (element : JavaType) {items : List (Emit Unit)}
    (hItems : ∀ x ∈ items, L.Holds x) : L.Holds (storeItems position element items) := by
  induction items generalizing position with
  | nil => exact .pure _
  | cons x items ih =>
    exact .bind (.emit rfl) fun _ => .bind (.pushInt _) fun _ => .bind (hItems x (by simp)) fun _ =>
      .bind (.emit rfl) fun _ => ih _ fun y hy => hItems y (by simp [hy])

theorem appendValue {value : Emit JavaType} (hValue : L.Holds value) : L.Holds (appendValue value) :=
  .bind hValue fun type => .liftThen (appendParameter_faults L.lenient type) fun _ hParam =>
    .invoke _ _ _ fun _ => isCallable_append hParam

theorem builderToString : L.Holds builderToString := .invoke _ _ _ fun _ => by unfold isCallable; decide +kernel

theorem concat {values : List (Emit JavaType)} (hValues : ∀ x ∈ values, L.Holds x) : L.Holds (concat values) :=
  .bind (.pool (.ofClass _)) fun _ => .bind (.emit rfl) fun _ => .bind (.emit rfl) fun _ =>
    .bind (.invoke _ _ _ fun _ => by unfold isCallable; decide +kernel) fun _ =>
      .bind (.forM fun x hx => .appendValue (hValues x hx)) fun _ => .bind .builderToString fun _ => .pure _

theorem appendTo {value : Emit JavaType} (hValue : L.Holds value) : L.Holds (appendTo value) :=
  .bind (.invoke _ _ _ fun _ => by unfold isCallable; decide +kernel) fun _ => .bind (.pool (.ofClass _)) fun _ =>
    .bind (.emit rfl) fun _ => .bind (.emit rfl) fun _ => .bind (.emit rfl) fun _ =>
      .bind (.invoke _ _ _ fun _ => by unfold isCallable; decide +kernel) fun _ =>
        .bind (.appendValue hValue) fun _ => .builderToString

theorem copyWords (l : Location) : L.Holds l.copyWords := by
  unfold Location.copyWords
  split
  · exact .pure _
  · exact .emit rfl
  · exact .emit rfl

theorem keepValue (l : Location) : L.Holds l.keepValue := .emit rfl

end Law.Holds

end Emit

end JavaFragment
