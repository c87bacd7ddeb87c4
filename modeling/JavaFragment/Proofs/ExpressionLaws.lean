import JavaFragment.Proofs.EmissionLaws
import JavaFragment.Proofs.ReadingRules
import JavaFragment.Proofs.Variables
/-!
The code of expressions follows every law of emission, in surroundings and on expressions that the law allows.
-/
namespace JavaFragment

open Emit

/-- Surroundings in which emission keeps to its discipline. -/
structure TypingContext.Safe (P : CompileError → Prop) (ctx : TypingContext) : Prop extends ctx.Fair P where
  table : ctx.view.table.isWellFormed
  recorded : ctx.bindings.typeOfType.isNull = false
  params : ∀ params, ctx.bindings.params = some params → ∀ t ∈ params.types, t.isNull = false

/-- A field that is found is declared. -/
theorem TypingContext.Reaches.declared {ctx : TypingContext} {target : FieldTarget} {f : Declared FieldModel}
    (h : ctx.Reaches target) (hTarget : target = .ofClass f ∨ target = .ofObject f) :
    ctx.view.table.Declares f.owner ∧ f.member ∈ f.owner.fields := by
  obtain ⟨owner, name, hFound⟩ : ∃ owner name, ctx.view.table.findField owner name = some f := by
    rcases hTarget with rfl | rfl <;> exact h
  obtain ⟨hOwner, hField⟩ := ClassTable.declares_of_findField hFound
  exact ⟨hOwner, List.mem_of_find?_eq_some hField⟩

namespace TypingContext

variable {ctx : TypingContext} {name : String} {args : List JavaType} {found : CallTarget}

theorem outerCall_selects {fault : CompileError} {owners : List String}
    (h : ctx.outerCall name args fault owners = .ok found) :
    ctx.view.Selects found.selected := by
  induction owners with
  | nil => cases h
  | cons owner rest ih =>
    rw [outerCall] at h
    split at h
    · next selected hSelected =>
      split at h
      · cases h
        exact ⟨_, _, _, hSelected⟩
      · exact ih h
    · obtain ⟨_, -, hRest⟩ := except_bind_ok.1 h
      exact ih hRest

theorem bareCall_selects (h : ctx.bareCall name args = .ok found) : ctx.view.Selects found.selected := by
  unfold bareCall at h
  dsimp only at h
  split at h
  · exact outerCall_selects h
  · next selected hSelected =>
    obtain ⟨c, -, hRest⟩ := except_bind_ok.1 h
    split at hRest
    · cases hRest
      exact ⟨_, _, _, hSelected⟩
    · split at hRest
      · cases hRest
      · cases hRest
        exact ⟨_, _, _, hSelected⟩

theorem constructorCall_selects {owner : String}
    (h : ctx.constructorCall owner args = .ok found) : ctx.view.Selects found.selected := by
  obtain ⟨selected, hSelected, hRest⟩ := except_bind_ok.1 h
  cases hRest
  exact ⟨_, _, _, hSelected⟩

theorem memberCall_selects {target : Expr} {d : Denotation} (h : ctx.memberCall target name args d = .ok found) :
    ctx.view.Selects found.selected := by
  have hCall {searched owner : String} (hFound : (do
      let selected ← ctx.view.lookupMethod searched name args
      let kind := ctx.invokeKind (← ctx.view.getClass searched) selected
      return (⟨if kind = InvokeKind.static then .nothing else .target, selected, kind, owner⟩ : CallTarget)) =
        .ok found) :
      ctx.view.Selects found.selected := by
    obtain ⟨selected, hSelected, hRest⟩ := except_bind_ok.1 hFound
    obtain ⟨c, -, hRest⟩ := except_bind_ok.1 hRest
    cases hRest
    exact ⟨_, _, _, hSelected⟩
  cases d with
  | value type =>
    rw [memberCall] at h
    split at h
    · exact hCall h
    · split at h
      · exact hCall h
      · cases h
  | «class» owner =>
    obtain ⟨selected, hSelected, hRest⟩ := except_bind_ok.1 h
    split at hRest
    · cases hRest
      exact ⟨_, _, _, hSelected⟩
    · cases hRest
  | package package => cases h

/-- The methods that calls name were looked up. -/
theorem callTarget_selects {target : Expr} {d : Except CompileError Denotation}
    (h : ctx.callTarget target d name args = .ok found) :
    ctx.view.Selects found.selected := by
  unfold callTarget at h
  split at h
  · split at h
    · obtain ⟨_, -, hRest⟩ := except_bind_ok.1 h
      exact constructorCall_selects hRest
    · obtain ⟨_, -, hRest⟩ := except_bind_ok.1 h
      exact memberCall_selects hRest
  · obtain ⟨_, -, hRest⟩ := except_bind_ok.1 h
    split at hRest
    · obtain ⟨_, -, hRest⟩ := except_bind_ok.1 hRest
      exact constructorCall_selects hRest
    · obtain ⟨_, -, hRest⟩ := except_bind_ok.1 hRest
      obtain ⟨selected, hSelected, hRest⟩ := except_bind_ok.1 hRest
      split at hRest <;> cases hRest <;> exact ⟨_, _, _, hSelected⟩
  · obtain ⟨_, -, hRest⟩ := except_bind_ok.1 h
    exact memberCall_selects hRest

end TypingContext

/-- A place is no field, or one that a class declares. -/
def Location.Declared (ctx : TypingContext) : Location → Prop
  | .field f _ => ctx.view.table.Declares f.owner ∧ f.member ∈ f.owner.fields
  | .local _ _ | .element _ => True

/-- Whether an expression is a class literal of a type that cannot be written. -/
@[simp]
def Expr.isLooseLiteral : Expr → Bool
  | .classLit t => !t.isWritten
  | _ => false

/-- Every class literal in an expression is of a type that can be written. -/
abbrev Expr.IsTight (e : Expr) : Prop := ¬ e.any Expr.isLooseLiteral = true

theorem Viewpoint.resolveBase_ne_null {v : Viewpoint} {t : WrittenType} {base : BaseType} (h : t.isWritten = true)
    (hBase : v.resolveBase t = .ok base) : base ≠ .null := by
  induction t with
  | null => cases h
  | primitive p =>
    cases hBase
    exact nofun
  | named name =>
    obtain ⟨c, -, rfl⟩ := except_map_ok.1 hBase
    exact nofun
  | array element ih => exact ih h hBase

theorem WrittenType.isWritten_split (t : WrittenType) : t.split.1.isWritten = t.isWritten := by
  induction t with
  | array element ih => exact ih
  | _ => rfl

/-- A type that can be written is not that of `null`. -/
theorem Viewpoint.isNull_resolveType {v : Viewpoint} {t : WrittenType} {type : JavaType} (h : t.isWritten = true)
    (hType : v.resolveType t = .ok type) : type.isNull = false := by
  obtain ⟨base, hBase, hRest⟩ := except_bind_ok.1 hType
  have hNull := resolveBase_ne_null (t.isWritten_split.trans h) hBase
  split at hRest
  · cases hRest
  · cases hRest
    simp [JavaType.isNull, hNull]

/-- A law that the code of expressions can follow in some surroundings. Besides emission it tells of branches that are
left open and of places that may be written. -/
structure ExpressionLaw (ctx : TypingContext) extends Law where
  /-- The variables that may be mentioned. -/
  known : Variable → Prop
  fair : ctx.Fair allowed
  safe : strict → ctx.Safe allowed
  ofSlot : ∀ {v : Variable}, known v → Holds (slotOf ctx v)
  /-- Emission that leaves branches open, which its result tells. -/
  Jumps : {α : Type} → (α → List Nat) → Emit α → Prop
  jumpNone : ∀ {α : Type} {sites : α → List Nat} {a : α}, sites a = [] → Jumps sites (pure a)
  jumpThrow : ∀ {α : Type} {sites : α → List Nat} {e : CompileError}, allowed e → Jumps sites (throw e)
  jumpAfter : ∀ {α β : Type} {sites : α → List Nat} {x : Emit β} {f : β → Emit α}, Holds x →
    (∀ b, Jumps sites (f b)) → Jumps sites (x >>= f)
  jumpBranch : ∀ b : Branch, Jumps (fun site => [site]) (branch b)
  /-- Another reading of the result. -/
  jumpReturn : ∀ {α β : Type} {sites : α → List Nat} {sites' : β → List Nat} {x : Emit β} (f : β → α),
    Jumps sites' x → (∀ b, sites (f b) = sites' b) → Jumps sites (x >>= fun b => pure (f b))
  jumpBoth : ∀ {x y : Emit (List Nat)}, Jumps id x → Jumps id y → Jumps id (do
    let sites ← x
    return sites ++ (← y))
  jumpSkip : ∀ {x y : Emit (List Nat)}, Jumps id x → Jumps id y → Jumps id (do
    let skip ← x
    let sites ← y
    land skip
    return sites)
  ofTruth : ∀ {jump : Bool → Emit (List Nat)}, Jumps id (jump false) → Holds (ExprCode.truthValue jump)
  ofChoice : ∀ {test : Emit (List Nat)} {x y : Emit JavaType} {f g : JavaType → Emit Unit} (result : JavaType),
    Jumps id test → Holds x → (∀ t, Holds (f t)) → Holds y → (∀ t, Holds (g t)) → Holds (do
      let depth ← Emit.depth
      let otherwise ← test
      f (← x)
      let done ← goto
      land otherwise
      setDepth depth
      g (← y)
      land [done]
      return result)
  /-- Emission of a place. -/
  Places : Emit Location → Prop
  /-- Emission after that of a place, which may write its locals. -/
  Writes : Location → {α : Type} → Emit α → Prop
  placeThrow : ∀ {e : CompileError}, allowed e → Places (throw e)
  placeAfter : ∀ {α : Type} {x : Emit α} {f : α → Emit Location}, Holds x → (∀ a, Places (f a)) → Places (x >>= f)
  placeSlot : ∀ {v : Variable} {type : JavaType}, known v → ctx.variableType v = .ok type →
    Places (slotOf ctx v >>= fun slot => pure (.local slot type))
  placeField : ∀ {f : Declared FieldModel} {type : JavaType}, (strict → (Location.field f type).Declared ctx) →
    Places (pure (.field f type))
  placeElement : ∀ type : JavaType, Places (pure (.element type))
  ofPlace : ∀ {α : Type} {x : Emit Location} {f : Location → Emit α}, Places x →
    (∀ l, (strict → l.Declared ctx) → Writes l (f l)) → Holds (x >>= f)
  writeNone : ∀ {α : Type} {l : Location} {x : Emit α}, Holds x → Writes l x
  writeAfter : ∀ {α β : Type} {l : Location} {x : Emit α} {f : α → Emit β}, Holds x → (∀ a, Writes l (f a)) →
    Writes l (x >>= f)
  writeLocal : ∀ {α : Type} {slot : UInt16} {type : JavaType} {i : Instruction} {k : Unit → Emit α}, i.isPlain →
    i.written? = some (slot.toNat, type.slotKind.words) → (∀ u, Holds (k u)) →
    Writes (.local slot type) (emit i >>= k)

variable {ctx : TypingContext} {L : ExpressionLaw ctx}

/-! Places. -/

namespace Emit.Law.Holds

theorem accessField {f : Declared FieldModel}
    (hf : L.strict → ctx.view.table.Declares f.owner ∧ f.member ∈ f.owner.fields) (type : JavaType) (put : Bool) :
    L.Holds (accessField ctx f type put) := by
  have hOwner (hStrict : L.strict) := (hf hStrict).1.isClearName (L.safe hStrict).table
  have hField (hStrict : L.strict) := (hf hStrict).1.field (L.safe hStrict).table (hf hStrict).2
  refine .ite ?_ (.bind (.pool (.reference ..)) fun _ => .appendField ..)
  cases put with
  | true => exact L.ofAccessor (a := .set f.member) (fun h => ⟨hOwner h, hField h⟩) fun _ hm => .invoke _ _ _ hm
  | false => exact L.ofAccessor (a := .get f.member) (fun h => ⟨hOwner h, hField h⟩) fun _ hm => .invoke _ _ _ hm

theorem loadFrom {l : Location} (hl : L.strict → l.Declared ctx) : L.Holds (l.load ctx) := by
  cases l with
  | «local» slot type => exact .load ..
  | field f type => exact .accessField hl ..
  | element type => exact .emit rfl

theorem compound (op : BinaryOp) {l : Location} (hl : L.strict → l.Declared ctx) (value : Expr)
    {code : Emit JavaType} (hCode : L.Holds code) : L.Holds (compound ctx op l value code) := by
  refine .bind (.copyWords _) fun _ => .bind (.loadFrom hl) fun _ => .ite (.appendTo hCode) ?_
  refine .liftThen (L.fair.typeOf_faults value) fun source _ => ?_
  split
  · exact .mild nofun
  · next promoted hType =>
    exact .bind (.coerce ..) fun _ => .bind hCode fun _ => .bind (.coerce ..) fun _ => .operator hType fun _ =>
      .coerce ..

end Emit.Law.Holds

namespace ExpressionLaw

variable {α β : Type} {l : Location} {x : Except CompileError α}

/-- A single branch as a list. -/
theorem jumpBranches (b : Branch) : L.Jumps id (branch b >>= fun site => pure [site]) :=
  L.jumpReturn _ (L.jumpBranch b) fun _ => rfl

theorem jumpIte {sites : α → List Nat} {c : Prop} [Decidable c] {x y : Emit α} (hx : L.Jumps sites x)
    (hy : L.Jumps sites y) : L.Jumps sites (if c then x else y) := by
  split
  · exact hx
  · exact hy

theorem jumpLift {sites : β → List Nat} {f : α → Emit β}
    (hx : Faults L.allowed x) (hf : ∀ a, L.Jumps sites (f a)) : L.Jumps sites (liftM x >>= f) := by
  cases x with
  | ok a => exact hf a
  | error e => exact L.jumpThrow (hx.of_error e rfl)

theorem placeLift {f : α → Emit Location} (hx : Faults L.allowed x)
    (hf : ∀ a, x = .ok a → L.Places (f a)) : L.Places (liftM x >>= f) := by
  cases x with
  | ok a => exact hf a rfl
  | error e => exact L.placeThrow (hx.of_error e rfl)

theorem writeLift {f : α → Emit β} (hx : Faults L.allowed x)
    (hf : ∀ a, x = .ok a → L.Writes l (f a)) : L.Writes l (liftM x >>= f) := by
  cases x with
  | ok a => exact hf a rfl
  | error e => exact L.writeNone (.throw (hx.of_error e rfl))

theorem writeOnlyIf {c : Prop} [Decidable c] {x : Emit α} {k : Emit β} (hx : L.Holds x) (hk : L.Writes l k) :
    L.Writes l (if c then x >>= fun _ => k else k) := by
  split
  · exact L.writeAfter hx fun _ => hk
  · exact hk

theorem writeStore (hl : L.strict → l.Declared ctx) {k : Unit → Emit β} (hk : ∀ u, L.Holds (k u)) :
    L.Writes l (l.store ctx >>= k) := by
  cases l with
  | «local» slot type => exact L.writeLocal (isPlain_storeSlot ..) (written?_storeSlot ..) hk
  | field f type => exact L.writeNone (.bind (.accessField hl ..) hk)
  | element type => exact L.writeNone (.bind (.emit rfl) hk)

theorem writeIncrement {slot : UInt16} {type : JavaType} (hInt : type = .int) (amount : Int16)
    {k : Unit → Emit β} (hk : ∀ u, L.Holds (k u)) : L.Writes (.local slot type) (increment slot amount >>= k) := by
  subst hInt
  exact L.writeLocal (isPlain_increment ..) (written?_increment ..) hk

end ExpressionLaw

theorem type_of_incrementAmount {op : Option BinaryOp} {type : JavaType} {value : Expr} {amount : Int16}
    (h : (op.bind fun op => incrementAmount? op type value) = some amount) : type = .int := by
  obtain ⟨op, -, h⟩ := Option.bind_eq_some_iff.1 h
  unfold incrementAmount? incrementAmount?.amount at h
  split at h
  · split at h
    · next hFits => exact hFits.1
    · cases h
  · split at h
    · next hFits => exact hFits.1
    · cases h
  · cases h

theorem Emit.Law.Holds.assign (op : Option BinaryOp) {location : Emit Location} (value : Expr)
    {code : Emit JavaType} {codeAs : JavaType → Emit Unit} (wanted : Bool) (hLocation : L.Places location)
    (hCode : L.Holds code) (hCodeAs : ∀ type, L.Holds (codeAs type)) :
    L.Holds (assign ctx op location value code codeAs wanted) := by
  refine L.ofPlace hLocation fun l hl => ?_
  dsimp only
  split
  · next slot type amount hAmount =>
    refine L.writeIncrement (type_of_incrementAmount hAmount) amount fun _ => ?_
    exact .ite (.bind (.load ..) fun _ => .pure _) (.pure _)
  · exact L.writeAfter (hCodeAs _) fun _ => L.writeOnlyIf (.keepValue _) (L.writeStore hl fun _ => .pure _)
  · exact L.writeAfter (.compound _ hl _ hCode) fun _ => L.writeOnlyIf (.keepValue _) (L.writeStore hl fun _ => .pure _)

theorem Emit.Law.Holds.step (increases before : Bool) {location : Emit Location} (target : Expr) (wanted : Bool)
    (hLocation : L.Places location) : L.Holds (step ctx increases before location target wanted) := by
  refine L.ofPlace hLocation fun l hl => ?_
  dsimp only
  split
  · next slot type hInt =>
    refine L.writeOnlyIf (.load ..) (L.writeIncrement (of_decide_eq_true hInt) _ fun _ => ?_)
    exact .ite (.bind (.load ..) fun _ => .pure _) (.pure _)
  · split
    · exact L.writeNone (.mild nofun)
    · have hOperator (promoted : JavaType) :
          Faults L.allowed (binaryInstruction (if increases = true then .add else .sub) promoted) := by
        cases increases <;> exact .ok _
      exact L.writeAfter (.copyWords _) fun _ => L.writeAfter (.loadFrom hl) fun _ =>
        L.writeOnlyIf (.keepValue _) <| L.writeAfter (.coerce ..) fun _ => L.writeAfter (.pushOne _) fun _ =>
          L.writeLift (hOperator _) fun _ hi => L.writeAfter (.emit (isInert_binaryInstruction hi)) fun _ =>
            L.writeAfter (.coerce ..) fun _ => L.writeOnlyIf (.keepValue _) (L.writeStore hl fun _ => .pure _)

/-! Expressions. -/

/-- However an expression is compiled, its code follows a law. -/
structure ExprCode.Follows (L : ExpressionLaw ctx) (c : ExprCode) : Prop where
  value : L.Holds c.value
  valueAs : ∀ type, L.Holds (c.valueAs type)
  jump : ∀ wanted, L.Jumps id (c.jump wanted)
  effect : L.Holds c.effect
  location : L.Places c.location
  summands : L.Holds c.summands ∧ ∀ s parts t, c.summands s = .ok parts t → ∀ part ∈ parts, L.Holds part

namespace ExprCode

variable {receiver : Emit Unit} {a code l r : ExprCode} {codes : List ExprCode}

theorem decided_follows (e : Expr) {jump : Bool → Emit (List Nat)} (wanted : Bool) (hJump : L.Jumps id (jump wanted)) :
    L.Jumps id (decided ctx e jump wanted) := by
  unfold decided
  split
  · exact L.jumpIte (L.jumpBranches _) (L.jumpNone rfl)
  · exact hJump

theorem Follows.ofValue (e : Expr) {value : Emit JavaType} (hValue : L.Holds value) :
    (ofValue ctx e value).Follows L where
  value := hValue
  valueAs _ := .bind hValue fun _ => .ite (.pure _) (.coerce ..)
  jump wanted := by
    dsimp only [ExprCode.ofValue]
    refine decided_follows e wanted (L.jumpAfter hValue fun _ => L.jumpIte (L.jumpBranches _) ?_)
    exact L.jumpThrow (L.lenient _ nofun)
  effect := .bind hValue fun _ => .pop _
  location := L.placeThrow (L.lenient _ nofun)
  summands := ⟨.pure _, fun s parts t h => by
    obtain ⟨rfl, -⟩ := pure_ok.1 h
    simpa using hValue⟩

theorem Follows.ofJump (e : Expr) {jump : Bool → Emit (List Nat)} (hJump : ∀ wanted, L.Jumps id (jump wanted)) :
    (ofJump ctx e jump).Follows L :=
  have hDecided := fun wanted => decided_follows e wanted (hJump wanted)
  { Follows.ofValue e (L.ofTruth (hDecided false)) with jump := hDecided }

theorem Follows.ofLocation (e : Expr) {value : Emit JavaType} {location : Emit Location} (hValue : L.Holds value)
    (hLocation : L.Places location) : (ofLocation ctx e value location).Follows L :=
  { Follows.ofValue e hValue with location := hLocation }

theorem Follows.ofEffect (e : Expr) {run : Bool → Emit JavaType} (hRun : ∀ wanted, L.Holds (run wanted)) :
    (ofEffect ctx e run).Follows L :=
  { Follows.ofValue e (hRun true) with effect := .bind (hRun false) fun _ => .pure _ }

theorem Follows.ofVariable {v : Variable} (hv : L.known v) : (ofVariable ctx v).Follows L :=
  .ofLocation _
    (.liftThen (ctx.variableType_faults L.lenient v) fun _ _ => .bind (L.ofSlot hv) fun _ => .bind (.load ..) fun _ =>
      .pure _)
    (L.placeLift (ctx.variableType_faults L.lenient v) fun _ hType => L.placeSlot hv hType)

theorem readField_holds (hReceiver : L.Holds receiver) {target : FieldTarget}
    (hTarget : ctx.Reaches target) : L.Holds (readField ctx receiver target) := by
  have hType := L.fair.fields.type_faults hTarget
  cases target with
  | arrayLength => exact .bind hReceiver fun _ => .bind (.emit rfl) fun _ => .pure _
  | ofClass f =>
    exact .liftThen hType fun _ _ => .bind (.accessField (fun _ => hTarget.declared (.inl rfl)) ..) fun _ => .pure _
  | ofObject f =>
    exact .bind hReceiver fun _ => .liftThen hType fun _ _ =>
      .bind (.accessField (fun _ => hTarget.declared (.inr rfl)) ..) fun _ => .pure _

theorem fieldLocation_follows (e : Expr) (hReceiver : L.Holds receiver)
    {target : Option FieldTarget} (hTarget : ∀ field, target = some field → ctx.Reaches field) :
    L.Places (fieldLocation e receiver target) := by
  rcases target with _ | (_ | f | f)
  · exact L.placeThrow (L.lenient _ nofun)
  · exact L.placeThrow (L.lenient _ nofun)
  · have hReaches := hTarget _ rfl
    exact L.placeLift (L.fair.fields.type_faults hReaches) fun _ _ => L.placeField fun _ => hReaches.declared (.inl rfl)
  · have hReaches := hTarget _ rfl
    exact L.placeAfter hReceiver fun _ => L.placeLift (L.fair.fields.type_faults hReaches) fun _ _ =>
      L.placeField fun _ => hReaches.declared (.inr rfl)

theorem Follows.ofField (e : Expr) (hReceiver : L.Holds receiver) : (ofField ctx e receiver).Follows L := by
  refine .ofLocation e (.liftThen (L.fair.fieldTarget_faults e) fun target hTarget => ?_)
    (L.placeLift (L.fair.fieldTarget_faults e) fun _ hTarget => fieldLocation_follows e hReceiver fun _ hField =>
      TypingContext.fieldTarget_reaches (hField ▸ hTarget))
  cases target with
  | some target => exact readField_holds hReceiver (TypingContext.fieldTarget_reaches hTarget)
  | none => exact .mild nofun

theorem makeArray_holds {type item : JavaType} (hType : type.element? = some item) (element : JavaType)
    {items : List (Emit Unit)} (hItems : ∀ x ∈ items, L.Holds x) : L.Holds (makeArray type items element) :=
  .bind (.pushInt _) fun _ => .bind (.newArray hType) fun _ => .storeItems _ _ hItems

/-- The parameters that stand for `$$` and `$args` satisfy a condition. -/
def ParamsKnown (ctx : TypingContext) (known : Variable → Prop) : Prop :=
  ∀ params, ctx.bindings.getParams = .ok params → ∀ v ∈ params.vars, known v

theorem pushArgs_holds (hParams : ParamsKnown ctx L.known) : L.Holds (pushArgs ctx) := by
  refine .liftThen (ctx.bindings.getParams_faults L.lenient) fun params hGet =>
    .bind (makeArray_holds rfl _ ?_) fun _ => .pure _
  intro x hx
  obtain ⟨⟨v, type⟩, hMem, rfl⟩ := List.mem_map.1 hx
  exact .bind (L.ofSlot (hParams params hGet v (List.of_mem_zip hMem).1)) fun _ => .bind (.load ..) fun _ => .box _

theorem pushSignature_holds : L.Holds (pushSignature ctx) := by
  refine .liftThen (ctx.bindings.getParams_faults L.lenient) fun params hGet =>
    .bind (makeArray_holds rfl _ ?_) fun _ => .pure _
  have hRecorded : ctx.bindings.params = some params := by
    unfold Bindings.getParams at hGet
    split at hGet
    · next found hFound =>
      cases hGet
      exact hFound
    · cases hGet
  intro x hx
  obtain ⟨type, hType, rfl⟩ := List.mem_map.1 hx
  exact .bind (.classLiteral fun h => (L.safe h).params params hRecorded type hType) fun _ => .pure _

theorem pushPseudo_holds (hParams : ParamsKnown ctx L.known) (pseudo : PseudoName) :
    L.Holds (pushPseudo ctx pseudo) := by
  cases pseudo with
  | args => exact pushArgs_holds hParams
  | splice => exact .mild nofun
  | signature => exact pushSignature_holds
  | type => exact .classLiteral fun h => (L.safe h).recorded
  | declaring =>
    unfold pushPseudo
    exact .classLiteral fun _ => rfl

theorem Follows.ofName (hParams : ParamsKnown ctx L.known) (n : String) : (ofName ctx n).Follows L := by
  unfold ExprCode.ofName
  split
  · exact .ofLocation _ (pushPseudo_holds hParams _) (L.placeThrow (L.lenient _ nofun))
  · exact .ofField _ (.load ..)

theorem Follows.ofUnary (op : UnaryOp) (operand : Expr) (h : code.Follows L) :
    (ofUnary ctx op operand code).Follows L :=
  .ofValue _ <| .liftThen (L.fair.typeOf_faults _) fun _ _ => .bind h.value fun _ => .bind (.coerce ..) fun _ =>
    .bind (.unaryOperator ..) fun _ => .pure _

theorem Follows.ofBinary (op : BinaryOp) (left right : Expr) (hl : l.Follows L) (hr : r.Follows L) :
    (ofBinary ctx op left right l r).Follows L := by
  unfold ExprCode.ofBinary
  extract_lets e operate summands value
  have hOperate : L.Holds operate := by
    refine .liftThen (L.fair.typeOf_faults e) fun type hType => ?_
    obtain ⟨_, _, -, -, hOperator⟩ := TypingContext.typeOf_binary.1 hType
    exact .bind hl.value fun _ => .bind (.coerce ..) fun _ => .bind hr.value fun _ => .bind (.coerce ..) fun _ =>
      .operator hOperator fun _ => .pure _
  have hSummands : L.Holds summands := .liftThen (L.fair.typeOf_faults e) fun _ _ =>
    .ite (.bind hl.summands.1 fun _ => .pure _) (.pure _)
  have hParts (s : EmitState) (parts : List (Emit JavaType)) (t : EmitState) (h : summands s = .ok parts t) :
      ∀ part ∈ parts, L.Holds part := by
    obtain ⟨type, _, hType, h⟩ := bind_ok.1 h
    obtain ⟨-, rfl⟩ := lift_ok.1 hType
    split at h
    · obtain ⟨before, r', hLeft, h⟩ := bind_ok.1 h
      obtain ⟨rfl, -⟩ := pure_ok.1 h
      exact List.forall_mem_append.2 ⟨hl.summands.2 _ _ _ hLeft, List.forall_mem_singleton.2 hr.value⟩
    · obtain ⟨rfl, -⟩ := pure_ok.1 h
      exact List.forall_mem_singleton.2 hOperate
  have hValue : L.Holds value := .liftThen (L.fair.typeOf_faults e) fun _ _ =>
    .ite (L.ofBind hSummands fun s parts t h => .concat (hParts s parts t h)) hOperate
  exact { Follows.ofValue e hValue with summands := ⟨hSummands, hParts⟩ }

theorem compareStacked_follows (op effective : CompareOp) (kind : NumberKind) :
    L.Jumps (fun site => [site]) (match comparison op kind with
      | none => branch (.ifInts (relation effective))
      | some c => do
        emit (.compare c)
        branch (.ifZero (relation effective))) := by
  split
  · exact L.jumpBranch _
  · exact L.jumpAfter (.emit rfl) fun _ => L.jumpBranch _

theorem compareNumbers_follows (op effective : CompareOp) (promoted : JavaType) (right : Expr)
    (hl : l.Follows L) (hr : r.Follows L) :
    L.Jumps (fun site => [site]) (compareNumbers op effective promoted right l r) := by
  refine L.jumpAfter hl.value fun _ => L.jumpAfter (.coerce ..) fun _ => L.jumpIte (L.jumpBranch _) ?_
  exact L.jumpAfter hr.value fun _ => L.jumpAfter (.coerce ..) fun _ => compareStacked_follows ..

theorem compareReferences_follows (same : Bool) (left right : Expr) (hl : l.Follows L)
    (hr : r.Follows L) : L.Jumps (fun site => [site]) (compareReferences same left right l r) := by
  unfold compareReferences
  split
  · exact L.jumpAfter hl.value fun _ => L.jumpBranch _
  · exact L.jumpAfter hr.value fun _ => L.jumpBranch _
  · exact L.jumpAfter hl.value fun _ => L.jumpAfter hr.value fun _ => L.jumpBranch _

theorem Follows.ofCompare (op : CompareOp) (left right : Expr) (hl : l.Follows L)
    (hr : r.Follows L) : (ofCompare ctx op left right l r).Follows L := by
  refine .ofJump _ fun wanted => L.jumpLift (L.fair.typeOf_faults left) fun a =>
    L.jumpLift (L.fair.typeOf_faults right) fun b => ?_
  split
  · exact L.jumpReturn _ (compareNumbers_follows _ _ _ _ hl hr) fun _ => rfl
  · refine L.jumpIte (L.jumpAfter (.mild (e := .type (.comparisonOperator op a b)) (by rintro ⟨⟩)) fun _ => ?_) ?_ <;>
      exact L.jumpIte (L.jumpReturn _ (compareReferences_follows _ _ _ hl hr) fun _ => rfl)
        (L.jumpAfter hl.value fun _ => L.jumpAfter hr.value fun _ => L.jumpBranches _)

/-- Branches of two parts that follow one another. -/
theorem inSequence_follows (go : Bool) (left : Expr) (wanted : Bool) (hl : l.Follows L)
    (hr : r.Follows L) : L.Jumps id (inSequence ctx go left l r wanted) := by
  unfold inSequence
  split
  · exact L.jumpIte (hr.jump _) (L.jumpIte (L.jumpBranches _) (L.jumpNone rfl))
  · exact L.jumpIte (L.jumpSkip (hl.jump _) (hr.jump _)) (L.jumpBoth (hl.jump _) (hr.jump _))

theorem Follows.ofAnd (left right : Expr) (hl : l.Follows L) (hr : r.Follows L) :
    (ofAnd ctx left right l r).Follows L := .ofJump _ fun wanted => inSequence_follows true left wanted hl hr

theorem Follows.ofOr (left right : Expr) (hl : l.Follows L) (hr : r.Follows L) :
    (ofOr ctx left right l r).Follows L := .ofJump _ fun wanted => inSequence_follows false left wanted hl hr

theorem Follows.ofNot (operand : Expr) (h : code.Follows L) : (ofNot ctx operand code).Follows L :=
  .ofJump _ fun wanted => h.jump (!wanted)

theorem Follows.ofConditional (test whenTrue whenFalse : Expr) {c b : ExprCode} (hc : c.Follows L)
    (ha : a.Follows L) (hb : b.Follows L) : (ofConditional ctx test whenTrue whenFalse c a b).Follows L :=
  .ofValue _ <| .liftThen (L.fair.typeOf_faults _) fun _ _ =>
    L.ofChoice _ (hc.jump _) ha.value (fun _ => .coerce ..) hb.value fun _ => .coerce ..

theorem Follows.ofInstance (operand : Expr) (written : WrittenType) (h : code.Follows L) :
    (ofInstance ctx operand written code).Follows L :=
  .ofValue _ <| .bind h.value fun _ => .liftThen (ctx.view.resolveType_faults L.lenient _) fun _ _ =>
    .bind (.classIndex _) fun _ => .bind (.emit rfl) fun _ => .pure _

theorem resultValue_holds (source : JavaType) : L.Holds (resultValue ctx source) := by
  unfold resultValue
  dsimp only
  split
  · exact .bind (.pop _) fun _ => .pure _
  · next hVoid =>
    refine .ite (.bind (.pushDefault _) fun _ => .pure _) ?_
    split
    · exact .bind (.box _) fun _ => .ite (.pure _) (.bind (.checkCast _) fun _ => .pure _)
    · next hReference =>
      have hUnbox := Law.Holds.unbox (L := L.toLaw) (by simpa using hVoid) (by simpa using hReference)
      exact .ite (.bind hUnbox fun _ => .pure _) (.bind (.coerce ..) fun _ => .pure _)

theorem Follows.ofCast (written : WrittenType) (operand : Expr) (h : code.Follows L) :
    (ofCast ctx written operand code).Follows L :=
  .ofValue _ <| .ite (.bind h.value fun _ => resultValue_holds _) <|
    .ite (.bind h.value fun _ => .bind (.box _) fun _ => .pure _) <|
      .liftThen (ctx.view.resolveType_faults L.lenient _) fun _ _ => .bind h.value fun _ =>
        .ite (.ite (.pure _) (.bind (.checkCast _) fun _ => .pure _)) (.bind (.coerce ..) fun _ => .pure _)

theorem Follows.ofAssign (op : Option BinaryOp) (target value : Expr) {t v : ExprCode} (ht : t.Follows L)
    (hv : v.Follows L) : (ofAssign ctx op target value t v).Follows L :=
  .ofEffect _ fun _ => .assign op value _ ht.location hv.value hv.valueAs

theorem Follows.ofIncDec (increases before : Bool) (target : Expr) {t : ExprCode} (h : t.Follows L) :
    (ofIncDec ctx increases before target t).Follows L :=
  .ofEffect _ fun _ => .step increases before target _ h.location

theorem pushPosition_holds (array : Expr) {i : ExprCode} (ha : a.Follows L) (hi : i.Follows L) :
    L.Holds (pushPosition array a i) := by
  refine .bind ha.value fun _ => .bind hi.value fun _ => .bind (.coerce ..) fun _ => ?_
  split
  · exact .pure _
  · exact .mild (by rintro ⟨⟩)

theorem Follows.ofIndex (array position : Expr) {i : ExprCode} (ha : a.Follows L) (hi : i.Follows L) :
    (ofIndex ctx array position a i).Follows L :=
  .ofLocation _ (.bind (pushPosition_holds array ha hi) fun _ => .bind (.emit rfl) fun _ => .pure _)
    (L.placeAfter (pushPosition_holds array ha hi) fun _ => L.placeElement _)

theorem arrayOfItems_holds (type : JavaType) {items : List ExprCode} (hItems : ∀ c ∈ items, c.Follows L) :
    L.Holds (arrayOfItems type items) := by
  refine .liftThen (TypingContext.itemType_faults L.lenient type) fun element hElement => ?_
  have hType : type.element? = some element := by
    unfold TypingContext.itemType at hElement
    split at hElement
    · next item hItem =>
      cases hElement
      exact hItem
    · cases hElement
  refine makeArray_holds hType _ fun x hx => ?_
  obtain ⟨c, hc, rfl⟩ := List.mem_map.1 hx
  exact (hItems c hc).valueAs element

theorem Follows.ofArrayInit (items : List Expr) (h : ∀ c ∈ codes, c.Follows L) :
    (ofArrayInit ctx items codes).Follows L :=
  { Follows.ofValue (.arrayInit items) (.mild (e := .type .looseInitializer) (by rintro ⟨⟩)) with
    valueAs := fun type => arrayOfItems_holds type h }

theorem Follows.ofArray (element : WrittenType) (dims : Nat) (items : List Expr)
    (h : ∀ c ∈ codes, c.Follows L) : (ofArray ctx element dims items codes).Follows L :=
  .ofValue _ <| .liftThen (ctx.view.resolveType_faults L.lenient _) fun _ _ =>
    .bind (arrayOfItems_holds _ h) fun _ => .pure _

theorem Follows.ofNewArray (element : WrittenType) (lengths : List Expr) (extra : Nat)
    (h : ∀ c ∈ codes, c.Follows L) : (ofNewArray ctx element lengths extra codes).Follows L := by
  refine .ofValue _ <| .liftThen (ctx.view.resolveType_faults L.lenient _) fun base _ => .bind
    (.forM fun c hc => .bind (h c hc).value fun _ => .coerce ..) fun _ => ?_
  split
  · exact .bind (.mild (e := .code (.creationWithoutSize _)) nofun) fun _ => .pure _
  · next length =>
    have hType : (base.arrayOf ([length].length + extra)).element? = some { base with dims := base.dims + extra } := by
      unfold JavaType.arrayOf JavaType.element?
      rw [List.length_singleton, Nat.add_comm 1 extra, ← Nat.add_assoc]
    exact .bind (.newArray hType) fun _ => .pure _
  · exact .bind (.classIndex _) fun _ => .bind (L.ofAppend (i := .multiNewArray ..) _ rfl) fun _ => .pure _

/-! Calls. -/

theorem expand_faults (args : List Expr) (codes : List ExprCode) : Faults L.allowed (expand ctx args codes) :=
  .ite (fun _ => .bind (ctx.bindings.getParams_faults L.lenient) fun _ _ => .pure _) fun _ => .ok _

theorem expand_follows (hParams : ParamsKnown ctx L.known) {args : List Expr} {expanded : List ExprCode}
    (h : ∀ c ∈ codes, c.Follows L) (hExpand : expand ctx args codes = .ok expanded) :
    ∀ c ∈ expanded, c.Follows L := by
  unfold expand at hExpand
  split at hExpand
  · cases hGet : ctx.bindings.getParams with
    | error e =>
      rw [hGet] at hExpand
      cases hExpand
    | ok params =>
      rw [hGet] at hExpand
      cases hExpand
      intro c hc
      obtain ⟨⟨arg, code⟩, hMem, hIn⟩ := List.mem_flatMap.1 hc
      dsimp only at hIn
      split at hIn
      · obtain ⟨v, hv, rfl⟩ := List.mem_map.1 hIn
        exact .ofVariable (hParams params hGet v hv)
      · obtain rfl : c = code := by simpa using hIn
        exact h c (List.of_mem_zip hMem).2
  · cases hExpand
    exact h

theorem pushArguments_holds (params : List JavaType) {args : List ExprCode} (h : ∀ c ∈ args, c.Follows L) :
    L.Holds (pushArguments params args) :=
  .forM fun pair hPair => (h pair.1 (List.of_mem_zip hPair).1).valueAs pair.2

theorem call_holds {found : CallTarget} (hFound : ctx.view.Selects found.selected) {receiver : Emit JavaType}
    {args : List ExprCode} (hReceiver : L.Holds receiver) (h : ∀ c ∈ args, c.Follows L) :
    L.Holds (call ctx found receiver args) := by
  have hRest (through : Option SyntheticMethod) (hThrough : ∀ m ∈ through, L.strict → isCallable m.descriptor) :
      L.Holds (callThrough found args through) := by
    refine .bind (pushArguments_holds _ h) fun _ => ?_
    cases through with
    | none => exact .bind (.invoke _ _ _ fun _ => hFound.reachable.callable) fun _ => .pure _
    | some m => exact .bind (.invoke _ _ _ (hThrough m rfl)) fun _ => .pure _
  unfold call
  dsimp only
  split
  · next hNeeds =>
    obtain ⟨hOwner, hMethod⟩ := hFound.reachable.declares hNeeds
    rw [bind_map_left]
    refine L.ofAccessor (a := .call found.selected.method) (fun hStrict =>
      ⟨hOwner.isClearName (L.safe hStrict).table, hOwner.method (L.safe hStrict).table hMethod⟩) fun m hm => ?_
    have hCall := hRest (some m) fun _ hSame => Option.some.inj hSame ▸ hm
    cases found.receiver with
    | nothing => exact hCall
    | thisObject => exact .bind (.load ..) fun _ => hCall
    | target => exact .bind hReceiver fun _ => hCall
  · have hCall := hRest none nofun
    rw [pure_bind]
    cases found.receiver with
    | nothing => exact hCall
    | thisObject => exact .bind (.load ..) fun _ => hCall
    | target => exact .bind hReceiver fun _ => hCall

theorem readCounter_holds (args : List Expr) : L.Holds (readCounter ctx args) :=
  .liftThen (ctx.bindings.counter_faults L.lenient args) fun _ _ => .bind (.getStatic ..) fun _ =>
    .bind (.invoke _ _ _ fun _ => by unfold isCallable; decide +kernel) fun _ => .pure _

theorem callOn_holds (hParams : ParamsKnown ctx L.known) (target : Expr) {t : Emit JavaType} (name : String)
    (args : List Expr) (ht : L.Holds t) (h : ∀ c ∈ codes, c.Follows L) :
    L.Holds (callOn ctx target t name args codes) :=
  .liftThen (L.fair.argumentTypes_faults args) fun types _ => .liftThen
    (ctx.callTarget_settles L.lenient target (L.fair.denote_faults target) name types) fun _ hFound =>
      .liftThen (expand_faults args codes) fun _ hExpand =>
        call_holds (TypingContext.callTarget_selects hFound) ht (expand_follows hParams h hExpand)

theorem callBare_holds (hParams : ParamsKnown ctx L.known) (name : String) (args : List Expr)
    (h : ∀ c ∈ codes, c.Follows L) : L.Holds (callBare ctx name args codes) :=
  .liftThen (L.fair.argumentTypes_faults args) fun types _ => .liftThen
    (ctx.bareCall_faults L.lenient name types) fun _ hFound => .liftThen (expand_faults args codes) fun _ hExpand =>
      call_holds (TypingContext.bareCall_selects hFound) (.pure _) (expand_follows hParams h hExpand)

/-- The code of the target of the recorded call, where there is one, follows a law. -/
def ForwardFollows (L : ExpressionLaw ctx) (forward : Emit JavaType) : Prop :=
  ∀ call target, ctx.bindings.proceed = some call → call.target = some target → L.Holds forward

theorem proceed_holds (hParams : ParamsKnown ctx L.known) {forward : Emit JavaType}
    (hForward : ForwardFollows L forward) (args : List Expr) (h : ∀ c ∈ codes, c.Follows L) :
    L.Holds (proceed ctx forward args codes) := by
  refine .liftThen (ctx.bindings.expand_faults L.lenient args) fun _ _ =>
    .liftThen (ctx.bindings.getProceed_faults L.lenient) fun call hCall => ?_
  have hRecorded := getProceed_some hCall
  split
  · next target hTarget => exact callOn_holds hParams target _ args (hForward call target hRecorded hTarget) h
  · next hTarget =>
    split
    · next hSelf => exact .throw (L.fair.endless (by simp [Bindings.leadsBack, hRecorded, hTarget, hSelf]))
    · exact .ite (readCounter_holds _) (callBare_holds hParams _ args h)

theorem Follows.ofCall (hParams : ParamsKnown ctx L.known) {forward : Emit JavaType} (name : String)
    (args : List Expr) (hForward : name = proceedName → ForwardFollows L forward)
    (h : ∀ c ∈ codes, c.Follows L) : (ofCall ctx forward name args codes).Follows L := by
  refine .ofValue _ ?_
  split
  · next hName => exact proceed_holds hParams (hForward hName) args h
  · exact .ite (readCounter_holds _) (callBare_holds hParams _ args h)

theorem create_holds (hParams : ParamsKnown ctx L.known) (written : WrittenType) (args : List Expr)
    (h : ∀ c ∈ codes, c.Follows L) : L.Holds (create ctx written args codes) := by
  refine .liftThen (ctx.view.resolveType_faults L.lenient _) fun type _ =>
    .liftThen (L.fair.argumentTypes_faults args) fun types _ =>
      .liftThen (ctx.view.lookupMethod_faults L.lenient _ _ _) fun selected hSelected => ?_
  have hFound := Viewpoint.Selects.reachable ⟨_, _, _, hSelected⟩
  dsimp only
  split
  · next hNeeds =>
    obtain ⟨hOwner, hMethod⟩ := hFound.declares hNeeds
    rw [bind_map_left]
    refine L.ofAccessor (a := .create selected.method) (fun hStrict =>
      ⟨hOwner.isClearName (L.safe hStrict).table, hOwner.method (L.safe hStrict).table hMethod⟩) fun m hm => ?_
    exact .bind (.pool (.ofClass _)) fun _ => .bind (.emit rfl) fun _ => .bind (.emit rfl) fun _ =>
      .liftThen (expand_faults args codes) fun _ hExpand =>
        .bind (pushArguments_holds _ (expand_follows hParams h hExpand)) fun _ =>
          .bind (.emit rfl) fun _ => .bind (.invoke _ _ _ hm) fun _ => .pure _
  · rw [pure_bind]
    exact .bind (.pool (.ofClass _)) fun _ => .bind (.emit rfl) fun _ => .bind (.emit rfl) fun _ =>
      .liftThen (expand_faults args codes) fun _ hExpand =>
        .bind (pushArguments_holds _ (expand_follows hParams h hExpand)) fun _ =>
          .bind (.invoke _ _ _ fun _ => hFound.callable) fun _ => .pure _

end ExprCode

/-! Whole expressions. -/

section

open ExprCode

variable {forward : Emit JavaType}

/-- Expressions that a law allows, given by the tests that some part of them passes and by their variables: if they go on
to the recorded call then the code of its target follows the law, and a strict law wants class literals of types that
can be written. -/
structure ExpressionLaw.Allows (L : ExpressionLaw ctx) (forward : Emit JavaType) (any : (Expr → Bool) → Bool)
    (vars : List Variable) : Prop where
  proceed : any Expr.isProceedCall = true → ForwardFollows L forward
  literals : L.strict → ¬ any Expr.isLooseLiteral = true
  known : ∀ v ∈ vars, L.known v

theorem ExpressionLaw.Allows.part {any any' : (Expr → Bool) → Bool} {vars vars' : List Variable}
    (h : L.Allows forward any vars)
    (hPart : (∀ p, any' p = true → any p = true) ∧ ∀ v ∈ vars', v ∈ vars := by simp +contextual) :
    L.Allows forward any' vars' :=
  ⟨fun hProceed => h.proceed (hPart.1 _ hProceed), fun hStrict hLoose => h.literals hStrict (hPart.1 _ hLoose),
    fun v hv => h.known v (hPart.2 v hv)⟩

mutual

/-- The code of an expression follows a law that allows it. -/
theorem compileWith_follows (hParams : ParamsKnown ctx L.known) : (e : Expr) →
    L.Allows forward (fun p => e.any p) e.variables → (compileWith ctx forward e).Follows L
  | .int _ _, _ => .ofValue _ (.bind (.pushInt _) fun _ => .pure _)
  | .long _, _ => .ofValue _ (.bind (.pushLong _) fun _ => .pure _)
  | .float _, _ => .ofValue _ (.bind (.pushFloat _) fun _ => .pure _)
  | .double _, _ => .ofValue _ (.bind (.pushDouble _) fun _ => .pure _)
  | .string _, _ => .ofValue _ (.bind (.pool (.string _)) fun _ => .bind (.loadConstant _) fun _ => .pure _)
  | .thisRef, _ => .ofValue _ <| .liftThen (ctx.thisType_faults L.lenient) fun _ _ => .bind (.load ..) fun _ => .pure _
  | .superRef, _ => .ofValue _ <| .liftThen (ctx.superType_faults L.lenient) fun _ _ => .bind (.load ..) fun _ => .pure _
  | .nullRef, _ => .ofValue _ (.bind (.emit rfl) fun _ => .pure _)
  | .bool _, _ => .ofValue _ (.bind (.pushTruth _) fun _ => .pure _)
  | .name n, _ => .ofName hParams n
  | .var v, he => .ofVariable (he.known v (by simp))
  | .unary op e, he => .ofUnary op e (compileWith_follows hParams e he.part)
  | .binary op l r, he =>
    .ofBinary op l r (compileWith_follows hParams l he.part) (compileWith_follows hParams r he.part)
  | .compare op l r, he =>
    .ofCompare op l r (compileWith_follows hParams l he.part) (compileWith_follows hParams r he.part)
  | .and l r, he => .ofAnd l r (compileWith_follows hParams l he.part) (compileWith_follows hParams r he.part)
  | .or l r, he => .ofOr l r (compileWith_follows hParams l he.part) (compileWith_follows hParams r he.part)
  | .not e, he => .ofNot e (compileWith_follows hParams e he.part)
  | .instanceOf e t, he => .ofInstance e t (compileWith_follows hParams e he.part)
  | .cast t e, he => .ofCast t e (compileWith_follows hParams e he.part)
  | .conditional c a b, he => .ofConditional c a b (compileWith_follows hParams c he.part)
    (compileWith_follows hParams a he.part) (compileWith_follows hParams b he.part)
  | .assign op target value, he => .ofAssign op target value (compileWith_follows hParams target he.part)
    (compileWith_follows hParams value he.part)
  | .incDec increases before target, he =>
    .ofIncDec increases before target (compileWith_follows hParams target he.part)
  | .field target _, he => .ofField _ (.bind (compileWith_follows hParams target he.part).value fun _ => .pure _)
  | .classLit t, he => .ofValue _ <| .liftThen (ctx.view.resolveType_faults L.lenient t) fun _ hType =>
    .classLiteral fun hStrict => Viewpoint.isNull_resolveType (by simpa using he.literals hStrict) hType
  | .index a i, he => .ofIndex a i (compileWith_follows hParams a he.part) (compileWith_follows hParams i he.part)
  | .call n args, he => .ofCall hParams n args (fun hName => he.proceed (by simp [hName]))
    (compileAllWith_follows hParams args he.part)
  | .callOn target n args, he => .ofValue _ <| callOn_holds hParams target n args
    (compileWith_follows hParams target he.part).value (compileAllWith_follows hParams args he.part)
  | .new t args, he => .ofValue _ (create_holds hParams t args (compileAllWith_follows hParams args he.part))
  | .newArray t lengths extra, he => .ofNewArray t lengths extra (compileAllWith_follows hParams lengths he.part)
  | .arrayOf t dims items, he => .ofArray t dims items (compileAllWith_follows hParams items he.part)
  | .arrayInit items, he => .ofArrayInit items (compileAllWith_follows hParams items he.part)
  | .concat parts, he => .ofValue _ <| .concat fun x hx => by
    obtain ⟨c, hc, rfl⟩ := List.mem_map.1 hx
    exact (compileAllWith_follows hParams parts he.part c hc).value

theorem compileAllWith_follows (hParams : ParamsKnown ctx L.known) : (es : List Expr) →
    L.Allows forward (fun p => Expr.anyOf p es) (Expr.variablesOf es) →
    ∀ c ∈ compileAllWith ctx forward es, c.Follows L
  | [], _ => nofun
  | e :: rest, he => fun c hc => by
    rcases List.mem_cons.1 hc with rfl | hRest
    · exact compileWith_follows hParams e he.part
    · exact compileAllWith_follows hParams rest he.part c hRest

end

/-- A law allows what is recorded in the surroundings. -/
structure ExpressionLaw.Covers (L : ExpressionLaw ctx) : Prop where
  params : ParamsKnown ctx L.known
  proceed : ∀ call target, ctx.bindings.proceed = some call → call.target = some target →
    (L.strict → target.IsTight) ∧ ∀ v ∈ target.variables, L.known v

theorem ExpressionLaw.Covers.forwardCode (h : L.Covers) : ForwardFollows L ctx.forwardCode := by
  intro call target hCall hTarget
  obtain ⟨hTight, hKnown⟩ := h.proceed call target hCall hTarget
  unfold TypingContext.forwardCode
  rw [hCall, Option.bind_some, hTarget]
  refine (compileWith_follows h.params target ⟨fun hProceeds _ _ _ _ => .throw (L.fair.endless ?_), hTight,
    hKnown⟩).value
  simpa [Bindings.leadsBack, hCall, hTarget] using hProceeds

/-- The code of an expression follows a law, in surroundings that it covers. -/
theorem compile_follows (h : L.Covers) {e : Expr} (hTight : L.strict → e.IsTight)
    (hKnown : ∀ v ∈ e.variables, L.known v) : (ctx.compile e).Follows L :=
  compileWith_follows h.params e ⟨fun _ => h.forwardCode, hTight, hKnown⟩

end

end JavaFragment
