import JavaFragment.Typing.Check
import JavaFragment.Proofs.AccessorSignatures
import JavaFragment.Proofs.Typing
/-!
Which faults the typing rules report. Most of them are mild: they say what is wrong with a source text. The others
come from malformed descriptors of fields, and from a recorded `$proceed` call that leads to itself. The target of such
a call is looked at without knowing what it goes on to itself. What can be said of an expression then stays so once this
is known.
-/
namespace JavaFragment

/-- An answer that is kept by another rule, or a fault that satisfies a condition. -/
structure Settles {α : Type} (P : CompileError → Prop) (x y : Except CompileError α) : Prop where
  of_error : ∀ e, x = .error e → P e
  of_ok : ∀ a, x = .ok a → y = .ok a

/-- Every fault that a rule reports satisfies a condition. -/
abbrev Faults {α : Type} (P : CompileError → Prop) (x : Except CompileError α) : Prop := Settles P x x

/-- A condition that holds of all mild faults. -/
def Lenient (P : CompileError → Prop) : Prop := ∀ e, e.kind ≠ .fatal → P e

namespace Settles

variable {α β : Type} {P : CompileError → Prop} {x y : Except CompileError α}

theorem ok (a : α) : Faults P (.ok a) := ⟨fun _ h => (nomatch h), fun _ h => h⟩

theorem pure (a : α) : Faults P (pure a) := ok a

theorem error {e : CompileError} (h : P e) : Settles P (.error e) y :=
  ⟨fun _ hSame => Except.error.inj hSame ▸ h, fun _ hOk => (nomatch hOk)⟩

/-- A fault that is reported as it is. -/
theorem mild (hP : Lenient P) {e : CompileError} (h : e.kind ≠ .fatal) : Settles P (.error e) y := error (hP e h)

theorem bind {f g : α → Except CompileError β} (hx : Settles P x y)
    (hf : ∀ a, x = .ok a → Settles P (f a) (g a)) : Settles P (x >>= f) (y >>= g) := by
  cases x with
  | ok a =>
    rw [hx.of_ok a rfl]
    exact hf a rfl
  | error e => exact error (hx.of_error e rfl)

theorem map (f : α → β) (hx : Settles P x y) : Settles P (f <$> x) (f <$> y) := by
  cases x with
  | ok a =>
    rw [hx.of_ok a rfl]
    exact ok _
  | error e => exact error (hx.of_error e rfl)

theorem ite {c : Prop} {_ : Decidable c} {x' y' : Except CompileError α} (hx : c → Settles P x y)
    (hx' : ¬ c → Settles P x' y') : Settles P (if c then x else x') (if c then y else y') := by
  split
  · next h => exact hx h
  · next h => exact hx' h

theorem mapM {xs : List β} {f : β → Except CompileError α} (hf : ∀ b ∈ xs, Faults P (f b)) : Faults P (xs.mapM f) := by
  induction xs with
  | nil => exact ok _
  | cons x xs ih =>
    rw [List.mapM_cons]
    exact bind (hf x (by simp)) fun _ _ => bind (ih fun b hb => hf b (by simp [hb])) fun _ _ => pure _

theorem toOption (h : Settles P x y) (a : α) (ha : x.toOption = some a) : y.toOption = some a :=
  except_toOption.2 (h.of_ok a (except_toOption.1 ha))

end Settles

theorem option_bind_keeps {α β : Type} {x y : Option α} {f g : α → Option β} (hx : ∀ a, x = some a → y = some a)
    (hf : ∀ a b, f a = some b → g a = some b) (b : β) (h : (x >>= f) = some b) : (y >>= g) = some b := by
  obtain ⟨a, ha, hb⟩ := Option.bind_eq_some_iff.1 h
  exact Option.bind_eq_some_iff.2 ⟨a, hx a ha, hf a b hb⟩

/-! Names. -/

namespace Viewpoint

variable {P : CompileError → Prop} (v : Viewpoint)

theorem getClass_faults (hP : Lenient P) (name : String) : Faults P (v.getClass name) := by
  unfold getClass
  split
  · exact .ok _
  · exact .mild hP nofun

theorem resolveClass_faults (hP : Lenient P) (name : String) : Faults P (v.resolveClass name) := by
  unfold resolveClass
  split
  · exact .ok _
  · exact .mild hP nofun

theorem resolveBase_faults (hP : Lenient P) (t : WrittenType) : Faults P (v.resolveBase t) := by
  induction t with
  | null => exact .ok _
  | primitive p => exact .ok _
  | named name => exact .map _ (v.resolveClass_faults hP name)
  | array element ih => exact ih

theorem resolveType_faults (hP : Lenient P) (t : WrittenType) : Faults P (v.resolveType t) :=
  .bind (v.resolveBase_faults hP _) fun _ _ => .ite (fun _ => .mild hP nofun) fun _ => .pure _

theorem lookupField_faults (hP : Lenient P) (owner name : String) : Faults P (v.lookupField owner name) := by
  unfold lookupField
  split
  · exact .ok _
  · exact .mild hP nofun

theorem lookupMethod_faults (hP : Lenient P) (owner name : String) (args : List JavaType) :
    Faults P (v.lookupMethod owner name args) := by
  refine .bind (v.getClass_faults hP owner) fun c _ => ?_
  split
  · exact .ok _
  · exact .mild hP nofun

end Viewpoint

namespace Bindings

variable {P : CompileError → Prop} (b : Bindings)

theorem getParams_faults (hP : Lenient P) : Faults P b.getParams := by
  unfold getParams
  split
  · exact .ok _
  · exact .mild hP nofun

theorem getProceed_faults (hP : Lenient P) : Faults P b.getProceed := by
  unfold getProceed
  split
  · exact .ok _
  · exact .mild hP nofun

theorem counter_faults (hP : Lenient P) (args : List Expr) : Faults P (b.counter args) := by
  unfold counter
  dsimp only
  split
  · exact .mild hP nofun
  · split
    · exact .ok _
    · exact .mild hP nofun

theorem expand_faults (hP : Lenient P) (args : List Expr) : Faults P (b.expand args) :=
  .ite (fun _ => .bind (b.getParams_faults hP) fun _ _ => .pure _) fun _ => .ok _

end Bindings

/-! Single phrases. -/

theorem Denotation.valueOf_faults {P : CompileError → Prop} (hP : Lenient P) (e : Expr) (d : Denotation) :
    Faults P (d.valueOf e) := by
  cases d with
  | value type => exact .ok _
  | «class» name => exact .mild hP nofun
  | package name => exact .mild hP nofun

/-- What is asked for as a value, and what follows. -/
theorem Settles.value {P : CompileError → Prop} (hP : Lenient P) {β : Type} {x y : Except CompileError Denotation}
    (hx : Settles P x y) {e : Expr} {f g : JavaType → Except CompileError β} (hf : ∀ t, Settles P (f t) (g t)) :
    Settles P (x >>= fun d => d.valueOf e >>= f) (y >>= fun d => d.valueOf e >>= g) :=
  .bind hx fun d _ => .bind (d.valueOf_faults hP e) fun t _ => hf t

namespace TypingContext

variable {P : CompileError → Prop} (ctx : TypingContext) {target : FieldTarget} {name : String}

theorem variableType_faults (hP : Lenient P) (v : Variable) : Faults P (ctx.variableType v) := by
  unfold variableType
  split
  · exact .ok _
  · exact .bind (ctx.view.resolveType_faults hP _) fun _ _ => .ite (fun _ => .mild hP (by rintro ⟨⟩)) fun _ => .pure _

theorem thisType_faults (hP : Lenient P) : Faults P ctx.thisType := .ite (fun _ => .mild hP nofun) fun _ => .ok _

theorem superName_faults (hP : Lenient P) : Faults P ctx.superName := by
  refine .bind (ctx.view.getClass_faults hP _) fun c _ => ?_
  split
  · exact .ok _
  · exact .mild hP nofun

theorem superType_faults (hP : Lenient P) : Faults P ctx.superType :=
  .bind (ctx.thisType_faults hP) fun _ _ => .bind (ctx.superName_faults hP) fun _ _ => .pure _

theorem nameTarget_faults (hP : Lenient P) (name : String) : Faults P (ctx.nameTarget name) := by
  refine .ite (fun _ => .ok _) fun _ => ?_
  split
  · exact .ite (fun _ => .ok _) fun _ => .ite (fun _ => .mild hP nofun) fun _ => .ok _
  · exact .ok _

theorem memberTarget_faults (hP : Lenient P) (target : Expr) (name : String) (d : Denotation) :
    Faults P (ctx.memberTarget target name d) := by
  cases d with
  | value type =>
    refine .ite (fun _ => .ite (fun _ => .ok _) fun _ => .mild hP (by rintro ⟨⟩)) fun _ => ?_
    split
    · exact .mild hP (by rintro ⟨⟩)
    · exact .bind (ctx.view.lookupField_faults hP _ _) fun _ _ => .pure _
  | «class» owner =>
    rw [memberTarget]
    split
    · exact .ite (fun _ => .ok _) fun _ => .mild hP (by rintro ⟨⟩)
    · exact .ite (fun _ => .ok _) fun _ => .mild hP (by rintro ⟨⟩)
  | package name => exact .ok _

/-- The fields that accesses can reach have types. -/
def FieldsTyped (P : CompileError → Prop) : Prop :=
  ∀ owner name found, ctx.view.table.findField owner name = some found → Faults P found.member.type

/-- A field that an access reaches was found in the class table. -/
def Reaches : FieldTarget → Prop
  | .arrayLength => True
  | .ofClass field | .ofObject field => ∃ owner name, ctx.view.table.findField owner name = some field

variable {ctx}

theorem FieldsTyped.type_faults (h : ctx.FieldsTyped P) (hTarget : ctx.Reaches target) : Faults P target.type := by
  cases target with
  | arrayLength => exact .ok _
  | ofClass field | ofObject field =>
    obtain ⟨owner, name, hFound⟩ := hTarget
    exact h owner name field hFound

theorem nameTarget_reaches (h : ctx.nameTarget name = .ok (some target)) : ctx.Reaches target := by
  unfold nameTarget at h
  split at h
  · cases h
  · split at h
    · next field hField =>
      split at h
      · cases h
        exact ⟨_, _, hField⟩
      · split at h
        · cases h
        · cases h
          exact ⟨_, _, hField⟩
    · have hStatic := Except.ok.inj h
      obtain ⟨field, hFound, rfl⟩ := Option.map_eq_some_iff.1 hStatic
      obtain ⟨owner, -, hOwner⟩ := List.exists_of_findSome?_eq_some hFound
      exact ⟨owner, name, (Option.filter_eq_some_iff.1 hOwner).1⟩

theorem lookupField_found {owner : String} {field : Declared FieldModel}
    (h : ctx.view.lookupField owner name = .ok field) : ctx.view.table.findField owner name = some field := by
  unfold Viewpoint.lookupField at h
  split at h
  · next found hFound =>
    cases h
    exact hFound
  · cases h

theorem memberTarget_reaches {e : Expr} {d : Denotation}
    (h : ctx.memberTarget e name d = .ok (some target)) : ctx.Reaches target := by
  cases d with
  | value type =>
    rw [memberTarget] at h
    split at h
    · split at h
      · cases h
        trivial
      · cases h
    · split at h
      · cases h
      · next owner _ =>
        cases hLookup : ctx.view.lookupField owner name with
        | error fault =>
          rw [hLookup] at h
          cases h
        | ok field =>
          rw [hLookup] at h
          have hSame := Option.some.inj (Except.ok.inj h)
          have hFound := lookupField_found hLookup
          split at hSame
          · exact hSame ▸ ⟨_, _, hFound⟩
          · exact hSame ▸ ⟨_, _, hFound⟩
  | «class» owner =>
    rw [memberTarget] at h
    split at h
    · next field hField =>
      split at h
      · cases h
        exact ⟨_, _, hField⟩
      · cases h
    · split at h
      · cases h
      · cases h
  | package name => cases h

theorem denoteName_faults (hP : Lenient P) (h : ctx.FieldsTyped P) (name : String) :
    Faults P (ctx.denoteName name) := by
  unfold denoteName
  split
  · next pseudo _ =>
    cases pseudo with
    | splice => exact .map _ (.mild hP nofun)
    | _ => exact .map _ (.ok _)
  · refine .bind (ctx.nameTarget_faults hP name) fun target hTarget => ?_
    cases target with
    | none => exact .pure _
    | some field => exact .bind (h.type_faults (nameTarget_reaches hTarget)) fun _ _ => .pure _

theorem denoteMember_faults (hP : Lenient P) (h : ctx.FieldsTyped P) (target : Expr) (name : String)
    (d : Denotation) : Faults P (ctx.denoteMember target name d) := by
  refine .bind (ctx.memberTarget_faults hP target name d) fun found hFound => ?_
  cases found with
  | some field => exact .bind (h.type_faults (memberTarget_reaches hFound)) fun _ _ => .pure _
  | none =>
    cases d with
    | value type => exact .mild hP nofun
    | «class» owner => exact .pure _
    | package package => exact .pure _

theorem fieldLocation_faults (hP : Lenient P) (h : ctx.FieldsTyped P) (e : Expr) {target : Option FieldTarget}
    (hTarget : ∀ field, target = some field → ctx.Reaches field) : Faults P (fieldLocation e target) := by
  match target with
  | none | some .arrayLength => exact .mild hP nofun
  | some (.ofClass field) => exact h.type_faults (hTarget (.ofClass field) rfl)
  | some (.ofObject field) => exact h.type_faults (hTarget (.ofObject field) rfl)

theorem nameLocation_faults (hP : Lenient P) (h : ctx.FieldsTyped P) (name : String) :
    Faults P (ctx.nameLocation name) :=
  .bind (ctx.nameTarget_faults hP name) fun _ hTarget =>
    fieldLocation_faults hP h _ fun _ hField => nameTarget_reaches (hField ▸ hTarget)

/-! Calls. -/

variable (ctx)

theorem outerCall_faults (hP : Lenient P) (name : String) (args : List JavaType) {otherwise : CompileError}
    (hOtherwise : P otherwise) (owners : List String) : Faults P (ctx.outerCall name args otherwise owners) := by
  induction owners with
  | nil => exact .error hOtherwise
  | cons owner rest ih =>
    unfold outerCall
    split
    · exact .ite (fun _ => .ok _) fun _ => ih
    · exact .bind (ctx.view.getClass_faults hP owner) fun _ _ => ih

theorem bareCall_faults (hP : Lenient P) (name : String) (args : List JavaType) :
    Faults P (ctx.bareCall name args) := by
  unfold bareCall
  dsimp only
  split
  · next e he => exact ctx.outerCall_faults hP name args ((ctx.view.lookupMethod_faults hP _ name args).of_error e he) _
  · exact .bind (ctx.view.getClass_faults hP _) fun _ _ => .ite (fun _ => .ok _) fun _ =>
      .ite (fun _ => .mild hP nofun) fun _ => .ok _

theorem constructorCall_faults (hP : Lenient P) (owner : String) (args : List JavaType) :
    Faults P (ctx.constructorCall owner args) :=
  .bind (ctx.view.lookupMethod_faults hP owner _ args) fun _ _ => .pure _

theorem superCall_faults (hP : Lenient P) (name : String) (args : List JavaType) : Faults P (ctx.superCall name args) :=
  .bind (ctx.superName_faults hP) fun _ _ => .bind (ctx.view.lookupMethod_faults hP _ name args) fun _ _ =>
    .ite (fun _ => .pure _) fun _ => .pure _

theorem memberCall_faults (hP : Lenient P) (target : Expr) (name : String) (args : List JavaType) (d : Denotation) :
    Faults P (ctx.memberCall target name args d) := by
  have hCall (searched owner : String) : Faults P (do
      let selected ← ctx.view.lookupMethod searched name args
      let kind := ctx.invokeKind (← ctx.view.getClass searched) selected
      return (⟨if kind = .static then .nothing else .target, selected, kind, owner⟩ : CallTarget)) :=
    .bind (ctx.view.lookupMethod_faults hP _ name args) fun _ _ =>
      .bind (ctx.view.getClass_faults hP _) fun _ _ => .pure _
  cases d with
  | value type =>
    rw [memberCall]
    split
    · exact hCall _ _
    · split
      · exact hCall _ _
      · exact .mild hP nofun
  | «class» owner =>
    exact .bind (ctx.view.lookupMethod_faults hP owner name args) fun _ _ => .ite (fun _ => .pure _)
      fun _ => .mild hP nofun
  | package package => exact .mild hP nofun

theorem callTarget_settles (hP : Lenient P) (target : Expr) {d d' : Except CompileError Denotation}
    (hd : Settles P d d') (name : String) (args : List JavaType) :
    Settles P (ctx.callTarget target d name args) (ctx.callTarget target d' name args) := by
  unfold callTarget
  split
  · exact .ite (fun _ => .bind (ctx.thisType_faults hP) fun _ _ => ctx.constructorCall_faults hP _ args)
      fun _ => .bind hd fun _ _ => ctx.memberCall_faults hP _ name args _
  · refine .bind (ctx.thisType_faults hP) fun _ _ => .ite (fun _ => ?_) fun _ => ctx.superCall_faults hP name args
    exact .bind (ctx.superName_faults hP) fun _ _ => ctx.constructorCall_faults hP _ args
  · exact .bind hd fun _ _ => ctx.memberCall_faults hP _ name args _

theorem createdClass_faults (hP : Lenient P) (type : JavaType) : Faults P (ctx.createdClass type) :=
  .bind (ctx.view.getClass_faults hP _) fun _ _ => .ite (fun _ => .mild hP nofun) fun _ => .pure _

/-! Operators. -/

theorem castType_faults (hP : Lenient P) (e : Expr) (written : WrittenType) (source : JavaType) :
    Faults P (ctx.castType e written source) :=
  .ite (fun _ => .ok _) fun _ => .ite (fun _ => .ok _) fun _ =>
    .bind (ctx.view.resolveType_faults hP written) fun _ _ => .ite (fun _ => .pure _) fun _ => .mild hP nofun

theorem instanceType_faults (hP : Lenient P) (e : Expr) (written : WrittenType) (source : JavaType) :
    Faults P (ctx.instanceType e written source) :=
  .bind (ctx.view.resolveType_faults hP written) fun _ _ => .ite (fun _ => .pure _) fun _ => .mild hP nofun

theorem indexType_faults (hP : Lenient P) (e : Expr) (array position : JavaType) :
    Faults P (indexType e array position) := by
  refine .ite (fun _ => .mild hP (by rintro ⟨⟩)) fun _ => ?_
  split
  · exact .ok _
  · exact .mild hP (by rintro ⟨⟩)

theorem itemType_faults (hP : Lenient P) (type : JavaType) : Faults P (itemType type) := by
  unfold itemType
  split
  · exact .ok _
  · exact .mild hP (by rintro ⟨⟩)

theorem assign_faults (hP : Lenient P) (value : Expr) (constant : Unit → Option Const) (source target : JavaType) :
    Faults P (ctx.assign value constant source target) :=
  .ite (fun _ => .ok _) fun _ => .ite (fun _ => .ok _) fun _ => .mild hP nofun

/-- Once a constant is known, it may narrow. -/
theorem assign_settles (hP : Lenient P) (value : Expr) {x y : Option Const} (h : ∀ c, x = some c → y = some c)
    (source target : JavaType) :
    Settles P (ctx.assign value (fun _ => x) source target) (ctx.assign value (fun _ => y) source target) where
  of_error := (ctx.assign_faults hP ..).of_error
  of_ok u hAssign := by
    rcases assign_ok.1 hAssign with hFits | hNarrows
    · exact assign_ok.2 (.inl hFits)
    · refine assign_ok.2 (.inr ?_)
      cases x with
      | none => cases hNarrows
      | some c => rwa [h c rfl]

theorem conditionalType_settles (hP : Lenient P) (e test : Expr) {c c' a a' b b' : Except CompileError JavaType}
    (hc : Settles P c c') (ha : Settles P a a') (hb : Settles P b b') :
    Settles P (ctx.conditionalType e test c a b) (ctx.conditionalType e test c' a' b') := by
  refine .bind hc fun _ _ => .ite (fun _ => .mild hP (by rintro ⟨⟩)) fun _ => .bind ha fun _ _ => .bind hb fun _ _ => ?_
  split
  · exact .pure _
  · exact .mild hP (by rintro ⟨⟩)

theorem truth_faults (hP : Lenient P) (e : Expr) (type : JavaType) : Faults P (truth e type) :=
  .ite (fun _ => .ok _) fun _ => .mild hP nofun

end TypingContext

/-! Whole expressions. -/

mutual

/-- Whether some part of an expression satisfies a test. -/
@[simp]
def Expr.any (p : Expr → Bool) : Expr → Bool
  | .int value kind => p (.int value kind)
  | .long value => p (.long value)
  | .float value => p (.float value)
  | .double value => p (.double value)
  | .string text => p (.string text)
  | .bool value => p (.bool value)
  | .thisRef => p .thisRef
  | .superRef => p .superRef
  | .nullRef => p .nullRef
  | .name n => p (.name n)
  | .var v => p (.var v)
  | .classLit t => p (.classLit t)
  | .unary op e => p (.unary op e) || e.any p
  | .not e => p (.not e) || e.any p
  | .instanceOf e t => p (.instanceOf e t) || e.any p
  | .cast t e => p (.cast t e) || e.any p
  | .incDec increment before target => p (.incDec increment before target) || target.any p
  | .field e n => p (.field e n) || e.any p
  | .binary op l r => p (.binary op l r) || l.any p || r.any p
  | .compare op l r => p (.compare op l r) || l.any p || r.any p
  | .and l r => p (.and l r) || l.any p || r.any p
  | .or l r => p (.or l r) || l.any p || r.any p
  | .assign op target value => p (.assign op target value) || target.any p || value.any p
  | .index array position => p (.index array position) || array.any p || position.any p
  | .conditional c a b => p (.conditional c a b) || c.any p || a.any p || b.any p
  | .call n args => p (.call n args) || Expr.anyOf p args
  | .callOn target n args => p (.callOn target n args) || target.any p || Expr.anyOf p args
  | .new t args => p (.new t args) || Expr.anyOf p args
  | .newArray t lengths extra => p (.newArray t lengths extra) || Expr.anyOf p lengths
  | .arrayOf t dims items => p (.arrayOf t dims items) || Expr.anyOf p items
  | .arrayInit items => p (.arrayInit items) || Expr.anyOf p items
  | .concat parts => p (.concat parts) || Expr.anyOf p parts

/-- Whether some part of one of the expressions satisfies a test. -/
@[simp]
def Expr.anyOf (p : Expr → Bool) : List Expr → Bool
  | [] => false
  | e :: rest => e.any p || Expr.anyOf p rest

end

/-- Whether an expression is a call of `$proceed`. -/
@[simp]
def Expr.isProceedCall : Expr → Bool
  | .call n _ => n == proceedName
  | _ => false

/-- Whether an expression goes on to the recorded call. -/
abbrev Expr.callsProceed (e : Expr) : Bool := e.any Expr.isProceedCall

/-- Whether the recorded call of `$proceed` leads to itself. -/
def Bindings.leadsBack (b : Bindings) : Bool :=
  match b.proceed with
  | none => false
  | some call => match call.target with
    | some target => target.callsProceed
    | none => call.method == proceedName

namespace TypingContext

/-- Surroundings in which typing rules report faults of a kind. -/
structure Fair (P : CompileError → Prop) (ctx : TypingContext) : Prop where
  lenient : Lenient P
  fields : ctx.FieldsTyped P
  endless : ctx.bindings.leadsBack = true → P (.fatal .endlessProceed)

theorem Fair.of_all {P : CompileError → Prop} {ctx : TypingContext} (h : ∀ e, P e) : ctx.Fair P :=
  ⟨fun e _ => h e, fun _ _ _ _ => ⟨fun e _ => h e, fun _ h => h⟩, fun _ => h _⟩

/-- What the target of the recorded call stands for, where there is one. -/
def ForwardSettles (P : CompileError → Prop) (ctx : TypingContext) (forward forward' : Except CompileError Denotation) :
    Prop := ∀ call target, ctx.bindings.proceed = some call → call.target = some target → Settles P forward forward'

end TypingContext

section Denotations

variable {P : CompileError → Prop} {ctx : TypingContext} {forward forward' : Except CompileError Denotation}

theorem getProceed_some {b : Bindings} {call : ProceedCall} (h : b.getProceed = .ok call) : b.proceed = some call := by
  unfold Bindings.getProceed at h
  split at h
  · next found hFound =>
    cases h
    exact hFound
  · cases h

open TypingContext

mutual

/-- Faults satisfy a condition, and answers are kept once it is known what `$proceed` goes on to. -/
theorem denoteWith_settles (h : ctx.Fair P) : (e : Expr) →
    (e.callsProceed = true → ctx.ForwardSettles P forward forward') →
      Settles P (denoteWith ctx forward e) (denoteWith ctx forward' e)
  | .int _ _, _ | .long _, _ | .float _, _ | .double _, _ | .string _, _ | .concat _, _ | .nullRef, _
  | .bool _, _ => by
    rw [denoteWith, denoteWith]
    exact .ok _
  | .thisRef, _ => by
    rw [denoteWith, denoteWith]
    exact .map _ (ctx.thisType_faults h.lenient)
  | .superRef, _ => by
    rw [denoteWith, denoteWith]
    exact .map _ (ctx.superType_faults h.lenient)
  | .name n, _ => by
    rw [denoteWith, denoteWith]
    exact denoteName_faults h.lenient h.fields n
  | .var v, _ => by
    rw [denoteWith, denoteWith]
    exact .map _ (ctx.variableType_faults h.lenient v)
  | .field target n, hProceed => by
    rw [denoteWith, denoteWith]
    exact .bind (denoteWith_settles h target hProceed) fun _ _ => denoteMember_faults h.lenient h.fields _ _ _
  | .unary op e, hProceed => by
    rw [denoteWith, denoteWith]
    refine .value h.lenient (denoteWith_settles h e hProceed) fun _ => ?_
    split
    · exact .pure _
    · exact .mild h.lenient nofun
  | .binary op l r, hProceed => by
    rw [denoteWith, denoteWith]
    refine .value h.lenient (denoteWith_settles h l fun hl => hProceed (by simp [hl])) fun _ =>
      .value h.lenient (denoteWith_settles h r fun hr => hProceed (by simp [hr])) fun _ => ?_
    split
    · exact .pure _
    · exact .mild h.lenient nofun
  | .compare op l r, hProceed => by
    rw [denoteWith, denoteWith]
    exact .value h.lenient (denoteWith_settles h l fun hl => hProceed (by simp [hl])) fun _ =>
      .value h.lenient (denoteWith_settles h r fun hr => hProceed (by simp [hr])) fun _ =>
        .ite (fun _ => .pure _) fun _ => .mild h.lenient nofun
  | .and l r, hProceed | .or l r, hProceed => by
    rw [denoteWith, denoteWith]
    exact .value h.lenient (denoteWith_settles h l fun hl => hProceed (by simp [hl])) fun _ =>
      .bind (truth_faults h.lenient l _) fun _ _ =>
        .value h.lenient (denoteWith_settles h r fun hr => hProceed (by simp [hr])) fun _ =>
          .bind (truth_faults h.lenient r _) fun _ _ => .pure _
  | .not e, hProceed => by
    rw [denoteWith, denoteWith]
    exact .value h.lenient (denoteWith_settles h e hProceed) fun _ =>
      .bind (truth_faults h.lenient e _) fun _ _ => .pure _
  | .instanceOf e written, hProceed => by
    rw [denoteWith, denoteWith]
    exact .value h.lenient (denoteWith_settles h e hProceed) fun _ =>
      .bind (ctx.instanceType_faults h.lenient _ _ _) fun _ _ => .pure _
  | .cast written e, hProceed => by
    rw [denoteWith, denoteWith]
    exact .value h.lenient (denoteWith_settles h e hProceed) fun _ =>
      .bind (ctx.castType_faults h.lenient _ _ _) fun _ _ => .pure _
  | .conditional c a b, hProceed => by
    have hc := denoteWith_settles h c fun hc => hProceed (by simp [hc])
    have ha := denoteWith_settles h a fun ha => hProceed (by simp [ha])
    have hb := denoteWith_settles h b fun hb => hProceed (by simp [hb])
    rw [denoteWith, denoteWith]
    exact .bind (ctx.conditionalType_settles h.lenient _ _ (.bind hc fun d _ => d.valueOf_faults h.lenient c)
      (.bind ha fun d _ => d.valueOf_faults h.lenient a) (.bind hb fun d _ => d.valueOf_faults h.lenient b))
      fun _ _ => .pure _
  | .assign op target value, hProceed => by
    have hTarget := locationWith_settles h target fun ht => hProceed (by simp [ht])
    have hValue := denoteWith_settles h value fun hv => hProceed (by simp [hv])
    cases op with
    | some op =>
      rw [denoteWith, denoteWith]
      exact .bind hTarget fun _ _ => .value h.lenient hValue fun _ =>
        .ite (fun _ => .pure _) fun _ => .mild h.lenient nofun
    | none =>
      by_cases hItems : ∃ items, value = .arrayInit items
      · obtain ⟨items, rfl⟩ := hItems
        rw [denoteWith, denoteWith]
        exact .bind hTarget fun _ _ => .bind (itemType_faults h.lenient _) fun _ _ =>
          .bind (fitWith_settles h items (fun hi => hProceed (by simp [hi])) _) fun _ _ => .pure _
      · have hOther (items : List Expr) (hSame : value = .arrayInit items) : False := hItems ⟨items, hSame⟩
        rw [denoteWith, denoteWith] <;> try exact hOther
        exact .bind hTarget fun _ _ => .value h.lenient hValue fun _ => .bind (ctx.assign_settles h.lenient _
          (constantWith_settles h value fun hv => hProceed (by simp [hv])) _ _) fun _ _ => .pure _
  | .incDec increment before target, hProceed => by
    rw [denoteWith, denoteWith]
    exact .bind (locationWith_settles h target hProceed) fun _ _ => .ite (fun _ => .pure _)
      fun _ => .mild h.lenient nofun
  | .classLit written, _ => by
    rw [denoteWith, denoteWith]
    exact .bind (ctx.view.resolveType_faults h.lenient _) fun _ _ => .pure _
  | .index a i, hProceed => by
    rw [denoteWith, denoteWith]
    exact .value h.lenient (denoteWith_settles h a fun ha => hProceed (by simp [ha])) fun _ =>
      .value h.lenient (denoteWith_settles h i fun hi => hProceed (by simp [hi])) fun _ =>
        .bind (indexType_faults h.lenient _ _ _) fun _ _ => .pure _
  | .call name args, hProceed => by
    have hTypes := typesWith_settles h args fun ha => hProceed (by simp [ha])
    rw [denoteWith, denoteWith]
    refine .ite (fun hName => .bind (ctx.bindings.expand_faults h.lenient _) fun _ _ =>
      .bind (ctx.bindings.getProceed_faults h.lenient) fun call hCall => ?_) fun _ => .ite
        (fun _ => .bind (ctx.bindings.counter_faults h.lenient _) fun _ _ => .pure _)
        fun _ => .bind (ctx.bindings.expand_faults h.lenient _) fun _ _ => .bind hTypes fun _ _ =>
          .bind (ctx.bareCall_faults h.lenient _ _) fun _ _ => .pure _
    have hRecorded := getProceed_some hCall
    cases hTarget : call.target with
    | some target =>
      have hForward := hProceed (by simp [hName]) call target hRecorded hTarget
      exact .bind hTypes fun _ _ => .bind (ctx.callTarget_settles h.lenient _ hForward _ _) fun _ _ => .pure _
    | none =>
      refine .ite (fun hSelf => .error (h.endless ?_)) fun _ => .ite
        (fun _ => .bind (ctx.bindings.counter_faults h.lenient _) fun _ _ => .pure _) fun _ =>
          .bind hTypes fun _ _ => .bind (ctx.bareCall_faults h.lenient _ _) fun _ _ => .pure _
      simp [Bindings.leadsBack, hRecorded, hTarget, hSelf]
  | .callOn target name args, hProceed => by
    have hTarget := denoteWith_settles h target fun ht => hProceed (by simp [ht])
    rw [denoteWith, denoteWith]
    exact .bind (ctx.bindings.expand_faults h.lenient _) fun _ _ =>
      .bind (typesWith_settles h args fun ha => hProceed (by simp [ha])) fun _ _ =>
        .bind (ctx.callTarget_settles h.lenient _ hTarget _ _) fun _ _ => .pure _
  | .new written args, hProceed => by
    rw [denoteWith, denoteWith]
    exact .bind (ctx.view.resolveType_faults h.lenient _) fun _ _ =>
      .bind (ctx.createdClass_faults h.lenient _) fun _ _ => .bind (ctx.bindings.expand_faults h.lenient _) fun _ _ =>
        .bind (typesWith_settles h args hProceed) fun _ _ =>
          .bind (ctx.view.lookupMethod_faults h.lenient _ _ _) fun _ _ => .pure _
  | .newArray element lengths extra, hProceed => by
    rw [denoteWith, denoteWith]
    exact .bind (ctx.view.resolveType_faults h.lenient _) fun _ _ =>
      .bind (lengthsWith_settles h _ lengths hProceed) fun _ _ => .pure _
  | .arrayOf element dims items, hProceed => by
    rw [denoteWith, denoteWith]
    exact .bind (ctx.view.resolveType_faults h.lenient _) fun _ _ =>
      .bind (itemType_faults h.lenient _) fun _ _ => .bind (fitWith_settles h items hProceed _) fun _ _ => .pure _
  | .arrayInit _, _ => by
    rw [denoteWith, denoteWith]
    exact .mild h.lenient nofun

theorem locationWith_settles (h : ctx.Fair P) : (e : Expr) →
    (e.callsProceed = true → ctx.ForwardSettles P forward forward') →
      Settles P (locationWith ctx forward e) (locationWith ctx forward' e)
  | .var v, _ => by
    rw [locationWith, locationWith]
    exact ctx.variableType_faults h.lenient v
  | .index a i, hProceed => by
    rw [locationWith, locationWith]
    exact .value h.lenient (denoteWith_settles h a fun ha => hProceed (by simp [ha])) fun _ =>
      .value h.lenient (denoteWith_settles h i fun hi => hProceed (by simp [hi])) fun _ =>
        indexType_faults h.lenient _ _ _
  | .name n, _ => by
    rw [locationWith, locationWith]
    exact nameLocation_faults h.lenient h.fields n
  | .field target n, hProceed => by
    rw [locationWith, locationWith]
    exact .bind (denoteWith_settles h target hProceed) fun d _ =>
      .bind (ctx.memberTarget_faults h.lenient _ _ d) fun _ hTarget =>
        fieldLocation_faults h.lenient h.fields _ fun _ hField => memberTarget_reaches (hField ▸ hTarget)
  | .int _ _, _ | .long _, _ | .float _, _ | .double _, _ | .string _, _ | .concat _, _ | .nullRef, _ | .bool _, _
  | .thisRef, _ | .superRef, _ | .unary _ _, _ | .binary _ _ _, _ | .compare _ _ _, _ | .and _ _, _ | .or _ _, _
  | .not _, _ | .instanceOf _ _, _ | .cast _ _, _ | .conditional _ _ _, _ | .assign _ _ _, _ | .incDec _ _ _, _
  | .classLit _, _ | .call _ _, _ | .callOn _ _ _, _ | .new _ _, _ | .newArray _ _ _, _ | .arrayOf _ _ _, _
  | .arrayInit _, _ => .mild h.lenient nofun

/-- Constants stay what they are. -/
theorem constantWith_settles (h : ctx.Fair P) : (e : Expr) →
    (e.callsProceed = true → ctx.ForwardSettles P forward forward') →
      ∀ c, constantWith ctx forward e = some c → constantWith ctx forward' e = some c
  | .field target n, hProceed => by
    rw [constantWith, constantWith]
    exact option_bind_keeps (denoteWith_settles h target hProceed).toOption fun _ _ h => h
  | .unary op e, hProceed | .not e, hProceed | .cast _ e, hProceed => by
    rw [constantWith, constantWith]
    exact option_bind_keeps (constantWith_settles h e hProceed) fun _ _ h => h
  | .binary op l r, hProceed | .compare op l r, hProceed | .and l r, hProceed | .or l r, hProceed => by
    rw [constantWith, constantWith]
    exact option_bind_keeps (constantWith_settles h l fun hl => hProceed (by simp [hl])) fun _ =>
      option_bind_keeps (constantWith_settles h r fun hr => hProceed (by simp [hr])) fun _ _ h => h
  | .conditional test a b, hProceed => by
    have hTest := denoteWith_settles h test fun hc => hProceed (by simp [hc])
    have ha := denoteWith_settles h a fun ha => hProceed (by simp [ha])
    have hb := denoteWith_settles h b fun hb => hProceed (by simp [hb])
    rw [constantWith, constantWith]
    refine option_bind_keeps (constantWith_settles h test fun hc => hProceed (by simp [hc])) fun c => ?_
    cases c with
    | bool pick =>
      exact option_bind_keeps (constantWith_settles h a fun ha => hProceed (by simp [ha])) fun _ =>
        option_bind_keeps (constantWith_settles h b fun hb => hProceed (by simp [hb])) fun _ =>
          option_bind_keeps (ctx.conditionalType_settles h.lenient _ _
            (.bind hTest fun d _ => d.valueOf_faults h.lenient test) (.bind ha fun d _ => d.valueOf_faults h.lenient a)
            (.bind hb fun d _ => d.valueOf_faults h.lenient b)).toOption fun _ _ h => h
    | _ => exact fun _ h => h
  | .int _ _, _ | .long _, _ | .float _, _ | .double _, _ | .string _, _ | .concat _, _ | .thisRef, _ | .superRef, _
  | .nullRef, _ | .bool _, _ | .name _, _ | .var _, _ | .classLit _, _ | .arrayInit _, _ | .instanceOf _ _, _
  | .assign _ _ _, _ | .incDec _ _ _, _ | .index _ _, _ | .call _ _, _ | .callOn _ _ _, _ | .new _ _, _
  | .newArray _ _ _, _ | .arrayOf _ _ _, _ => by
    simp only [constantWith]
    exact fun _ h => h

theorem typesWith_settles (h : ctx.Fair P) : (args : List Expr) →
    (Expr.anyOf Expr.isProceedCall args = true → ctx.ForwardSettles P forward forward') →
      Settles P (typesWith ctx forward args) (typesWith ctx forward' args)
  | [], _ => by
    rw [typesWith, typesWith]
    exact .ok _
  | arg :: rest, hProceed => by
    have hRest := typesWith_settles h rest fun hr => hProceed (by simp [hr])
    rw [typesWith, typesWith]
    refine .ite (fun _ => ?_) fun _ => ?_
    · exact .bind (ctx.bindings.getParams_faults h.lenient) fun _ _ =>
        .bind (.mapM fun v _ => ctx.variableType_faults h.lenient v) fun _ _ => .bind hRest fun _ _ => .pure _
    · exact .value h.lenient (denoteWith_settles h arg fun ha => hProceed (by simp [ha])) fun _ =>
      .bind hRest fun _ _ => .pure _

theorem lengthsWith_settles (h : ctx.Fair P) (e : Expr) : (lengths : List Expr) →
    (Expr.anyOf Expr.isProceedCall lengths = true → ctx.ForwardSettles P forward forward') →
      Settles P (lengthsWith ctx forward e lengths) (lengthsWith ctx forward' e lengths)
  | [], _ => by
    rw [lengthsWith, lengthsWith]
    exact .ok _
  | length :: rest, hProceed => by
    rw [lengthsWith, lengthsWith]
    exact .value h.lenient (denoteWith_settles h length fun hl => hProceed (by simp [hl])) fun _ => .ite
        (fun _ => lengthsWith_settles h e rest fun hr => hProceed (by simp [hr])) fun _ => .mild h.lenient nofun

theorem fitWith_settles (h : ctx.Fair P) : (items : List Expr) →
    (Expr.anyOf Expr.isProceedCall items = true → ctx.ForwardSettles P forward forward') → (element : JavaType) →
      Settles P (fitWith ctx forward items element) (fitWith ctx forward' items element)
  | [], _, element => by
    rw [fitWith, fitWith]
    exact .ok _
  | item :: rest, hProceed, element => by
    have hRest := fitWith_settles h rest (fun hr => hProceed (by simp [hr])) element
    have hItem := denoteWith_settles h item fun hi => hProceed (by simp [hi])
    by_cases hItems : ∃ items, item = .arrayInit items
    · obtain ⟨items, rfl⟩ := hItems
      rw [fitWith, fitWith]
      exact .bind (itemType_faults h.lenient _) fun _ _ =>
        .bind (fitWith_settles h items (fun hi => hProceed (by simp [hi])) _) fun _ _ => hRest
    · have hOther (items : List Expr) (hSame : item = .arrayInit items) : False := hItems ⟨items, hSame⟩
      rw [fitWith, fitWith] <;> try exact hOther
      exact .value h.lenient hItem fun _ => .bind (ctx.assign_settles h.lenient _
        (constantWith_settles h item fun hi => hProceed (by simp [hi])) _ _) fun _ _ => hRest

end

namespace TypingContext

/-- The target of the recorded call does not go on to the call, unless that leads to itself. -/
theorem Fair.forward_faults (h : ctx.Fair P) : ctx.ForwardSettles P ctx.forward ctx.forward := by
  intro call target hCall hTarget
  unfold forward
  rw [hCall]
  simp only [Option.bind_some, hTarget]
  refine denoteWith_settles h target fun hProceeds _ _ _ _ => .error (h.endless ?_)
  simpa [Bindings.leadsBack, hCall, hTarget] using hProceeds

/-- The target of the recorded call stands for the same wherever it is looked at. -/
theorem forward_settles {target : Expr} (hTarget : ctx.bindings.proceed.bind ProceedCall.target = some target) :
    Settles (fun _ => True) ctx.forward (ctx.denote target) := by
  rw [forward, hTarget]
  exact denoteWith_settles (.of_all fun _ => trivial) target fun _ _ _ _ _ => .error trivial

theorem Fair.denote_faults (h : ctx.Fair P) (e : Expr) : Faults P (ctx.denote e) :=
  denoteWith_settles h e fun _ => h.forward_faults

theorem Fair.typeOf_faults (h : ctx.Fair P) (e : Expr) : Faults P (ctx.typeOf e) :=
  .bind (h.denote_faults e) fun d _ => d.valueOf_faults h.lenient e

theorem Fair.argumentTypes_faults (h : ctx.Fair P) (args : List Expr) : Faults P (ctx.argumentTypes args) :=
  .bind (ctx.bindings.expand_faults h.lenient args) fun _ _ => typesWith_settles h args fun _ => h.forward_faults

theorem Fair.fieldTarget_faults (h : ctx.Fair P) (e : Expr) : Faults P (ctx.fieldTarget e) := by
  unfold fieldTarget
  split
  · exact ctx.nameTarget_faults h.lenient _
  · exact .bind (h.denote_faults _) fun d _ => ctx.memberTarget_faults h.lenient _ _ d
  · exact .ok _

theorem fieldTarget_reaches {e : Expr} {target : FieldTarget} (hTarget : ctx.fieldTarget e = .ok (some target)) :
    ctx.Reaches target := by
  unfold fieldTarget at hTarget
  split at hTarget
  · exact nameTarget_reaches hTarget
  · next owner name =>
    cases hDenote : ctx.denote owner with
    | error fault =>
      rw [hDenote] at hTarget
      cases hTarget
    | ok d =>
      rw [hDenote] at hTarget
      exact memberTarget_reaches hTarget
  · cases hTarget

theorem Fair.assignable_faults (h : ctx.Fair P) (value : Expr) (source target : JavaType) :
    Faults P (ctx.assignable value source target) := ctx.assign_faults h.lenient _ _ _ _

theorem Fair.fits_faults (h : ctx.Fair P) (items : List Expr) (type : JavaType) : Faults P (ctx.fits items type) :=
  .bind (itemType_faults h.lenient type) fun _ _ => fitWith_settles h items (fun _ => h.forward_faults) _

end TypingContext

end Denotations

end JavaFragment
