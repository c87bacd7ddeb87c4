import JavaFragment.Proofs.ReadNodes
import JavaFragment.Proofs.SessionLocals
import JavaFragment.Proofs.TreeShapes
import JavaFragment.Session.Member
/-!
What sessions can run into. Whatever a session has been asked to do before, and whether or not it refused, the
compilation of a text reports no fatal fault, unless the recorded call of `$proceed` leads to itself.
-/
namespace JavaFragment

/-! In what is read, every class literal is of a type that can be written. -/

theorem isLooseLiteral_spares (tokens : List PlacedToken) : Spares tokens Expr.isLooseLiteral where
  int _ _ := rfl
  negated _ := rfl
  char := rfl
  classLit hType := by simp [hType]
  other {e} h := by
    cases e with
    | int | classLit => cases h
    | _ => rfl

/-- Every class literal in a member is of a type that can be written. -/
def Member.IsTight : Member → Prop
  | .field decl => Expr.IsTightIfAny decl.init
  | .method decl => ∀ body ∈ decl.body, Stmt.AreTight body

/-- Reading of trees of a kind in which no class literal is of another type. -/
def Reader.ReadsTight {α : Type} (T : α → Prop) (reader : Reader α) : Prop :=
  ∀ (tokens : List PlacedToken) (scope : Scope),
    Reader.Reads (.fails (isLooseLiteral_spares tokens)) (fun _ => True) scope False (fun _ _ => True)
      (fun _ tree _ => T tree) reader

theorem readExpression_tight : readExpression.ReadsTight Expr.IsTight := fun _ _ =>
  (readExpression_reads.loosen False).mono (fun _ h => h) (fun _ _ _ => trivial) fun _ _ _ he => ne_true_of_eq_false he

theorem readStatements_tight : readStatements.ReadsTight Stmt.AreTight := fun _ _ =>
  readStatements_reads.mono (fun _ h => h) (fun _ _ _ => trivial) fun _ _ _ hBody =>
    ne_true_of_eq_false (TreeFacts.fails.chain hBody)

theorem readMember_tight : readMember.ReadsTight Member.IsTight := by
  refine fun _ _ => (readMember_reads.loosen False).mono (fun _ h => h) (fun _ _ _ => trivial) fun P m _ hMember => ?_
  cases m with
  | field => exact ne_true_of_eq_false (TreeFacts.fails.option hMember)
  | method =>
    obtain ⟨t, -, hBody⟩ := hMember
    exact fun body hSome => ne_true_of_eq_false (TreeFacts.fails.block (hBody body hSome))

/-! Checks leave it so. -/

namespace TypingContext

variable {P : CompileError → Prop} {ctx : TypingContext}

/-- Class literals are of types that can be written, whatever the variables. -/
def tight : Standard := ⟨True, fun _ => True⟩

theorem meets_tight {loose : Bool} {vars : List Variable} : tight.Meets loose vars ↔ ¬ loose = true :=
  ⟨fun h => by simp [h.literals trivial], fun h => ⟨fun _ => by simpa using h, fun _ _ => trivial⟩⟩

theorem check_tight (h : ctx.Fair P) {e : Expr} (he : e.IsTight) : (ctx.check e).Leaves P Expr.IsTight :=
  (check_leaves h e (meets_tight.2 he)).mono fun _ => meets_tight.1

theorem checkInitial_tight (h : ctx.Fair P) {e : Expr} (he : e.IsTight) (type : JavaType) :
    (ctx.checkInitial type e).Leaves P Expr.IsTight :=
  (checkInitial_leaves h (meets_tight.2 he) type).mono fun _ => meets_tight.1

theorem checkBlock_tight (h : ctx.Fair P) {body : List Stmt} (hBody : Stmt.AreTight body) :
    (ctx.checkBlock body).Leaves P Stmt.AreTight :=
  (checkBlock_leaves h body (meets_tight.2 hBody)).mono fun _ => meets_tight.1

end TypingContext

theorem Scope.Extended.named {s t : Scope} {vs : List Variable} (h : s.Extended vs t) (hs : s.Named) : t.Named := by
  induction h with
  | refl => exact hs
  | declare _ _ ih => exact ih (hs.declare _)

theorem declareParams_named (types : List JavaType) (number : Nat) (slot : UInt16) {scope : Scope}
    (hScope : scope.Named) (locals : Locals) : (declareParams number slot scope locals types).scope.Named := by
  induction types generalizing number slot scope locals with
  | nil => exact hScope
  | cons type rest ih =>
    rw [declareParams]
    dsimp only
    split
    · exact ih _ _ (hScope.declare _) _
    · exact hScope.declare _

/-! Types that are read from descriptors. -/

theorem JavaType.not_isNull_of_isDelimited {t : JavaType} (h : t.isDelimited) : t.isNull = false := by
  obtain ⟨base, dims⟩ := t
  cases base with
  | null => cases h
  | primitive | «class» => simp [isNull]

/-- No type in a descriptor is that of `null`. -/
theorem MethodType.not_isNull_of_ofDescriptor? {descriptor : String} {signature : MethodType}
    (h : ofDescriptor? descriptor = some signature) :
    (∀ t ∈ signature.params, t.isNull = false) ∧ signature.result.isNull = false := by
  have hReadable {t : JavaType} (ht : t.isReadable) : t.isNull = false :=
    JavaType.not_isNull_of_isDelimited (JavaType.isReadable_iff.1 ht).1
  rcases of_ofDescriptor? h with ⟨hParams, hResult, -⟩ | hOverruns
  · exact ⟨fun t ht => hReadable (hParams t ht), JavaType.not_isNull_of_isDelimited hResult⟩
  · cases hOverruns with
    | intro hEarlier hLast hResult =>
      refine ⟨fun t ht => ?_, JavaType.not_isNull_of_isDelimited hResult⟩
      rcases List.mem_append.1 ht with hOld | hNew
      · exact hReadable (hEarlier t hOld)
      · exact List.mem_singleton.1 hNew ▸ JavaType.not_isNull_of_isDelimited hLast

/-! Sessions. -/

/-- The types that are recorded. -/
def Bindings.types (b : Bindings) : List JavaType :=
  b.recordedType.toList ++ b.result.toList ++ b.params.toList.flatMap ParamBinding.types

theorem Bindings.mem_types {b : Bindings} {t : JavaType} : t ∈ b.types ↔
    b.recordedType = some t ∨ b.result = some t ∨ ∃ params, b.params = some params ∧ t ∈ params.types := by
  simp [types]

/-- A fault to which a text can lead: it is not fatal, or the recorded call of `$proceed` leads to itself. -/
def Bindings.Tolerates (b : Bindings) (e : CompileError) : Prop :=
  e.kind = .fatal → e = .fatal .endlessProceed ∧ b.leadsBack = true

theorem Bindings.lenient (b : Bindings) : Lenient b.Tolerates := fun _ hMild hFatal => (hMild hFatal).elim

namespace Session

/-- What holds of a session at all times. -/
structure Orderly (s : Session) : Prop where
  table : s.table.isWellFormed
  scope : s.scope.Named
  code : s.code.Placed
  accessors : ∀ entry ∈ s.accessors, entry.2.Callable
  types : ∀ t ∈ s.bindings.types, t.isNull = false
  proceed : ∀ call ∈ s.bindings.proceed, ∀ target ∈ call.target, target.IsTight

variable {α β : Type} {P : CompileError → Prop} {s₀ s : Session}

/-- Fragments of an orderly session are compiled in sound surroundings. -/
theorem Orderly.sound (hs : s.Orderly) {b : Bindings} (hb : s.bindings = b) {view : Viewpoint}
    (hView : view.table = s.table) (isStatic : Bool) (result : JavaType) (types : Array (Option JavaType)) :
    TypingContext.Sound b.Tolerates ⟨view, s.bindings, isStatic, result, types⟩ := by
  subst hb
  refine { lenient := s.bindings.lenient, fields := fun owner name found hFound => ?_,
           endless := fun hBack _ => ⟨rfl, hBack⟩, table := hView ▸ hs.table, recorded := ?_,
           params := fun params hParams t ht => hs.types t ?_,
           proceed := fun call target hCall hTarget => hs.proceed call hCall target hTarget }
  · obtain ⟨hOwner, hField⟩ := ClassTable.declares_of_findField hFound
    obtain ⟨t, hType, -⟩ := FieldModel.type_of_isWellFormed
      (hOwner.field (hView ▸ hs.table) (List.mem_of_find?_eq_some hField))
    exact hType ▸ .ok t
  · show ((s.bindings.recordedType.or s.bindings.result).getD .void).isNull = false
    cases hRecorded : s.bindings.recordedType with
    | some t => exact hs.types t (by simp [Bindings.types, hRecorded])
    | none =>
      cases hResult : s.bindings.result with
      | some t => exact hs.types t (by simp [Bindings.types, hResult])
      | none => rfl
  · exact List.mem_append_right _ (List.mem_flatMap.2 ⟨params, Option.mem_toList.2 hParams, ht⟩)

theorem Orderly.context (hs : s.Orderly) {b : Bindings} (hb : s.bindings = b) : s.context.Sound b.Tolerates :=
  hs.sound hb rfl _ _ _

/-- Steps that keep sessions orderly and what is recorded as it is, and report allowed faults. -/
def discipline (P : CompileError → Prop) : Discipline CompileError Session where
  sound := Orderly
  le s t := t.bindings = s.bindings
  allowed := P
  refl _ := rfl
  trans h h' := h'.trans h

theorem lift_obeys {x : Except CompileError α} (hx : Faults P x) : Passes (discipline P) s₀ (liftM x : SessionM α) := by
  show Passes _ _ (ofExcept x)
  cases x with
  | ok a => exact .done
  | error e => exact .throw (hx.of_error e rfl)

theorem mild (hP : Lenient P) {e : CompileError} {Q : α → Session → Prop} (h : e.kind ≠ .fatal) :
    Obeys (discipline P) s₀ Q (throw e : SessionM α) := .throw (hP e h)

/-- Reading a text leaves a session orderly. -/
theorem read_obeys (hP : Lenient P) {reader : Reader α} {T : α → Prop} (hReader : reader.ReadsTight T)
    (source : String) : Obeys (discipline P) s₀ (fun tree _ => T tree) (read reader source) := by
  refine .bind .get fun s t hs ⟨hSame, hOrderly⟩ => ?_
  subst hSame
  have hReads := hReader (tokenize source) s.scope
  obtain ⟨vs, -, hExtended⟩ := readTokens_extended hReads s.locals.count
  have hScope := hExtended.named hOrderly.scope
  refine .andThen (.set fun u hu => ⟨{ hOrderly with scope := hScope }, hu.symm⟩) fun _ _ _ => ?_
  split
  · next tree hTree =>
    obtain ⟨-, hRead⟩ := hReads.of_readTokens hTree trivial
    exact .pure fun _ _ => hRead
  · next e _ => exact mild hP (by cases e <;> nofun)

theorem checked_obeys {T : α → Prop} {check : α → Checked α β} {tree : α} (hTree : T tree)
    (hCheck : (check tree).Leaves P T) : Obeys (discipline P) s₀ (fun tree _ => T tree) (checked check tree) :=
  .bind .get fun _ _ _ _ => .ite
    (fun _ => .andThen (lift_obeys hCheck.outcome) fun _ _ _ => .pure fun _ _ => hCheck.tree)
    fun _ => .pure fun _ _ => hTree

/-- Both ways in which a run may end. -/
theorem of_run {x : SessionM α} (h : ∀ s : Session, s.Orderly →
      (∃ a t, x s = .ok a t ∧ t.Orderly ∧ t.bindings = s.bindings) ∨
      ∃ e t, x s = .error e t ∧ t.Orderly ∧ t.bindings = s.bindings ∧ P e) : Passes (discipline P) s₀ x where
  ok s a t _ hs hRun := by
    obtain ⟨b, u, hOk, hOrderly, hSame⟩ | ⟨e, u, hError, -⟩ := h s hs
    · cases hOk.symm.trans hRun
      exact ⟨hOrderly, hSame, trivial⟩
    · cases hError.symm.trans hRun
  error s e t _ hs hRun := by
    obtain ⟨b, u, hOk, -⟩ | ⟨e, u, hError, hEnd⟩ := h s hs
    · cases hOk.symm.trans hRun
    · cases hError.symm.trans hRun
      exact hEnd

variable {ctx : TypingContext} {hSafe : ctx.Safe P}

theorem emit_obeys {x : Emit α} (hx : ∀ e, Passes (Emit.discipline (.ofSafe hSafe)) e x) :
    Passes (discipline P) s₀ (emit x) := by
  refine of_run fun s hs => ?_
  have hStart : (Emit.discipline (.ofSafe hSafe)).sound s.emitState := ⟨hs.code, fun _ => hs.accessors⟩
  cases hEmit : x s.emitState with
  | ok a e =>
    obtain ⟨⟨hPlaced, hAccessors⟩, -⟩ := (hx _).ok _ a e (.refl _) hStart hEmit
    exact .inl ⟨a, _, emit_of_ok hEmit, { hs with code := hPlaced, accessors := hAccessors trivial }, rfl⟩
  | error fault e =>
    obtain ⟨⟨hPlaced, hAccessors⟩, -, hAllowed⟩ := (hx _).error _ fault e (.refl _) hStart hEmit
    exact .inr ⟨fault, _, emit_of_error hEmit, { hs with code := hPlaced, accessors := hAccessors trivial }, rfl,
      hAllowed⟩

/-- Code that is taken out of a buffer may be too long at most. -/
theorem finish_kind {b : CodeBuffer} {fault : BufferFault} (h : b.finish = .error fault) : fault.kind ≠ .fatal := by
  unfold CodeBuffer.finish at h
  split at h
  · cases h
    exact nofun
  · cases h

theorem emitBody_obeys (locals : UInt16) {x : Emit Unit} (hx : ∀ e, Passes (Emit.discipline (.ofSafe hSafe)) e x) :
    Passes (discipline P) s₀ (emitBody locals x) := by
  refine of_run fun s hs => ?_
  have hStart : (Emit.discipline (.ofSafe hSafe)).sound
      ⟨.withLocals locals, s.pool, s.locals.slots, s.accessors, #[]⟩ := ⟨rfl, fun _ => hs.accessors⟩
  simp only [emitBody, emitInto, EStateM.run]
  cases hEmit : x ⟨.withLocals locals, s.pool, s.locals.slots, s.accessors, #[]⟩ with
  | error fault e =>
    obtain ⟨⟨-, hAccessors⟩, -, hAllowed⟩ := (hx _).error _ fault e (.refl _) hStart hEmit
    exact .inr ⟨fault, _, rfl, { hs with accessors := hAccessors trivial }, rfl, hAllowed⟩
  | ok u e =>
    obtain ⟨⟨-, hAccessors⟩, -, -⟩ := (hx _).ok _ u e (.refl _) hStart hEmit
    have hs : Orderly { s with accessors := e.accessors } := { hs with accessors := hAccessors trivial }
    dsimp only
    cases hFinish : e.code.finish with
    | ok body => exact .inl ⟨body, _, rfl, { hs with }, rfl⟩
    | error own => exact .inr ⟨_, _, rfl, { hs with }, rfl, hSafe.lenient _ (finish_kind hFinish)⟩

/-! Texts. -/

section Texts

variable {b : Bindings} (hb : s₀.bindings = b)
include hb

theorem compileStatements_obeys (source : String) : Passes (discipline b.Tolerates) s₀ (compileStatements source) := by
  refine .bind (read_obeys b.lenient readStatements_tight source) fun body s hs hBody => ?_
  refine .bind .get fun u t ht ⟨hSame, hOrderly⟩ => ?_
  subst hSame
  have hSound := hOrderly.context ((ht.trans hs).trans hb)
  refine .bind (checked_obeys hBody (TypingContext.checkBlock_tight hSound.toFair hBody))
    fun body _ _ hBody => ?_
  exact emit_obeys fun _ => .andThen (compileBlock_safe hSound hBody _) fun _ _ _ => .done

theorem compileExpression_obeys (source : String) : Passes (discipline b.Tolerates) s₀ (compileExpression source) := by
  refine .bind (read_obeys b.lenient readExpression_tight source) fun e s hs he => ?_
  refine .bind .get fun u t ht ⟨hSame, hOrderly⟩ => ?_
  subst hSame
  have hSound := hOrderly.context ((ht.trans hs).trans hb)
  refine .bind (checked_obeys he (TypingContext.check_tight hSound.toFair he)) fun e _ _ he => ?_
  exact emit_obeys (hSound.compile he).value

omit hb in
theorem finishCode_obeys (hP : Lenient P) : Passes (discipline P) s₀ finishCode := by
  refine .bind .get fun s _ _ _ =>
    .andThen (.modify fun t _ hOrderly => ⟨{ hOrderly with code := rfl }, rfl⟩) fun _ _ _ => ?_
  split
  · exact .done
  · next fault hFault => exact .throw (hP _ (finish_kind hFault))

/-! Members. -/

omit hb in
theorem storeInitial_passes {ctx : TypingContext} (hSound : ctx.Sound P) (name : String) (type : JavaType) {init : Expr}
    (hInit : init.IsTight) (e : EmitState) :
    Passes (Emit.discipline (.ofSafe hSound.toSafe)) e (Emit.storeInitial ctx name type init) :=
  .onlyIf (fun _ => .emit _) fun _ _ => .andThen ((hSound.compile hInit).valueAs type _) fun _ _ _ =>
    .andThen (.pool _) fun _ _ _ => .appendField ..

omit hb in
theorem superConstructor_passes {ctx : TypingContext} {C : Conduct ctx} (e : EmitState) :
    Passes (Emit.discipline C) e (Emit.superConstructor ctx) :=
  .liftThen (ctx.superName_faults C.lenient) fun _ _ => .liftThen (ctx.view.lookupMethod_faults C.lenient ..)
    fun _ hSelected => .andThen (.emit _) fun _ _ _ => .invoke _ _ _ fun _ =>
      (Viewpoint.Selects.reachable ⟨_, _, _, hSelected⟩).callable

omit hb in
theorem emitMethod_passes {ctx : TypingContext} (hSound : ctx.Sound P) (name : String) {body : List Stmt}
    (hBody : Stmt.AreTight body) (appendReturn : Bool) (e : EmitState) :
    Passes (Emit.discipline (.ofSafe hSound.toSafe)) e (emitMethod ctx name body appendReturn) :=
  .onlyIf (fun _ => superConstructor_passes _) fun _ _ =>
    .andThen (compileBlock_safe hSound hBody _) fun _ _ _ => .ite
      (fun _ => .onlyIf (fun _ => .mild nofun) fun _ _ => .ite (fun _ => .emit _) fun _ => .done)
      fun _ => .done

theorem compileField_obeys {decl : FieldDecl} (hInit : Expr.IsTightIfAny decl.init) :
    Passes (discipline b.Tolerates) s₀ (compileField decl) := by
  refine .bind .get fun s t hs ⟨hSame, hOrderly⟩ => ?_
  subst hSame
  refine .andThen (lift_obeys (s.view.resolveType_faults b.lenient _)) fun type _ _ => ?_
  cases hSome : decl.init with
  | none => exact .done
  | some init =>
    have hTight : init.IsTight := by simpa [hSome] using hInit
    have hSound := hOrderly.sound (hs.trans hb) (rfl : s.view.table = s.table) decl.modifiers.forField.isStatic .void
      s.locals.types
    refine .bind (checked_obeys hTight (TypingContext.checkInitial_tight hSound.toFair hTight type))
      fun init _ _ hTight => ?_
    dsimp only
    split
    · exact .done
    · exact .andThen (emitBody_obeys _ (storeInitial_passes hSound decl.name type hTight))
        fun _ _ _ => .done

omit hb in
theorem placeParams_obeys (params : List (Variable × JavaType)) (slot : UInt16) :
    Passes (discipline P) s₀ (placeParams slot params) := by
  induction params generalizing s₀ slot with
  | nil => exact .done
  | cons param rest ih => exact .andThen (.modify fun _ _ hOrderly => ⟨{ hOrderly with }, rfl⟩) fun _ _ _ => ih _

theorem compileBody_obeys (decl : MethodDecl) {body : List Stmt} (hBody : Stmt.AreTight body) (self : MethodModel)
    (params : List JavaType) (result : JavaType) :
    Passes (discipline b.Tolerates) s₀ (compileBody decl body self params result) := by
  refine .andThen (placeParams_obeys ..) fun locals r hr => .bind .get fun s t hs ⟨hSame, hOrderly⟩ => ?_
  subst hSame
  have hView : ({ s.view with inProgress := some self } : Viewpoint).table = s.table := rfl
  have hSound := hOrderly.sound ((hs.trans hr).trans hb) hView self.isStatic result s.locals.types
  exact .bind (checked_obeys hBody (TypingContext.checkBlock_tight hSound.toFair hBody)) fun body _ _ hBody =>
    emitBody_obeys _ (emitMethod_passes hSound decl.name hBody _)

omit hb in
theorem mapM_obeys {xs : List α} {f : α → SessionM β} (hf : ∀ a ∈ xs, ∀ s, Passes (discipline P) s (f a)) :
    Passes (discipline P) s₀ (xs.mapM f) := by
  induction xs generalizing s₀ with
  | nil => exact .done
  | cons a xs ih =>
    rw [List.mapM_cons]
    exact .andThen (hf a (by simp) _) fun _ _ _ => .andThen (ih fun c hc => hf c (by simp [hc])) fun _ _ _ => .done

theorem compileMethod_obeys {decl : MethodDecl} (hBody : ∀ body ∈ decl.body, Stmt.AreTight body) :
    Passes (discipline b.Tolerates) s₀ (compileMethod decl) := by
  have hResolve (v : Viewpoint) (t : WrittenType) (s : Session) :
      Passes (discipline b.Tolerates) s (liftM (v.resolveType t) : SessionM JavaType) :=
    lift_obeys (v.resolveType_faults b.lenient t)
  refine .bind .get fun u r hr _ => .andThen (hResolve ..) fun result s hs => ?_
  refine .andThen (mapM_obeys fun _ _ _ => hResolve ..) fun params t ht =>
    .andThen (mapM_obeys fun _ _ _ => hResolve ..) fun exceptions v hv => ?_
  have hb := (((hv.trans ht).trans hs).trans hr).trans hb
  dsimp only
  split
  · exact .done
  · exact mild b.lenient nofun
  · exact mild b.lenient nofun
  · next _ _ body hSome _ => exact .andThen (.map (compileBody_obeys hb decl (hBody body hSome) ..)) fun _ _ _ => .done

theorem compileMember_obeys (source : String) : Passes (discipline b.Tolerates) s₀ (compileMember source) := by
  refine .bind (read_obeys b.lenient readMember_tight source) fun member s hs hMember => ?_
  cases member with
  | field decl => exact .map (compileField_obeys (hs.trans hb) hMember)
  | method decl => exact .map (compileMethod_obeys (hs.trans hb) hMember)

end Texts

/-! What the surroundings record. -/

/-- Steps that keep sessions orderly. -/
def keeping : Discipline CompileError Session where
  sound := Orderly
  le _ _ := True
  allowed _ := True
  refl _ := trivial
  trans _ _ := trivial

theorem keeps {x : SessionM α} {Q : α → Session → Prop} (hx : ∀ s, Obeys (discipline s.bindings.Tolerates) s Q x) :
    Obeys keeping s₀ Q x where
  ok s a t _ hOrderly hRun :=
    have hNext := (hx s).ok s a t rfl hOrderly hRun
    ⟨hNext.1, trivial, hNext.2.2⟩
  error s e t _ hOrderly hRun := ⟨((hx s).error s e t rfl hOrderly hRun).1, trivial, trivial⟩

theorem recordVariable_orderly (type : JavaType) (name : String) : Passes keeping s₀ (recordVariable type name) := by
  refine .bind .get fun s _ _ _ => .andThen (keeps fun s' => of_run fun r hr => ?_) fun _ _ _ =>
    .andThen (.modify fun _ _ hOrderly => ⟨{ hOrderly with scope := hOrderly.scope.declare _ }, trivial⟩)
      fun _ _ _ => .done
  cases hRun : Emit.reserve (.variable s.locals.count) type r.emitState with
  | ok slot e =>
    obtain ⟨-, -, rfl⟩ := Emit.reserve_ok hRun
    exact .inl ⟨slot, _, emit_of_ok hRun, { hr with code := hr.code }, rfl⟩
  | error fault e =>
    obtain ⟨rfl, hMild⟩ := Emit.reserve_error hRun
    exact .inr ⟨fault, r, emit_of_error hRun, hr, rfl, s'.bindings.lenient fault hMild⟩

theorem recordResult_orderly {type : JavaType} (hType : type.isNull = false) (withVariable : Bool) :
    Passes keeping s₀ (recordResult type withVariable) := by
  have hRecorded (s : Session) (hOrderly : s.Orderly) :
      Orderly { s with bindings := { s.bindings with result := some type } } := by
    refine { hOrderly with types := fun t ht => ?_ }
    rw [Bindings.mem_types] at ht
    rcases ht with hType' | hResult | hParam
    · exact hOrderly.types t (Bindings.mem_types.2 (.inl hType'))
    · cases hResult
      exact hType
    · exact hOrderly.types t (Bindings.mem_types.2 (.inr (.inr hParam)))
  exact .andThen (.modify fun s _ hOrderly => ⟨hRecorded s hOrderly, trivial⟩) fun _ _ _ =>
    .ite (fun _ => .map (recordVariable_orderly ..)) fun _ => .done

theorem recordParams_orderly {types : List JavaType} (hTypes : ∀ t ∈ types, t.isNull = false) (isStatic : Bool) :
    Passes keeping s₀ (recordParams types isStatic) := by
  refine .andThen (.modify fun _ _ hOrderly => ⟨{ hOrderly with }, trivial⟩) fun _ _ _ =>
    .onlyIf
      (fun _ => .modify fun s _ hOrderly =>
        ⟨{ hOrderly with scope := hOrderly.scope.declare _, code := hOrderly.code }, trivial⟩)
      fun _ _ => .bind .get fun s _ _ ⟨hSame, hOrderly⟩ => ?_
  subst hSame
  have hScope := declareParams_named types 1 (if isStatic then 0 else 1) hOrderly.scope s.locals
  refine .andThen (.set fun _ _ => ⟨{ hOrderly with scope := hScope }, trivial⟩) fun _ _ _ => ?_
  split
  · exact .throw trivial
  · refine .andThen (.set fun _ _ =>
      ⟨{ hOrderly with scope := hScope, code := hOrderly.code, types := fun t ht => ?_ }, trivial⟩) fun _ _ _ => .done
    rw [Bindings.mem_types] at ht
    rcases ht with hType | hResult | ⟨params, hParams, ht⟩
    · exact hOrderly.types t (Bindings.mem_types.2 (.inl hType))
    · exact hOrderly.types t (Bindings.mem_types.2 (.inr (.inl hResult)))
    · cases hParams
      exact hTypes t ht

theorem recordSignature_orderly (descriptor : String) (isStatic : Bool) :
    Passes keeping s₀ (recordSignature descriptor isStatic) := by
  unfold recordSignature
  cases hRead : MethodType.ofDescriptor? descriptor with
  | none => exact .throw trivial
  | some signature =>
    obtain ⟨hParams, hResult⟩ := MethodType.not_isNull_of_ofDescriptor? hRead
    exact .andThen (recordParams_orderly hParams isStatic) fun _ _ _ =>
      .andThen (recordResult_orderly hResult _) fun _ _ _ => .done

theorem recordType_orderly {type : JavaType} (hType : type.isNull = false) : Passes keeping s₀ (recordType type) := by
  refine .modify fun s _ hOrderly => ⟨{ hOrderly with types := fun t ht => ?_ }, trivial⟩
  rw [Bindings.mem_types] at ht
  rcases ht with hType' | hOther
  · cases hType'
    exact hType
  · exact hOrderly.types t (Bindings.mem_types.2 (.inr hOther))

theorem recordProceed_orderly (target : Option String) (method : String) :
    Passes keeping s₀ (recordProceed target method) := by
  have hRecord {target : Option Expr} (hTarget : ∀ e ∈ target, e.IsTight) (s : Session) : Passes keeping s (modify
      fun s => { s with bindings := { s.bindings with proceed := some ⟨target, method⟩ } } : SessionM Unit) := by
    refine .modify fun s _ hOrderly => ⟨{ hOrderly with proceed := fun call hCall => ?_ }, trivial⟩
    cases hCall
    exact hTarget
  cases target with
  | none =>
    have hNone : ∀ e ∈ (none : Option Expr), e.IsTight := nofun
    exact hRecord hNone _
  | some source =>
    have hRead (s : Session) :
        Obeys (discipline s.bindings.Tolerates) s (fun e _ => e.IsTight) (read readExpression source) :=
      read_obeys s.bindings.lenient readExpression_tight source
    refine .bind (M := fun target _ => ∀ e ∈ target, e.IsTight) (.map ((keeps hRead).mono fun e _ _ he => ?_))
      fun target s _ hTarget => hRecord hTarget s
    intro _ hSame
    cases hSame
    exact he

end Session

/-! Runs of a session. -/

/-- All that a session can be asked for. -/
inductive SessionCall where
  | statements (source : String)
  | expression (source : String)
  | member (source : String)
  | finish
  | params (types : List JavaType) (isStatic : Bool)
  | signature (descriptor : String) (isStatic : Bool)
  | result (type : JavaType) (withVariable : Bool)
  | type (type : JavaType)
  | proceed (target : Option String) (method : String)
  | counter (name : String) (field : CounterField)
  | variable (type : JavaType) (name : String)
  | locals (count : UInt16)
deriving Repr

namespace SessionCall

def run : SessionCall → SessionM Unit
  | .statements source => Session.compileStatements source
  | .expression source => (fun _ => ()) <$> Session.compileExpression source
  | .member source => (fun _ => ()) <$> Session.compileMember source
  | .finish => (fun _ => ()) <$> Session.finishCode
  | .params types isStatic => (fun _ => ()) <$> Session.recordParams types isStatic
  | .signature descriptor isStatic => (fun _ => ()) <$> Session.recordSignature descriptor isStatic
  | .result t withVariable => (fun _ => ()) <$> Session.recordResult t withVariable
  | .type t => Session.recordType t
  | .proceed target method => Session.recordProceed target method
  | .counter name field => Session.recordCounter name field
  | .variable t name => (fun _ => ()) <$> Session.recordVariable t name
  | .locals count => Session.ensureLocals count

/-- The types that a call gives to be recorded. -/
def recorded : SessionCall → List JavaType
  | .params types _ => types
  | .result t _ | .type t => [t]
  | _ => []

open Session in
theorem run_orderly {call : SessionCall} (h : ∀ t ∈ call.recorded, t.isNull = false) (s₀ : Session) :
    Passes keeping s₀ call.run := by
  cases call with
  | statements source => exact keeps fun s => compileStatements_obeys rfl source
  | expression source => exact .map (keeps fun s => compileExpression_obeys rfl source)
  | member source => exact .map (keeps fun s => compileMember_obeys rfl source)
  | finish => exact .map (keeps fun s => finishCode_obeys s.bindings.lenient)
  | params types isStatic => exact .map (recordParams_orderly h isStatic)
  | signature descriptor isStatic => exact .map (recordSignature_orderly descriptor isStatic)
  | result t withVariable => exact .map (recordResult_orderly (h t (by simp [recorded])) withVariable)
  | type t => exact recordType_orderly (h t (by simp [recorded]))
  | proceed target method => exact recordProceed_orderly target method
  | counter name field => exact .modify fun _ _ hOrderly => ⟨{ hOrderly with }, trivial⟩
  | «variable» t name => exact .map (recordVariable_orderly t name)
  | locals count => exact .modify fun _ _ hOrderly => ⟨{ hOrderly with }, trivial⟩

end SessionCall

namespace Session

/-- The session after a call, be it refused or not. -/
def afterCall (s : Session) (call : SessionCall) : Session :=
  match call.run s with
  | .ok _ t | .error _ t => t

/-- The session after calls one after another. -/
def afterCalls (s : Session) (calls : List SessionCall) : Session := calls.foldl afterCall s

theorem Orderly.afterCall {s : Session} (hs : s.Orderly) {call : SessionCall}
    (h : ∀ t ∈ call.recorded, t.isNull = false) : (s.afterCall call).Orderly := by
  have hCall := SessionCall.run_orderly h s
  unfold Session.afterCall
  split
  · next hRun => exact (hCall.ok s _ _ trivial hs hRun).1
  · next hRun => exact (hCall.error s _ _ trivial hs hRun).1

theorem Orderly.afterCalls {s : Session} (hs : s.Orderly) {calls : List SessionCall}
    (h : ∀ call ∈ calls, ∀ t ∈ call.recorded, t.isNull = false) : (s.afterCalls calls).Orderly := by
  induction calls generalizing s with
  | nil => exact hs
  | cons call calls ih => exact ih (hs.afterCall (h call (by simp))) fun other hOther => h other (by simp [hOther])

theorem orderly_start {table : ClassTable} (hTable : table.isWellFormed) (thisClass : String) (options : Options)
    (pool : ConstantPool) : (start table thisClass options pool).Orderly where
  table := hTable
  scope := by simp [start, Scope.Named, Scope.empty]
  code := rfl
  accessors := nofun
  types := nofun
  proceed := nofun

/-- A class with a field and a method. -/
def smallTable : ClassTable := ⟨[⟨"A", ⟨1⟩, none, [], none, [⟨"f", "I", ⟨9⟩, none⟩], [⟨"g", "(I)[LA;", ⟨9⟩⟩]⟩]⟩

end Session

end JavaFragment
