import JavaFragment.Proofs.Reachability
import JavaFragment.Session.Member
/-!
The bodies of methods. Their code is emitted into a buffer of their own, which starts empty. Control that
starts at its beginning never runs past its last instruction.
-/
namespace JavaFragment

open Emit

namespace Session

variable {source : String} {z : EmitState}

/-- Emission of a body into a buffer of its own, up to the state in which it ends. -/
def emitted (locals : UInt16) (x : Emit Unit) : SessionM EmitState := fun s =>
  match x ⟨.withLocals locals, s.pool, s.locals.slots, s.accessors, #[]⟩ with
  | .ok () z => .ok z s
  | .error fault _ => .error fault s

/-- The surroundings of the body of a method, which may call the method itself. -/
def bodyContext (s : Session) (self : MethodModel) (result : JavaType) : TypingContext :=
  ⟨{ s.view with inProgress := some self }, s.bindings, self.isStatic, result, s.locals.types⟩

/-- A method as its own body sees it. -/
def selfModel (decl : MethodDecl) (params : List JavaType) (result : JavaType) : MethodModel :=
  ⟨decl.name, MethodType.descriptor ⟨params, result⟩, decl.modifiers.forMethod⟩

/-- The body of a method as it is emitted, if a member is one and has a body. -/
def methodBody (source : String) : SessionM (Option EmitState) := do
  match ← read readMember source with
  | .field _ => return none
  | .method decl =>
    let view := (← get).view
    let result ← view.resolveType decl.result
    let params ← decl.params.mapM fun p => (view.resolveType p.written : SessionM JavaType)
    match decl.body with
    | none => return none
    | some body =>
      let self := selfModel decl params result
      let locals ← placeParams (if self.isStatic then 0 else 1) (decl.params.zip params)
      let s ← get
      let ctx := s.bodyContext self result
      let body ← checked ctx.checkBlock body
      some <$> emitted locals (emitMethod ctx decl.name body s.options.appendReturn)

variable {α : Type} {s t : Session}

theorem lift_ok {x : Except CompileError α} {a : α} : (liftM x : SessionM α) s = .ok a t ↔ x = .ok a ∧ s = t := by
  show ofExcept x s = _ ↔ _
  cases x with
  | ok b =>
    show EStateM.Result.ok b s = _ ↔ _
    simp
  | error e => exact ⟨fun h => (by cases h), fun h => (by cases h.1)⟩

theorem mapM_lift_ok {β : Type} {f : α → Except CompileError β} {xs : List α} {ys : List β}
    (h : (xs.mapM fun a => (liftM (f a) : SessionM β)) s = .ok ys t) : s = t ∧ List.Forall₂ (f · = .ok ·) xs ys := by
  induction xs generalizing s ys with
  | nil =>
    obtain ⟨rfl, rfl⟩ := pure_ok.1 h
    exact ⟨rfl, .nil⟩
  | cons x xs ih =>
    rw [List.mapM_cons] at h
    obtain ⟨y, _, hLift, h⟩ := bind_ok.1 h
    obtain ⟨hFirst, rfl⟩ := lift_ok.1 hLift
    obtain ⟨ys, r, hRest, h⟩ := bind_ok.1 h
    obtain ⟨rfl, rfl⟩ := pure_ok.1 h
    exact (ih hRest).imp_right (.cons hFirst)

/-- A finished body is what was emitted for it. -/
theorem emitBody_ok {locals : UInt16} {x : Emit Unit} {code : MethodCode} (h : emitBody locals x s = .ok code t) :
    ∃ z, emitted locals x s = .ok z s ∧ z.code.finish = .ok code ∧ t.pool = z.pool := by
  unfold emitBody emitInto at h
  unfold emitted
  cases hRun : x ⟨.withLocals locals, s.pool, s.locals.slots, s.accessors, #[]⟩ with
  | ok u z =>
    simp only [EStateM.run, hRun] at h
    cases hFinish : z.code.finish with
    | ok body =>
      rw [hFinish] at h
      cases h
      exact ⟨z, rfl, hFinish, rfl⟩
    | error fault =>
      rw [hFinish] at h
      cases h
  | error fault z =>
    simp only [EStateM.run, hRun] at h
    cases h

/-- The code of an accepted method is the body that was emitted for it, over the pool that is left. -/
theorem methodBody_of_compileMember {m : CompiledMethod} {code : MethodCode}
    (h : compileMember source s = .ok (.method m) t) (hCode : m.code = some code) :
    ∃ z r, methodBody source s = .ok (some z) r ∧ z.code.finish = .ok code ∧ t.pool = z.pool := by
  obtain ⟨member, s₁, hRead, h⟩ := bind_ok.1 h
  cases member with
  | field decl =>
    obtain ⟨_, -, hNo⟩ := map_ok.1 h
    cases hNo
  | method decl =>
    obtain ⟨m', hMethod, hSame⟩ := map_ok.1 h
    cases hSame
    obtain ⟨_, _, hGet, hMethod⟩ := bind_ok.1 hMethod
    obtain ⟨rfl, rfl⟩ := get_ok.1 hGet
    obtain ⟨result, _, hResult, hMethod⟩ := bind_ok.1 hMethod
    obtain ⟨-, rfl⟩ := lift_ok.1 hResult
    obtain ⟨params, _, hParams, hMethod⟩ := bind_ok.1 hMethod
    obtain ⟨rfl, -⟩ := mapM_lift_ok hParams
    obtain ⟨exceptions, _, hExceptions, hMethod⟩ := bind_ok.1 hMethod
    obtain ⟨rfl, -⟩ := mapM_lift_ok hExceptions
    dsimp only at hMethod
    generalize (decl.modifiers.forMethod.isAbstract ||
      decl.modifiers.forMethod.contains AccessFlags.nativeFlag) = bodiless at hMethod
    cases hBody : decl.body with
    | none =>
      rw [hBody] at hMethod
      cases bodiless with
      | true =>
        obtain ⟨_, _, hNone, hMethod⟩ := bind_ok.1 hMethod
        obtain ⟨rfl, rfl⟩ := pure_ok.1 hNone
        obtain ⟨rfl, -⟩ := pure_ok.1 hMethod
        cases hCode
      | false =>
        obtain ⟨_, _, hThrow, -⟩ := bind_ok.1 hMethod
        exact (not_throw_ok hThrow).elim
    | some body =>
      rw [hBody] at hMethod
      cases bodiless with
      | true =>
        obtain ⟨_, _, hThrow, -⟩ := bind_ok.1 hMethod
        exact (not_throw_ok hThrow).elim
      | false =>
        obtain ⟨_, s₂, hCompiled, hMethod⟩ := bind_ok.1 hMethod
        obtain ⟨code', hBodied, rfl⟩ := map_ok.1 hCompiled
        obtain ⟨rfl, rfl⟩ := pure_ok.1 hMethod
        cases hCode
        obtain ⟨locals, s₃, hPlaced, hBodied⟩ := bind_ok.1 hBodied
        obtain ⟨_, _, hGet', hBodied⟩ := bind_ok.1 hBodied
        obtain ⟨rfl, rfl⟩ := get_ok.1 hGet'
        obtain ⟨tree, s₄, hChecked, hBodied⟩ := bind_ok.1 hBodied
        obtain ⟨z, hEmitted, hFinish, hPool⟩ := emitBody_ok hBodied
        refine ⟨z, s₄, ?_, hFinish, hPool⟩
        refine bind_ok.2 ⟨_, s₁, hRead, bind_ok.2 ⟨s₁, s₁, get_ok.2 ⟨rfl, rfl⟩,
          bind_ok.2 ⟨result, s₁, hResult, bind_ok.2 ⟨params, s₁, hParams, ?_⟩⟩⟩⟩
        rw [hBody]
        exact bind_ok.2 ⟨locals, _, hPlaced, bind_ok.2 ⟨_, _, get_ok.2 ⟨rfl, rfl⟩,
          bind_ok.2 ⟨tree, s₄, hChecked, map_ok.2 ⟨z, hEmitted, rfl⟩⟩⟩⟩

/-- Checking a tree changes no session. -/
theorem checked_ok {β : Type} {check : α → Checked α β} {tree result : α}
    (h : checked check tree s = .ok result t) : s = t ∧
      (if s.options.typeCheck then (∃ b, (check tree).outcome = .ok b) ∧ result = (check tree).tree
        else result = tree) := by
  obtain ⟨_, _, hGet, h⟩ := bind_ok.1 h
  obtain ⟨rfl, rfl⟩ := get_ok.1 hGet
  split at h
  · next hCheck =>
    obtain ⟨b, _, hLift, h⟩ := bind_ok.1 h
    obtain ⟨hOutcome, rfl⟩ := lift_ok.1 hLift
    obtain ⟨rfl, rfl⟩ := pure_ok.1 h
    exact ⟨rfl, by rw [if_pos hCheck]; exact ⟨⟨b, hOutcome⟩, rfl⟩⟩
  · next hCheck =>
    obtain ⟨rfl, rfl⟩ := pure_ok.1 h
    exact ⟨rfl, by rw [if_neg hCheck]⟩

theorem read_options {reader : Reader α} {a : α} (h : read reader source s = .ok a t) : t.options = s.options := by
  obtain ⟨_, _, hGet, h⟩ := bind_ok.1 h
  obtain ⟨rfl, rfl⟩ := get_ok.1 hGet
  obtain ⟨_, r, hSet, h⟩ := bind_ok.1 h
  cases hSet
  cases hTree : (readSource reader source s.scope s.locals.count).result with
  | ok tree =>
    rw [hTree] at h
    rw [← (pure_ok.1 h).2]
  | error e =>
    rw [hTree] at h
    exact (not_throw_ok h).elim

theorem placeParams_options {slot next : UInt16} {params : List (Variable × JavaType)}
    (h : placeParams slot params s = .ok next t) : t.options = s.options := by
  induction params generalizing slot s with
  | nil => rw [(pure_ok.1 h).2]
  | cons param rest ih =>
    obtain ⟨_, r, hModify, h⟩ := bind_ok.1 h
    rw [ih h, ← modify_ok.1 hModify]

/-- The steps by which the body of a method is emitted. -/
theorem methodBody_ok (h : methodBody source s = .ok (some z) t) :
    ∃ decl s₁ result params body locals tree, read readMember source s = .ok (.method decl) s₁ ∧
      s₁.view.resolveType decl.result = .ok result ∧
      (decl.params.mapM fun p => (liftM (s₁.view.resolveType p.written) : SessionM JavaType)) s₁ =
        .ok params s₁ ∧ decl.body = some body ∧
      placeParams (if (selfModel decl params result).isStatic then 0 else 1) (decl.params.zip params) s₁ =
        .ok locals t ∧
      checked (t.bodyContext (selfModel decl params result) result).checkBlock body t = .ok tree t ∧
      emitMethod (t.bodyContext (selfModel decl params result) result) decl.name tree
        t.options.appendReturn ⟨.withLocals locals, t.pool, t.locals.slots, t.accessors, #[]⟩ = .ok () z := by
  obtain ⟨member, s₁, hRead, h⟩ := bind_ok.1 h
  cases member with
  | field decl =>
    obtain ⟨hNo, -⟩ := pure_ok.1 h
    cases hNo
  | method decl =>
    obtain ⟨_, _, hGet, h⟩ := bind_ok.1 h
    obtain ⟨rfl, rfl⟩ := get_ok.1 hGet
    obtain ⟨result, _, hLift, h⟩ := bind_ok.1 h
    obtain ⟨hResult, rfl⟩ := lift_ok.1 hLift
    obtain ⟨params, _, hParams, h⟩ := bind_ok.1 h
    obtain ⟨rfl, -⟩ := mapM_lift_ok hParams
    cases hBody : decl.body with
    | none =>
      rw [hBody] at h
      obtain ⟨hNo, -⟩ := pure_ok.1 h
      cases hNo
    | some body =>
      rw [hBody] at h
      obtain ⟨locals, s₂, hPlaced, h⟩ := bind_ok.1 h
      obtain ⟨_, _, hGet, h⟩ := bind_ok.1 h
      obtain ⟨rfl, rfl⟩ := get_ok.1 hGet
      obtain ⟨tree, _, hChecked, h⟩ := bind_ok.1 h
      obtain ⟨rfl, -⟩ := checked_ok hChecked
      obtain ⟨_, hEmitted, hSame⟩ := map_ok.1 h
      cases hSame
      unfold emitted at hEmitted
      split at hEmitted
      · next hRun =>
        cases hEmitted
        exact ⟨decl, s₁, result, params, body, locals, tree, hRead, hResult, hParams, hBody, hPlaced, hChecked, hRun⟩
      · cases hEmitted

theorem methodBody_options (h : methodBody source s = .ok (some z) t) : t.options = s.options := by
  obtain ⟨decl, s₁, result, params, body, locals, tree, hRead, -, -, -, hPlaced, -, -⟩ := methodBody_ok h
  rw [placeParams_options hPlaced, read_options hRead]

/-- What the body of a method is made of. -/
theorem emitMethod_ok {ctx : TypingContext} {name : String} {body : List Stmt} {appendReturn : Bool}
    {r : EmitState} (h : emitMethod ctx name body appendReturn r = .ok () z) :
    ∃ r₁ o r₂, (if name = constructorName && !callsConstructor body then superConstructor ctx r = .ok () r₁
        else r = r₁) ∧
      compileBlock ctx body .top r₁ = .ok o r₂ ∧
      (if o.completes then ctx.result.isVoid ∧
          (if appendReturn then Emit.emit (.returning ctx.result) r₂ = .ok () z else r₂ = z)
        else r₂ = z) := by
  have hStart : ∃ r₁, (if name = constructorName && !callsConstructor body then
      superConstructor ctx r = .ok () r₁ else r = r₁) ∧ (do
        let o ← compileBlock ctx body .top
        if o.completes then
          if !ctx.result.isVoid then throw (.type (.missingReturn name))
          if appendReturn then Emit.emit (.returning ctx.result) : Emit Unit) r₁ = .ok () z := by
    unfold emitMethod at h
    split at h
    · next hCalls =>
      obtain ⟨_, r₁, hSuper, h⟩ := bind_ok.1 h
      exact ⟨r₁, by rw [if_pos hCalls]; exact hSuper, h⟩
    · next hCalls => exact ⟨r, by rw [if_neg hCalls], h⟩
  obtain ⟨r₁, hSuper, h⟩ := hStart
  obtain ⟨o, r₂, hBlock, h⟩ := bind_ok.1 h
  refine ⟨r₁, o, r₂, hSuper, hBlock, ?_⟩
  split at h
  · next hCompletes =>
    rw [if_pos hCompletes]
    dsimp only at h
    by_cases hVoid : ctx.result.isVoid = true
    · rw [if_neg (by simp [hVoid])] at h
      refine ⟨hVoid, ?_⟩
      split at h
      · next hAppend =>
        rw [if_pos hAppend]
        exact h
      · next hAppend =>
        rw [if_neg hAppend]
        exact (pure_ok.1 h).2
    · rw [if_pos (by simp [hVoid])] at h
      obtain ⟨_, _, hThrow, -⟩ := bind_ok.1 h
      exact (not_throw_ok hThrow).elim
  · next hCompletes =>
    rw [if_neg hCompletes]
    exact (pure_ok.1 h).2

end Session

open Paths (Stretch Moves)

theorem superConstructor_moves {whole : Prop} (ctx : TypingContext) : Moves whole (superConstructor ctx) :=
  .ofGrowing (.bind (.lift _) fun _ => .bind (.lift _) fun _ => .bind .loadThis fun _ =>
    Law.Holds.invoke (L := growing none) _ _ _ False.elim)

/-- The body of a method can be passed only if no return is put at its end. -/
theorem emitMethod_stretch {whole : Prop} {ctx : TypingContext} {name : String} {body : List Stmt}
    {appendReturn : Bool} {r z : EmitState} (h : Session.emitMethod ctx name body appendReturn r = .ok () z) :
    Stretch whole r z (fun _ => False) (fun _ => False) (appendReturn = false) := by
  obtain ⟨r₁, o, r₂, hStart, hBlock, hEnd⟩ := Session.emitMethod_ok h
  have hCalled : Stretch whole r r₁ (fun _ => False) (fun _ => False) True := by
    split at hStart
    · exact superConstructor_moves ctx r () r₁ hStart
    · rw [hStart]
      exact .refl r₁
  have hPending : ∀ k, ¬ pendingAt o.pending k := by
    rw [compileBlock_pending_top hBlock]
    simp [pendingAt]
  have hRan : Stretch whole r₁ r₂ (fun _ => False) (fun _ => False) (o.completes = true) :=
    (compileBlock_flows body .top r₁ o r₂ hBlock).stretch.mono (fun _ hNo => False.elim hNo) hPending id
  have hReturned : Stretch whole r₂ z (fun _ => False) (fun _ => False)
      (appendReturn = false ∨ o.completes = false) := by
    split at hEnd
    · obtain ⟨hVoid, hEnd⟩ := hEnd
      split at hEnd
      · have hReturn : Instruction.returning ctx.result = .voidReturn := by
          unfold Instruction.returning
          rw [if_pos hVoid]
        rw [hReturn] at hEnd
        exact (Stretch.emit rfl hEnd).mono (fun _ => id) (fun _ => id) (by rintro ⟨⟩)
      · next hAppend =>
        rw [hEnd]
        exact (Stretch.refl z).mono (fun _ => id) (fun _ => id) fun _ => .inl (by simpa using hAppend)
    · next hStops =>
      rw [hEnd]
      exact (Stretch.refl z).mono (fun _ => id) (fun _ => id) fun _ => .inr (by simpa using hStops)
  refine ((hCalled.append hRan).append hReturned).mono (fun _ => False.elim) (by simp) ?_
  rintro ⟨⟨-, hYes⟩, hAppend | hNo⟩
  · exact hAppend
  · rw [hYes] at hNo
    cases hNo

end JavaFragment
