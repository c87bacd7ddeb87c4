import JavaFragment.Proofs.Passing
/-!
Where control goes in the code of statements. The code of every statement lets control through to its end only if the
statement counts as passed, and what leaves it is pending. Every exit that is pending can be taken up by what stands
around the statement: a `break` by a loop or a switch, a `continue` by a loop, and a `return` by the last part of a
`try`.
-/
namespace JavaFragment

open Emit

variable {o : Outcome} {taken : List Exit} {k : Nat}

theorem Outcome.mem_sites {exit : Exit} {site : Nat} :
    site ∈ o.sites exit ↔ ∃ p ∈ o.pending, p.exit = exit ∧ p.site = site := by
  simp [sites, and_assoc]

theorem Outcome.mem_without {p : PendingExit} : p ∈ o.without taken ↔ p ∈ o.pending ∧ p.exit ∉ taken := by
  simp [without]

/-- Whether an exit can be taken up by the surroundings. -/
def Flow.Takes (flow : Flow) : Exit → Prop
  | .breaking => flow.breakDepth.isSome
  | .continuing => flow.continueDepth.isSome
  | .returning => ∃ frame, .lastPart frame ∈ flow.hooks

/-- Whether all that is pending can be taken up. -/
def Flow.TakesAll (flow : Flow) (pending : List PendingExit) : Prop := ∀ p ∈ pending, flow.Takes p.exit

namespace Flow.TakesAll

variable {flow inner : Flow} {o : Outcome} {pending : List PendingExit}

theorem nil : flow.TakesAll [] := nofun

theorem singleton {exit : Exit} {site : Nat} (h : flow.Takes exit) : flow.TakesAll [⟨exit, site⟩] :=
  fun _ hp => List.mem_singleton.1 hp ▸ h

theorem append {first second : List PendingExit} (h : flow.TakesAll first) (h' : flow.TakesAll second) :
    flow.TakesAll (first ++ second) := fun p hp => (List.mem_append.1 hp).elim (h p) (h' p)

/-- What is pending beyond what is taken up. -/
theorem without {taken : List Exit} (h : inner.TakesAll o.pending)
    (hTaken : ∀ exit ∉ taken, inner.Takes exit → flow.Takes exit) : flow.TakesAll (o.without taken) := by
  intro p hp
  obtain ⟨hPending, hExit⟩ := Outcome.mem_without.1 hp
  exact hTaken p.exit hExit (h p hPending)

theorem ofLoop (h : flow.intoLoop.TakesAll o.pending) : flow.TakesAll (o.without [.breaking, .continuing]) :=
  h.without fun exit hExit => by cases exit <;> simp_all [Takes, intoLoop, intoSwitch]

theorem ofSwitch (h : flow.intoSwitch.TakesAll o.pending) : flow.TakesAll (o.without [.breaking]) :=
  h.without fun exit hExit => by cases exit <;> simp_all [Takes, intoSwitch]

theorem ofMonitor {slot : UInt16} (h : (flow.within (.monitor slot)).TakesAll pending) : flow.TakesAll pending := by
  intro p hp
  have hTaken := h p hp
  cases hKind : p.exit <;> simpa [hKind, Takes, within] using hTaken

end Flow.TakesAll

/-- The sites of pending exits. -/
def pendingAt (pending : List PendingExit) (k : Nat) : Prop := ∃ p ∈ pending, p.site = k

theorem pendingAt_append {first second : List PendingExit} :
    pendingAt (first ++ second) k ↔ pendingAt first k ∨ pendingAt second k := by
  simp [pendingAt, or_and_right, exists_or]

/-- What was pending and is not taken up stays pending. -/
theorem Outcome.pendingAt_without (h : pendingAt o.pending k) (hTaken : ∀ exit ∈ taken, k ∉ o.sites exit) :
    pendingAt (o.without taken) k := by
  obtain ⟨p, hp, rfl⟩ := h
  exact ⟨p, mem_without.2 ⟨hp, fun hExit => hTaken p.exit hExit (mem_sites.2 ⟨p, hp, rfl, rfl⟩)⟩, rfl⟩

theorem Outcome.pendingAt_of_without (h : pendingAt (o.without taken) k) : pendingAt o.pending k := by
  obtain ⟨p, hp, rfl⟩ := h
  exact ⟨p, (mem_without.1 hp).1, rfl⟩

theorem Outcome.pendingAt_of_sites {exit : Exit} (h : k ∈ o.sites exit) : pendingAt o.pending k := by
  obtain ⟨p, hp, -, rfl⟩ := mem_sites.1 h
  exact ⟨p, hp, rfl⟩

/-- A jump on an expression whose truth is known beforehand is taken always or never. -/
theorem compile_jump (ctx : TypingContext) (e : Expr) : ∃ jump, (ctx.compile e).jump = ExprCode.decided ctx e jump := by
  have hValue (value : Emit JavaType) : ∃ jump, (ExprCode.ofValue ctx e value).jump =
      ExprCode.decided ctx e jump := ⟨_, rfl⟩
  cases e with
  | name n =>
    show ∃ jump, (ExprCode.ofName ctx n).jump = _
    unfold ExprCode.ofName
    split <;> exact ⟨_, rfl⟩
  | bool v => exact hValue _
  | _ => exact ⟨_, rfl⟩

namespace Paths

variable {whole : Prop} {ctx : TypingContext} {s t : EmitState}

/-- Code that grows goes on to its end but for its open branches. -/
theorem Stretch.ofAdds {leads opened : Nat → Prop} (h : s.Adds none opened t)
    (hLeads : ∀ k, leads k → s.next ≤ k ∧ k < t.next) : Stretch whole s t leads opened True where
  later := h.later
  sites := hLeads
  flow hs _ := by
    refine ⟨fun k => s.next ≤ k ∧ k ≤ t.next, ⟨Nat.le_refl _, h.next_le⟩, nofun,
      fun _ k hLe hLt => ⟨hLe, Nat.le_of_lt hLt⟩, fun _ => .inr trivial, ?_⟩
    refine { within := fun k => id, goes := ?_, guards := ?_ }
    · intro k hReached hLt
      refine ⟨_, Array.getElem?_eq_getElem hLt, fun _ => ⟨Nat.le_succ_of_le hReached.1, hLt⟩,
        fun hClosed offset hOffset => ?_⟩
      rcases h.steady hs k hReached.1 hLt hClosed with ⟨i, hAt, hPlain, -⟩ | ⟨j, hBefore, hLe, hTargets⟩
      · rw [Array.getElem?_eq_getElem hLt] at hAt
        rw [Option.some.inj hAt, Instruction.offsets_of_isPlain hPlain] at hOffset
        cases hOffset
      · obtain ⟨branch, offset', hAt, hTarget⟩ := hTargets
        rw [Array.getElem?_eq_getElem hLt] at hAt
        rw [Option.some.inj hAt] at hOffset
        rw [List.mem_singleton.1 hOffset]
        exact ⟨j, ⟨Nat.le_trans hReached.1 (Nat.le_of_lt hBefore), hLe⟩, hTarget⟩
    · exact fun row hRow => (not_added_of_handlers h.handlers row hRow).elim

/-- Emission that control passes. -/
def Moves {α : Type} (whole : Prop) (x : Emit α) : Prop :=
  ∀ s a t, x s = .ok a t → Stretch whole s t (fun _ => False) (fun _ => False) True

namespace Moves

variable {α β : Type}

theorem ofGrowing {x : Emit α} (hx : Growing none x) : Moves whole x := fun s a t h => .ofAdds (hx.grows s a t h) nofun

theorem value (e : Expr) : Moves whole (ctx.compile e).value := ofGrowing (compile_grows_untyped ctx e).value

theorem effect (e : Expr) : Moves whole (ctx.compile e).effect := ofGrowing (compile_grows_untyped ctx e).effect

theorem pure (a : α) : Moves whole (pure a : Emit α) := ofGrowing (.pure a)

/-- An instruction that leads nowhere else. -/
theorem emit {i : Instruction} (hPlain : i.offsets = []) : Moves whole (emit i) :=
  fun _ _ _ h => (Stretch.emit hPlain h).mono (fun _ => id) (fun _ => id) fun _ => trivial

theorem load (type : JavaType) (slot : UInt16) : Moves whole (load type slot) :=
  emit (Instruction.offsets_of_isPlain (Instruction.isPlain_of_isInert (isInert_loadSlot type.slotKind slot)))

theorem store (type : JavaType) (slot : UInt16) : Moves whole (store type slot) :=
  emit (Instruction.offsets_of_isPlain (isPlain_storeSlot type.slotKind slot))

theorem resultSlot (frame : Nat) (type : JavaType) : Moves whole (resultSlot frame type) := by
  intro s slot t h
  have hLater := resultSlot_later h
  rcases resultSlot_ok h with ⟨-, rfl⟩ | ⟨-, r, hReserve, rfl⟩
  · exact .refl s
  · obtain ⟨-, -, rfl⟩ := reserve_ok hReserve
    exact .quiet hLater rfl rfl

theorem get : Moves whole (get : Emit EmitState) := by
  intro s a t h
  obtain ⟨-, rfl⟩ := get_ok.1 h
  exact .refl s

theorem bind {x : Emit α} {f : α → Emit β} (hx : Moves whole x) (hf : ∀ a, Moves whole (f a)) :
    Moves whole (x >>= f) := by
  intro s b t h
  obtain ⟨a, r, hFirst, hRest⟩ := bind_ok.1 h
  exact ((hx s a r hFirst).append (hf a r b t hRest)).mono (fun _ => False.elim) (by simp) fun _ => trivial

theorem forM {xs : List α} {f : α → Emit PUnit} (hf : ∀ a ∈ xs, Moves whole (f a)) : Moves whole (xs.forM f) := by
  induction xs with
  | nil => exact .pure ()
  | cons x xs ih => exact .bind (hf x (by simp)) fun _ => ih fun y hy => hf y (by simp [hy])

end Moves

/-- The branches of a test are taken up later. -/
theorem Stretch.test {e : Expr} {wanted : Bool} {sites : List Nat}
    (h : (ctx.compile e).jump wanted s = .ok sites t) : Stretch whole s t (· ∈ sites) (· ∈ sites) True :=
  have hLanding := ((compile_grows_untyped ctx e).jump wanted).grows s sites t h
  .ofAdds hLanding.1 hLanding.2

/-- A test that is known to hold is not passed. -/
theorem Stretch.testAgain {e : Expr} {sites : List Nat} (h : (ctx.compile e).jump true s = .ok sites t) :
    Stretch whole s t (· ∈ sites) (· ∈ sites) (ctx.knownTruth e ≠ some true) := by
  by_cases hTruth : ctx.knownTruth e = some true
  · obtain ⟨jump, hJump⟩ := compile_jump ctx e
    rw [hJump] at h
    simp only [ExprCode.decided, hTruth, if_true] at h
    obtain ⟨site, r, hGoto, hSites⟩ := bind_ok.1 h
    obtain ⟨rfl, rfl⟩ := pure_ok.1 hSites
    exact (Stretch.goto hGoto).mono (fun _ => List.mem_singleton.1) (fun _ => List.mem_singleton.2) False.elim
  · exact (test h).mono (fun _ => id) (fun _ => id) fun _ => hTruth

/-- Control is at the end of code that was emitted only if the outcome counts as passed. What leaves the code is pending
and can be taken up by the surroundings. -/
structure Leaves (whole : Prop) (flow : Flow) (s : EmitState) (o : Outcome) (t : EmitState) : Prop where
  stretch : Stretch whole s t (pendingAt o.pending) (pendingAt o.pending) (o.completes = true)
  taken : flow.TakesAll o.pending

/-! Parts one after another. -/

/-- Emission that follows code which was emitted from a state on. Nothing but where control goes in that code is known
of the state in which the emission starts. -/
def After {α : Type} (whole : Prop) (z : EmitState) (leads opened : Nat → Prop) (ends : Prop) (x : Emit α)
    (Q : α → EmitState → Prop) : Prop :=
  ∀ s a t, Stretch whole z s leads opened ends → x s = .ok a t → Q a t

namespace After

variable {α β : Type} {z : EmitState} {leads opened leads' opened' : Nat → Prop} {ends ends' : Prop} {x : Emit α}
  {f : α → Emit β} {P : α → EmitState → Prop} {Q : β → EmitState → Prop} {s t : EmitState}

theorem weaken (hx : After whole z leads' opened' ends' x P) (hLeads : ∀ k, leads' k → leads k)
    (hOpen : ∀ k, opened k → opened' k) (hEnds : ends → ends') : After whole z leads opened ends x P :=
  fun s a t h => hx s a t (h.mono hLeads hOpen hEnds)

/-- Nothing was emitted before. -/
theorem start (whole : Prop) {a : α} (h : x s = .ok a t)
    (hx : After whole s (fun _ => False) (fun _ => False) True x P) : P a t := hx s a t (.refl s) h

theorem done {a : α} (h : ∀ s, Stretch whole z s leads opened ends → P a s) :
    After whole z leads opened ends (pure a) P := by
  intro s _ t hSoFar hPure
  obtain ⟨rfl, rfl⟩ := pure_ok.1 hPure
  exact h s hSoFar

variable {A : α → Prop} {leadsOf openedOf : α → Nat → Prop} {endsOf : α → Prop} {outcome : α → Outcome} {flow : Flow}

theorem bind
    (hx : After whole z leads opened ends x fun a s => Stretch whole z s (leadsOf a) (openedOf a) (endsOf a) ∧ A a)
    (hf : ∀ a, A a → After whole z (leadsOf a) (openedOf a) (endsOf a) (f a) Q) :
    After whole z leads opened ends (x >>= f) Q := by
  intro s b t hSoFar h
  obtain ⟨a, r, hFirst, hRest⟩ := bind_ok.1 h
  obtain ⟨hUpTo, ha⟩ := hx s a r hSoFar hFirst
  exact hf a ha r b t hUpTo hRest

/-- Nothing need be known of the result of the first part. -/
theorem step (hx : After whole z leads opened ends x fun a s => Stretch whole z s (leadsOf a) (openedOf a) (endsOf a))
    (hf : ∀ a, After whole z (leadsOf a) (openedOf a) (endsOf a) (f a) Q) :
    After whole z leads opened ends (x >>= f) Q :=
  .bind (A := fun _ => True) (fun s a t hSoFar h => ⟨hx s a t hSoFar h, trivial⟩) fun a _ => hf a

/-- A part with branches of its own. -/
theorem next (hx : ∀ s a t, x s = .ok a t → Stretch whole s t (leadsOf a) (openedOf a) (endsOf a))
    (hf : ∀ a, After whole z (fun k => leads k ∨ leadsOf a k) (fun k => opened k ∨ openedOf a k) (ends ∧ endsOf a) (f a)
      Q) : After whole z leads opened ends (x >>= f) Q :=
  .step (fun s a t hSoFar h => hSoFar.append (hx s a t h)) hf

/-- A part that leaves something pending. -/
theorem part (hx : ∀ s a t, x s = .ok a t → Leaves whole flow s (outcome a) t)
    (hf : ∀ a, flow.TakesAll (outcome a).pending → After whole z (fun k => leads k ∨ pendingAt (outcome a).pending k)
      (fun k => opened k ∨ pendingAt (outcome a).pending k) (ends ∧ (outcome a).completes = true) (f a) Q) :
    After whole z leads opened ends (x >>= f) Q :=
  .bind (fun s a t hSoFar h => ⟨hSoFar.append (hx s a t h).stretch, (hx s a t h).taken⟩) hf

/-- The first part. -/
theorem fresh (hx : ∀ s a t, x s = .ok a t → Stretch whole s t (leadsOf a) (openedOf a) (endsOf a))
    (hf : ∀ a, After whole z (leadsOf a) (openedOf a) (endsOf a) (f a) Q) :
    After whole z (fun _ => False) (fun _ => False) True (x >>= f) Q :=
  .next hx fun a => (hf a).weaken (fun _ => .inr) (fun _ hOpen => hOpen.resolve_left id) And.right

theorem freshPart (hx : ∀ s a t, x s = .ok a t → Leaves whole flow s (outcome a) t)
    (hf : ∀ a, flow.TakesAll (outcome a).pending → After whole z (pendingAt (outcome a).pending)
      (pendingAt (outcome a).pending) ((outcome a).completes = true) (f a) Q) :
    After whole z (fun _ => False) (fun _ => False) True (x >>= f) Q :=
  .part hx fun a ha => (hf a ha).weaken (fun _ => .inr) (fun _ hOpen => hOpen.resolve_left id) And.right

/-- The first part of a run. -/
theorem first {b : β} (h : (x >>= f) s = .ok b t)
    (hx : ∀ s a t, x s = .ok a t → Stretch whole s t (leadsOf a) (openedOf a) (endsOf a))
    (hf : ∀ a, After whole s (leadsOf a) (openedOf a) (endsOf a) (f a) Q) : Q b t := start whole h (.fresh hx hf)

theorem firstPart {b : β} (h : (x >>= f) s = .ok b t) (hx : ∀ s a t, x s = .ok a t → Leaves whole flow s (outcome a) t)
    (hf : ∀ a, flow.TakesAll (outcome a).pending → After whole s (pendingAt (outcome a).pending)
      (pendingAt (outcome a).pending) ((outcome a).completes = true) (f a) Q) : Q b t :=
  start whole h (.freshPart hx hf)

/-- A part that control passes. -/
theorem move (hx : Moves whole x) (hf : ∀ a, After whole z leads opened ends (f a) Q) :
    After whole z leads opened ends (x >>= f) Q :=
  .next hx fun a => (hf a).weaken (fun _ => .inl) (fun _ hOpen => hOpen.resolve_right id) And.left

theorem ite {c : Prop} [Decidable c] {y : Emit α} (hx : c → After whole z leads opened ends x P)
    (hy : ¬ c → After whole z leads opened ends y P) : After whole z leads opened ends (if c then x else y) P := by
  split
  · exact hx ‹_›
  · exact hy ‹_›

/-- A refusal unless a condition fails. -/
theorem refuseIf {c : Prop} [Decidable c] {e : CompileError} {k : Emit β} (hk : After whole z leads opened ends k Q) :
    After whole z leads opened ends (if c then throw e >>= f else k) Q := by
  refine .ite (fun _ s b t _ h => ?_) fun _ => hk
  obtain ⟨_, _, hThrow, -⟩ := bind_ok.1 h
  exact (not_throw_ok hThrow).elim

variable {f : Unit → Emit β} {sites : List Nat}

theorem land (hSites : ∀ site ∈ sites, leads site)
    (hf : After whole z leads (fun k => opened k ∧ k ∉ sites) (ends ∨ sites ≠ []) (f ()) Q) :
    After whole z leads opened ends (Emit.land sites >>= f) Q :=
  .step (fun _ _ _ hSoFar h => hSoFar.land h hSites) fun _ => hf

/-- Branches back to where the code starts. -/
theorem toStart (hSites : ∀ site ∈ sites, leads site)
    (hf : After whole z leads (fun k => opened k ∧ k ∉ sites) ends (f ()) Q) :
    After whole z leads opened ends (patchAll sites z.code.pc >>= f) Q :=
  .step (fun _ _ _ hSoFar h => hSoFar.toStart h hSites) fun _ => hf

theorem setDepth (depth : Int) (hf : After whole z leads opened ends (f ()) Q) :
    After whole z leads opened ends (Emit.setDepth depth >>= f) Q :=
  .step (fun _ _ _ hSoFar h => hSoFar.setDepth h) fun _ => hf

/-- A jump on a condition. -/
theorem jumpIf {c : Bool} {f : List Nat → Emit β}
    (hf : ∀ sites, (c = false → sites = []) → After whole z (fun k => leads k ∨ k ∈ sites)
      (fun k => opened k ∨ k ∈ sites) (ends ∧ c = false) (f sites) Q) :
    After whole z leads opened ends
      (if c then ((fun site => [site]) <$> goto) >>= f else Pure.pure [] >>= f) Q := by
  intro s b t hSoFar h
  obtain ⟨sites, r, hJumped, hRest⟩ := gotoIf_ok h
  refine hf sites ?_ r b t (hSoFar.append (.jumped hJumped)) hRest
  rintro rfl
  exact hJumped.1

/-- A jump back to where the code starts. -/
theorem jumpBack {f : Nat → Emit β} (hf : ∀ site, After whole z leads opened False (f site) Q) :
    After whole z leads opened ends (liftM (CodeBuffer.emitGoto z.code.pc) >>= f) Q := by
  refine .step (fun s site t hSoFar h => ?_) hf
  obtain ⟨r, hBranch, hPatch⟩ := emitGoto_ok.1 h
  have hAll : patchAll [site] z.code.pc r = .ok () t := patchAll_cons.2 ⟨t, hPatch, patchAll_nil.2 rfl⟩
  refine ((hSoFar.append (.goto hBranch)).toStart hAll (by simp)).mono (fun _ => .inl) ?_ And.right
  rintro k ⟨hOpen | rfl, hNot⟩
  · exact hOpen
  · simp at hNot

theorem jumpBackIf {c : Bool} {k : Emit β} (hk : After whole z leads opened (ends ∧ c = false) k Q) :
    After whole z leads opened ends (if c then liftM (CodeBuffer.emitGoto z.code.pc) >>= fun _ : Nat => k else k) Q :=
  .ite (fun _ => .jumpBack fun _ => hk.weaken (fun _ => id) (fun _ => id) False.elim) fun hNo =>
    hk.weaken (fun _ => id) (fun _ => id) fun hEnds => ⟨hEnds, by simpa using hNo⟩

end After

end Paths

/-- The code of a statement is passed only if it counts as passed, and what leaves it is pending. -/
def StmtCode.Flows (whole : Prop) (code : StmtCode) : Prop :=
  ∀ flow s o t, code flow s = .ok o t → Paths.Leaves whole flow s o t

/-- The branches out of the parts of a `try`. -/
def StmtCode.Protection.leaves (p : Protection) (k : Nat) : Prop :=
  pendingAt p.inside k ∨ pendingAt p.outside k ∨ k ∈ p.done

namespace StmtCode.Flows

open Paths (Spans Stretch Moves After Leaves)

variable {whole : Prop} {ctx : TypingContext} {test : Expr} {body : StmtCode} {flow : Flow}
  {groups : List (Bool × StmtCode)} {exit : Exit} {range : Nat × Nat} {a : Outcome} {p : Protection}
  {leads opened : Nat → Prop}

theorem andThen {first rest : StmtCode} (hFirst : first.Flows whole) (hRest : rest.Flows whole) :
    (andThen first rest).Flows whole := by
  refine fun flow s o t h => After.firstPart (Q := Leaves whole flow s) h (hFirst flow) fun a ha =>
    .part (hRest flow) fun b hb => .done fun r hr => ⟨?_, ha.append hb⟩
  exact hr.mono (fun _ => pendingAt_append.1) (fun _ => pendingAt_append.2) fun hEnds => Bool.and_eq_true_iff.2 hEnds

theorem ofEmit {x : Emit Unit} (hx : Moves whole x) : (ofEmit x).Flows whole :=
  fun flow s _ _ h => After.first (Q := Leaves whole flow s) h hx fun _ => .done fun _ hr =>
    ⟨hr.mono (by simp [pendingAt]) nofun fun _ => rfl, .nil⟩

theorem ifThen (hBody : body.Flows whole) : (ifThen ctx test body).Flows whole := by
  refine fun flow s o t h => After.first (Q := Leaves whole flow s) h (fun _ _ _ => .test) fun otherwise =>
    .part (hBody flow) fun a ha => .land (fun _ => .inl) <| .done fun r hr => ⟨?_, ha⟩
  exact hr.mono (fun _ => .inr) (fun k hk => hk.1.resolve_left hk.2) fun _ => rfl

theorem ifElse {alternative : StmtCode} (hBody : body.Flows whole)
    (hAlternative : alternative.Flows whole) : (ifElse ctx test body alternative).Flows whole := by
  refine fun flow s o t h => After.first (Q := Leaves whole flow s) h (fun _ _ _ => .test) fun otherwise =>
    .part (hBody flow) fun a ha => .jumpIf fun done hDone => .land (fun _ hSite => .inl (.inl hSite)) <| .setDepth 0 <|
      .part (hAlternative flow) fun b hb => .land (fun _ hSite => .inl (.inr hSite)) <| .done fun r hr =>
        ⟨hr.mono ?_ ?_ ?_, ha.append hb⟩
  · intro k hk
    exact (pendingAt_append.1 hk).imp (fun ha => .inl (.inr ha)) id
  · rintro k ⟨⟨⟨hSites | ha⟩ | hSites, hNot⟩ | hb, hDone⟩
    all_goals grind [pendingAt_append]
  · cases hGo : a.completes <;> grind

theorem whileLoop (hBody : body.Flows whole) : (whileLoop ctx test body).Flows whole := by
  intro flow s o t h
  obtain ⟨_, _, hHere, h⟩ := bind_ok.1 h
  obtain ⟨rfl, rfl⟩ := here_ok.1 hHere
  refine After.first (Q := Leaves whole flow _) h (fun _ _ _ => .test) fun exits =>
    .part (hBody flow.intoLoop) fun a ha => .jumpBackIf <|
      .toStart (fun _ hSite => .inr (Outcome.pendingAt_of_sites hSite)) <| .land (fun _ => .inl) <|
        .land (fun _ hSite => .inr (Outcome.pendingAt_of_sites hSite)) <| .setDepth 0 <| .done fun r hr =>
          ⟨hr.mono (fun k hk => .inr (Outcome.pendingAt_of_without hk)) ?_ ?_, ha.ofLoop⟩
  · rintro k ⟨⟨⟨hOpen, hContinue⟩, hExit⟩, hBreak⟩
    exact Outcome.pendingAt_without (hOpen.resolve_left hExit) (by simp [hContinue, hBreak])
  · rintro ((⟨⟨-, hYes⟩, hNo⟩ | hSome) | hSome)
    · simp [hNo] at hYes
    · simp [afterLoop, hSome]
    · simp [afterLoop, hSome]

theorem doLoop (hBody : body.Flows whole) : (doLoop ctx body test).Flows whole := by
  intro flow s o t h
  obtain ⟨_, _, hHere, h⟩ := bind_ok.1 h
  obtain ⟨rfl, rfl⟩ := here_ok.1 hHere
  refine After.firstPart (Q := Leaves whole flow _) h (hBody flow.intoLoop) fun a ha =>
    .land (fun _ => Outcome.pendingAt_of_sites) <| .ite (fun hGo => ?_) fun hGo => ?_
  · refine .next (fun _ _ _ => .testAgain) fun back => .toStart (fun _ => .inr) <|
      .land (fun _ hSite => .inl (Outcome.pendingAt_of_sites hSite)) <| .setDepth 0 <| .done fun r hr =>
        ⟨hr.mono (fun _ hk => .inl (Outcome.pendingAt_of_without hk)) ?_ ?_, ha.ofLoop⟩
    · rintro k ⟨⟨hOpen, hBack⟩, hBreak⟩
      obtain ⟨hPending, hContinue⟩ := hOpen.resolve_right hBack
      exact Outcome.pendingAt_without hPending (by simp [hContinue, hBreak])
    · rintro (⟨-, hKnown⟩ | hSome)
      · simp [hGo, hKnown]
      · simp [hSome]
  · refine .land (fun _ => Outcome.pendingAt_of_sites) <| .setDepth 0 <| .done fun r hr =>
      ⟨hr.mono (fun _ => Outcome.pendingAt_of_without) ?_ ?_, ha.ofLoop⟩
    · rintro k ⟨⟨hOpen, hContinue⟩, hBreak⟩
      exact Outcome.pendingAt_without hOpen (by simp [hContinue, hBreak])
    · rintro (hEnds | hSome)
      · exact (hGo (by simpa using hEnds)).elim
      · simp [hSome]

theorem forLoop {init : StmtCode} {test : Option Expr} {update : List Expr} (hInit : init.Flows whole)
    (hBody : body.Flows whole) : (forLoop ctx init test update body).Flows whole := by
  intro flow s o t h
  obtain ⟨first, s₁, hFirst, h⟩ := bind_ok.1 h
  obtain ⟨_, _, hHere, h⟩ := bind_ok.1 h
  obtain ⟨rfl, rfl⟩ := here_ok.1 hHere
  have hBefore := hInit flow s first s₁ hFirst
  have hLoop (exits : List Nat) : After whole s₁ (· ∈ exits) (· ∈ exits) True (do
      let o ← body flow.intoLoop
      land (o.sites .continuing)
      if o.completes || !(o.sites .continuing).isEmpty then
        update.forM fun e => (ctx.compile e).effect
        let _ ← CodeBuffer.emitGoto s₁.code.pc
      land exits
      land (o.sites .breaking)
      setDepth 0
      let after := afterLoop exits o
      return { after with pending := first.pending ++ after.pending }) (Leaves whole flow s) := by
    refine .part (hBody flow.intoLoop) fun a ha =>
      .land (fun _ hSite => .inr (Outcome.pendingAt_of_sites hSite)) <|
        .ite (fun _ => .move (.forM fun e _ => .effect e) fun _ => .jumpBack fun _ => ?_) fun hGo => ?_
    rotate_left
    refine After.weaken (?_ : After whole s₁ _ _ False _ _) (fun _ => id) (fun _ => id) fun hEnds => hGo (by
      simpa using hEnds)
    all_goals
      refine .land (fun _ => .inl) <| .land (fun _ hSite => .inr (Outcome.pendingAt_of_sites hSite)) <|
        .setDepth 0 <| .done fun r hr => ⟨(hBefore.stretch.append hr).mono ?_ ?_ ?_, hBefore.taken.append ha.ofLoop⟩
      · exact fun k hk => (pendingAt_append.1 hk).imp_right fun hLater => .inr (Outcome.pendingAt_of_without hLater)
      · rintro k (hEarly | ⟨⟨⟨hOpen, hContinue⟩, hExit⟩, hBreak⟩)
        · exact pendingAt_append.2 (.inl hEarly)
        · exact pendingAt_append.2 (.inr (Outcome.pendingAt_without (hOpen.resolve_left hExit)
            (by simp [hContinue, hBreak])))
      · rintro ⟨-, (hNo | hSome) | hSome⟩
        · exact hNo.elim
        · simp [afterLoop, hSome]
        · simp [afterLoop, hSome]
  cases test with
  | none => exact After.start whole h ((hLoop []).weaken (by simp) (fun _ => False.elim) id)
  | some test => exact After.first h (fun _ _ _ => .test) hLoop

/-! Switches. -/

/-- The cases of a switch are entered where they start. -/
theorem cases_spans {c : CaseOutcome} {s t : EmitState}
    (hGroups : ∀ group ∈ groups, group.2.Flows whole) (h : cases flow groups s = .ok c t) :
    ∃ indices : List Nat, (∀ k ∈ indices, k ≤ t.next) ∧
      (s.code.Consistent → c.starts = indices.map t.code.address) ∧
      Spans whole s t (pendingAt c.outcome.pending) (pendingAt c.outcome.pending) (· ∈ indices) (Added s t)
        (c.outcome.completes = true) ∧ flow.TakesAll c.outcome.pending := by
  induction groups generalizing s c with
  | nil =>
    obtain ⟨rfl, rfl⟩ := cases_nil h
    refine ⟨[], by simp, fun _ => rfl, ?_, .nil⟩
    exact Spans.weaken (Stretch.refl s) (by simp [pendingAt]) (fun _ => False.elim) (by simp)
      (fun _ => id) fun _ => rfl
  | cons group rest ih =>
    obtain ⟨a, r, others, hRun, hRest, rfl⟩ := cases_cons h
    have hGroup := hGroups group (by simp) flow s a r hRun
    have hBody := Spans.atStart hGroup.stretch
    have hStart {z : EmitState} (hLater : s.Later (fun _ => False) z) (hs : s.code.Consistent) :
        s.code.pc = z.code.address s.next := by
      rw [hLater.code.address_eq s.next (Nat.le_of_eq hs.sizes.symm)]
      exact hs.address_size.symm
    cases rest with
    | nil =>
      obtain ⟨rfl, rfl⟩ := cases_nil hRest
      refine ⟨[s.next], by simpa using hBody.later.next_le, fun hs => ?_, ?_, hGroup.taken.append .nil⟩
      · simp [hStart hBody.later hs]
      · exact hBody.weaken (by simp) (by simp) (by simp) (fun _ => id) id
    | cons second rest =>
      obtain ⟨indices, hBelow, hStarts, hOthers, hTaken⟩ :=
        ih (fun group hGroup => hGroups group (by simp [hGroup])) hRest
      have hBoth := hBody.join hOthers
      refine ⟨s.next :: indices, ?_, fun hs => ?_, ?_, hGroup.taken.append hTaken⟩
      · simpa using ⟨hBoth.later.next_le, hBelow⟩
      · simp [hStart hBoth.later hs, hStarts (hBody.later.consistent hs)]
      · refine hBoth.weaken (fun _ => pendingAt_append.1) (fun _ => pendingAt_append.2) ?_
          (fun _ hRow => hRow.split hBody.later hOthers.later) id
        intro k hIndex
        rcases List.mem_cons.1 hIndex with rfl | hLater
        · exact .inl (.inr rfl)
        · exact .inr (.inl hLater)

/-- A switch leads to its cases, or past them if it has no default case. -/
theorem switch_targets {labels : List (List Expr)}
    {found : List (Int32 × Nat)} {c : CaseOutcome} {s t : EmitState} (h : cases flow groups s = .ok c t)
    (hKeys : caseKeys ctx 0 [] labels = .ok found) (hLength : labels.length = groups.length) (stop : Nat) :
    ∀ target ∈ c.defaultStart.getD stop :: (sortedKeys found).map fun key => c.starts.getD key.2 stop,
      target ∈ c.starts ∨ c.defaultStart = none ∧ target = stop := by
  intro target hTarget
  rcases List.mem_cons.1 hTarget with rfl | hKey
  · cases hDefault : c.defaultStart with
    | none => exact .inr ⟨rfl, rfl⟩
    | some start => exact .inl (cases_defaultStart h hDefault)
  · obtain ⟨key, hMem, rfl⟩ := List.mem_map.1 hKey
    have hNumber : key.2 < c.starts.length := by
      have hFound := caseKeys_number hKeys key (List.mem_mergeSort.1 hMem)
      rw [cases_starts_length h]
      omega
    rw [List.getD_eq_getElem?_getD, List.getElem?_eq_getElem hNumber]
    exact .inl (List.getElem_mem hNumber)

theorem switch {selector : Expr} {labels : List (List Expr)}
    (hGroups : ∀ group ∈ groups, group.2.Flows whole) (hLength : labels.length = groups.length) :
    (switch ctx selector labels groups).Flows whole := by
  intro flow s o t h
  obtain ⟨type, s₁, s₂, found, site, s₃, s₄, c, s₅, s₆, s₇, hValue, hCoerce, hKeys, hSwitch, hDepth, hCases,
    hPatch, hBreaks, hDepth', rfl⟩ := switch_ok h
  have hPushed : Stretch whole s s₁ _ _ _ := Moves.value selector s type s₁ hValue
  have hHead := hPushed.append (Moves.ofGrowing (.coerce ..) s₁ () s₂ hCoerce)
  obtain ⟨rfl, hEmit⟩ := emitSwitch_ok hSwitch
  have hStart := (Spans.append hHead (Spans.jumping hEmit)).setDepth hDepth
  obtain ⟨indices, hBelow, hStarts, hBodies, hTaken⟩ := cases_spans hGroups hCases
  have hAll : Spans whole s s₅ (fun k => k = s₂.next ∨ pendingAt c.outcome.pending k)
      (fun k => k = s₂.next ∨ pendingAt c.outcome.pending k) (· ∈ indices) (Added s s₅)
      (c.outcome.completes = true) := by
    refine (hStart.join hBodies).weaken (fun k => Or.imp_left .inr) (by simp) (fun k hk => .inr (.inl hk)) ?_ id
    intro row hRow
    refine (hRow.split hStart.later hBodies.later).imp_left fun hEarly => .inl (hEarly.congr rfl ?_)
    obtain rfl := setDepth_ok.1 hDepth
    obtain rfl := emit_ok.1 hEmit
    rfl
  -- Without a default case the switch leads to the end of its cases as well.
  obtain ⟨entered, ends, hEnds, hReady, hReached⟩ : ∃ entered ends,
      (ends → c.outcome.completes = true ∨ c.defaultStart = none) ∧
      Spans whole s s₅ (fun k => k = s₂.next ∨ pendingAt c.outcome.pending k)
        (fun k => k = s₂.next ∨ pendingAt c.outcome.pending k) entered (Added s s₅) ends ∧
      (s.code.Consistent → ∀ target ∈ c.defaultStart.getD s₅.code.pc ::
          (sortedKeys found).map fun key => c.starts.getD key.2 s₅.code.pc,
        ∃ j, entered j ∧ j ≤ s₅.next ∧ target = s₅.code.address j) := by
    have hTargets := switch_targets hCases hKeys hLength s₅.code.pc
    have hCase (hs : s.code.Consistent) {target : Nat} (hTarget : target ∈ c.starts) :
        ∃ j ∈ indices, j ≤ s₅.next ∧ target = s₅.code.address j := by
      rw [hStarts (hStart.later.consistent hs)] at hTarget
      obtain ⟨j, hj, rfl⟩ := List.mem_map.1 hTarget
      exact ⟨j, hj, hBelow j hj, rfl⟩
    by_cases hDefault : c.defaultStart = none
    · refine ⟨_, True, fun _ => .inr hDefault, hAll.atEnd, fun hs target hTarget => ?_⟩
      rcases hTargets target hTarget with hMem | ⟨-, rfl⟩
      · obtain ⟨j, hj, hLe, hSame⟩ := hCase hs hMem
        exact ⟨j, .inl hj, hLe, hSame⟩
      · exact ⟨s₅.next, .inr rfl, Nat.le_refl _, (hAll.later.consistent hs).address_size.symm⟩
    · refine ⟨_, _, .inl, hAll, fun hs target hTarget => ?_⟩
      exact hCase hs ((hTargets target hTarget).resolve_right fun hNo => hDefault hNo.1)
  have hPatched := hReady.patchSwitch hPatch (.inl rfl) hReached
  obtain ⟨_, _, _, -, -, -, rfl⟩ := patchSwitch_ok hPatch
  have hLanded := (hPatched.land (land_ok.2 hBreaks) fun site hSite =>
    .inr (Outcome.pendingAt_of_sites hSite)).setDepth hDepth'
  refine ⟨hLanded.weaken (fun k hPending => .inr (Outcome.pendingAt_of_without hPending)) ?_ nofun ?_ ?_,
    hTaken.ofSwitch⟩
  · rintro k ⟨⟨hOpen, hNot⟩, hBreak⟩
    exact Outcome.pendingAt_without (hOpen.resolve_left hNot) (by simp [hBreak])
  · intro row hRow
    obtain rfl := setDepth_ok.1 hDepth'
    obtain ⟨-, -, _, rfl⟩ := patchAll_ok hBreaks
    exact hRow
  · rintro (hYes | hSome)
    · rcases hEnds hYes with hCompletes | hNone
      · simp [hCompletes]
      · simp [hNone]
    · simp [hSome]

/-! Returns and exceptions. -/

theorem returnThrough (flow : Flow) (result : JavaType) (hooks : List Hook) : ∀ s pending t,
    Emit.returnThrough result hooks s = .ok pending t → Leaves whole { flow with hooks } s ⟨false, pending⟩ t := by
  induction hooks with
  | nil =>
    have hPlain : (Instruction.returning result).offsets = [] := by
      unfold Instruction.returning
      split <;> rfl
    have hStops : (Instruction.returning result).isTerminal = true := by
      unfold Instruction.returning
      split <;> rfl
    exact fun s _ _ h => After.first (Q := fun pending => Leaves whole _ s ⟨false, pending⟩) h
      (fun _ _ _ => .emit hPlain) fun _ => .setDepth 0 <| .done fun _ hr =>
        ⟨hr.mono (by simp [pendingAt]) nofun (by simp [hStops]), .nil⟩
  | cons hook rest ih =>
    cases hook with
    | monitor slot =>
      intro s pending t h
      obtain ⟨_, r₁, hLoad, h⟩ := bind_ok.1 h
      obtain ⟨_, r₂, hExit, h⟩ := bind_ok.1 h
      have hUnlocked : Stretch whole s r₂ _ _ _ :=
        (Moves.load .object slot s () r₁ hLoad).append (Moves.emit rfl r₁ () r₂ hExit)
      have hRest := ih r₂ pending t h
      refine ⟨(hUnlocked.append hRest.stretch).mono (fun _ => .inr) (by simp) And.right, fun p hp => ?_⟩
      have hTaken := hRest.taken p hp
      cases hKind : p.exit <;> simpa [hKind, Flow.Takes] using hTaken
    | lastPart frame =>
      intro s pending t h
      have hLeave : After whole s (fun _ => False) (fun _ => False) True (do
          let site ← goto
          Emit.setDepth 0
          return [⟨.returning, site⟩]) fun pending =>
            Leaves whole { flow with hooks := .lastPart frame :: rest } s ⟨false, pending⟩ :=
        .fresh (fun _ _ _ => .goto) fun _ => .setDepth 0 <| .done fun _ hr =>
          ⟨hr.mono (by simp [pendingAt]) (by simp [pendingAt]) False.elim, .singleton ⟨frame, List.mem_cons_self⟩⟩
      exact After.start whole (P := fun pending => Leaves whole _ s ⟨false, pending⟩) h
        (.ite (fun _ => .move (.resultSlot _ _) fun _ => .move (.store _ _) fun _ => hLeave) fun _ => hLeave)

theorem ret {value : Option Expr} : (ret ctx value).Flows whole := by
  intro flow s o t h
  have hLeave : After whole s (fun _ => False) (fun _ => False) True (do
      return (⟨false, ← Emit.returnThrough ctx.result flow.hooks⟩ : Outcome)) (Leaves whole flow s) :=
    .freshPart (returnThrough flow ctx.result flow.hooks) fun _ ha => .done fun _ hr => ⟨hr, ha⟩
  refine After.start whole (P := Leaves whole flow s) h ?_
  cases value with
  | none => exact .refuseIf hLeave
  | some value =>
    exact .move (.value value) fun _ => .ite (fun _ => .move (.ofGrowing (.pop _)) fun _ => hLeave)
      fun _ => .move (.ofGrowing (.coerce ..)) fun _ => hLeave

theorem raise {value : Expr} : (raise ctx value).Flows whole :=
  fun flow s _ _ h => After.first (Q := Leaves whole flow s) h (Moves.value value) fun _ =>
    .next (fun _ _ _ => .emit rfl) fun _ => .setDepth 0 <| .done fun _ hr =>
      ⟨hr.mono (by simp [pendingAt]) (by simp) fun hEnds => absurd hEnds.2 (by decide), .nil⟩

theorem takes_of_targetDepth {depth : Nat} (hExit : exit ≠ .returning)
    (h : flow.targetDepth exit = .ok depth) : flow.Takes exit := by
  cases exit with
  | returning => exact (hExit rfl).elim
  | breaking => cases hDepth : flow.breakDepth <;> simp_all [Flow.Takes, Flow.targetDepth]
  | continuing => cases hDepth : flow.continueDepth <;> simp_all [Flow.Takes, Flow.targetDepth]

theorem jumpOut (flow : Flow) (hExit : exit ≠ .returning) (s : EmitState) (pending : List PendingExit)
    (t : EmitState) (h : Emit.jumpOut flow exit s = .ok pending t) : Leaves whole flow s ⟨false, pending⟩ t := by
  obtain ⟨depth, _, hLift, h⟩ := bind_ok.1 h
  obtain ⟨hDepth, rfl⟩ := lift_ok.1 hLift
  have hLeave : After whole s (fun _ => False) (fun _ => False) True (do
      let site ← goto
      Emit.setDepth 0
      return [⟨exit, site⟩]) fun pending => Leaves whole flow s ⟨false, pending⟩ :=
    .fresh (fun _ _ _ => .goto) fun _ => .setDepth 0 <| .done fun _ hr =>
      ⟨hr.mono (by simp [pendingAt]) (by simp [pendingAt]) False.elim, .singleton (takes_of_targetDepth hExit hDepth)⟩
  refine After.start whole (P := fun pending => Leaves whole flow s ⟨false, pending⟩) h ?_
  split
  · exact .refuseIf hLeave
  · exact hLeave

theorem jump (hExit : exit ≠ .returning) : (jump exit).Flows whole :=
  fun flow s _ _ h => After.firstPart (Q := Leaves whole flow s) h (jumpOut flow hExit) fun _ ha =>
    .done fun _ hr => ⟨hr, ha⟩

/-! The parts of a `try`. -/

variable {last : Option StmtCode} {inner flow : Flow} {s t z : EmitState}

/-- What is pending of the parts of a `try` can be taken up, inside or outside. -/
structure Settled (inner outer : Flow) (p : Protection) : Prop where
  inside : inner.TakesAll p.inside
  outside : outer.TakesAll p.outside

/-- What leaves a part of a `try` is added to what left the parts before it. -/
def Adding (whole : Prop) (flow : Flow) (p : Protection) (a : Outcome) (range : Nat × Nat) (last : Option StmtCode)
    (s : EmitState) (q : Protection) (t : EmitState) : Prop :=
  ∃ more done, q = ⟨p.inside ++ a.pending, p.outside ++ more, p.done ++ done, p.covered ++ [range]⟩ ∧
    (last = none → more = []) ∧ flow.TakesAll more ∧ Stretch whole s t (fun k => pendingAt more k ∨ k ∈ done)
      (fun k => pendingAt more k ∨ k ∈ done) (a.completes = false)

theorem adding (hLast : ∀ code ∈ last, code.Flows whole) :
    After whole s (fun _ => False) (fun _ => False) True (StmtCode.covering range a last flow p)
      (Adding whole flow p a range last s) := by
  have hDone (b : Outcome) (hb : last = none → b.pending = []) (hTaken : flow.TakesAll b.pending) :
      After whole s (pendingAt b.pending) (pendingAt b.pending) (b.completes = true) (do
        let done ← if b.completes then (fun site => [site]) <$> goto else pure []
        Emit.setDepth 0
        return (⟨p.inside ++ a.pending, p.outside ++ b.pending, p.done ++ done, p.covered ++ [range]⟩ : Protection))
        (Adding whole flow p a range last s) :=
    .jumpIf fun done _ => .setDepth 0 <| .done fun r hr =>
      ⟨b.pending, done, rfl, hb, hTaken, hr.mono (fun _ => id) (fun _ => id) (by grind)⟩
  refine .ite (fun hGo => ?_) fun hStops => .done fun r hr => ⟨[], [], by simp, fun _ => rfl, .nil, ?_⟩
  · cases last with
    | none =>
      exact (hDone ⟨true, []⟩ (fun _ => rfl) .nil).weaken (by simp [pendingAt]) (fun _ => False.elim) fun _ => rfl
    | some code => exact .freshPart (hLast code rfl flow) fun b => hDone b nofun
  · exact hr.mono (by simp [pendingAt]) (fun _ => False.elim) fun _ => by simpa using hStops

theorem covering {q : Protection} (hLast : ∀ code ∈ last, code.Flows whole)
    (hSoFar : Stretch whole z s (fun k => p.leaves k ∨ pendingAt a.pending k)
      (fun k => p.leaves k ∨ pendingAt a.pending k) (a.completes = true))
    (hp : Settled inner flow p) (ha : inner.TakesAll a.pending) (h : covering range a last flow p s = .ok q t) :
    Stretch whole z t q.leaves q.leaves False ∧ s.Later (fun _ => False) t ∧ q.covered = p.covered ++ [range] ∧
      (last = none → q.outside = p.outside) ∧ Settled inner flow q := by
  obtain ⟨more, done, rfl, hMore, hTaken, hLeft⟩ := After.start whole h (adding hLast)
  refine ⟨(hSoFar.append hLeft).mono ?_ ?_ (by simp), hLeft.later, rfl, fun hNone => by simp [hMore hNone],
    hp.inside.append ha, hp.outside.append hTaken⟩
  all_goals
    simp only [Protection.leaves, pendingAt_append, List.mem_append]
    grind

/-- A handler up to its end. -/
theorem clause {param : Variable} {type : JavaType} {caught slot : UInt16} {s₁ s₂ s₃ s₄ s₅ : EmitState}
    (hBody : body.Flows whole) (hRange : Between z s range) (hSome : range.1 < range.2)
    (hSoFar : Stretch whole z s leads leads False) (hClass : classIndex type s = .ok caught s₁)
    (hRow : (liftM (CodeBuffer.addHandler range.1 range.2 s₁.code.pc caught) : Emit Unit) s₁ = .ok () s₂)
    (hDepth : Emit.setDepth 1 s₂ = .ok () s₃) (hSlot : Emit.slotOf ctx param s₃ = .ok slot s₄)
    (hStore : Emit.store type slot s₄ = .ok () s₅) (hRun : body inner s₅ = .ok a t) :
    Stretch whole z t (fun k => leads k ∨ pendingAt a.pending k) (fun k => leads k ∨ pendingAt a.pending k)
      (a.completes = true) ∧ s.Later (fun _ => False) t ∧ Between z t (s₁.code.pc, t.code.pc) ∧
      inner.TakesAll a.pending := by
  obtain ⟨hClassed, hCode, -⟩ := classIndex_ok hClass
  obtain ⟨row, hCovers, -, rfl⟩ := addHandler_ok hRow
  have hRowed : s.Later (fun _ => False) (s₁.addRows [row]) := (hClassed.trans (s₁.addRows_later [row])).mono (by simp)
  have hDeepened : (s₁.addRows [row]).Later (fun _ => False) s₃ := by
    obtain rfl := setDepth_ok.1 hDepth
    exact .of_code (.setDepth ..)
  have hFound : Stretch whole s₃ s₄ _ _ _ := Moves.ofGrowing (.slotOf nofun) s₃ slot s₄ hSlot
  have hRan := hBody inner s₅ a t hRun
  have hPart : Stretch whole s₃ t (pendingAt a.pending) (pendingAt a.pending) (a.completes = true) :=
    ((hFound.append (Moves.store type slot s₄ () s₅ hStore)).append hRan.stretch).mono (fun _ => .inr) (by simp)
      And.right
  have hAll : s.Later (fun _ => False) t := ((hRowed.trans hDeepened).trans hPart.later).mono (by simp)
  refine ⟨hSoFar.handler hRowed ?_ ?_ hDepth hPart ?_, hAll, ?_, hRan.taken⟩
  · simp [EmitState.next, EmitState.addRows, hCode]
  · intro row' hRow'
    have hSame := mem_of_added_addRows (s := s₁) (hRow'.congr (by rw [hCode]) rfl)
    rw [List.mem_singleton.1 hSame, ← hCode]
    exact ⟨range, hRange, hSome, hCovers⟩
  · have := hFound.later.next_le
    have := emit_next hStore
    have := hRan.stretch.later.next_le
    omega
  · rw [hCode]
    exact .of_later hSoFar.later hAll

theorem handlers {catches : List (Variable × StmtCode)} {q : Protection}
    (hLast : ∀ code ∈ last, code.Flows whole) (hCatches : ∀ c ∈ catches, c.2.Flows whole)
    (hRange : Between z s range) (hSome : range.1 < range.2) (hCovered : ∀ range ∈ p.covered, Between z s range)
    (hSoFar : Stretch whole z s p.leaves p.leaves False) (hp : Settled inner flow p)
    (h : handlers ctx range inner flow last p catches s = .ok q t) :
    Stretch whole z t q.leaves q.leaves False ∧ (∀ range ∈ q.covered, Between z t range) ∧
      (last = none → q.outside = p.outside) ∧ Settled inner flow q := by
  induction catches generalizing s p with
  | nil =>
    obtain ⟨rfl, rfl⟩ := pure_ok.1 h
    exact ⟨hSoFar, hCovered, fun _ => rfl, hp⟩
  | cons clause rest ih =>
    obtain ⟨type, _, hLift, h⟩ := bind_ok.1 h
    obtain ⟨-, rfl⟩ := lift_ok.1 hLift
    obtain ⟨caught, s₁, hClass, h⟩ := bind_ok.1 h
    obtain ⟨_, _, hHere, h⟩ := bind_ok.1 h
    obtain ⟨rfl, rfl⟩ := here_ok.1 hHere
    obtain ⟨_, s₂, hRow, h⟩ := bind_ok.1 h
    obtain ⟨_, s₃, hDepth, h⟩ := bind_ok.1 h
    obtain ⟨slot, s₄, hSlot, h⟩ := bind_ok.1 h
    obtain ⟨_, s₅, hStore, h⟩ := bind_ok.1 h
    obtain ⟨a, s₆, hRun, h⟩ := bind_ok.1 h
    obtain ⟨_, _, hHere, h⟩ := bind_ok.1 h
    obtain ⟨rfl, rfl⟩ := here_ok.1 hHere
    obtain ⟨p', s₇, hCovering, hRest⟩ := bind_ok.1 h
    obtain ⟨hHandled, hThrough, hHere, ha⟩ := Flows.clause (hCatches clause (by simp)) hRange hSome hSoFar hClass
      hRow hDepth hSlot hStore hRun
    obtain ⟨hLeft, hAfter, hMore, hOutside, hp'⟩ := covering hLast hHandled hp ha hCovering
    have hLater := hThrough.trans hAfter
    obtain ⟨hAll, hBetween, hSame, hq⟩ := ih (fun c hc => hCatches c (by simp [hc]))
      (hRange.later hSoFar.later hLater) (by
        rw [hMore]
        intro range hMem
        rcases List.mem_append.1 hMem with hOld | hNew
        · exact (hCovered range hOld).later hSoFar.later hLater
        · rw [List.mem_singleton.1 hNew]
          exact hHere.later hHandled.later hAfter) hLeft hp' hRest
    exact ⟨hAll, hBetween, fun hNone => (hSame hNone).trans (hOutside hNone), hq⟩

theorem rethrow {code : StmtCode} {covered : List (Nat × Nat)} {pending : List PendingExit}
    (hCode : code.Flows whole) (hCovered : ∀ range ∈ covered, Between z s range)
    (hSoFar : Stretch whole z s leads opened False) (h : rethrow code flow covered s = .ok pending t) :
    Stretch whole z t (fun k => leads k ∨ pendingAt pending k) (fun k => opened k ∨ pendingAt pending k) False ∧
      flow.TakesAll pending := by
  obtain ⟨_, _, hHere, h⟩ := bind_ok.1 h
  obtain ⟨rfl, rfl⟩ := here_ok.1 hHere
  obtain ⟨_, s₁, hRows, h⟩ := bind_ok.1 h
  obtain ⟨rows, hCovers, rfl⟩ := addHandlers_ok hRows
  obtain ⟨_, s₂, hDepth, h⟩ := bind_ok.1 h
  obtain ⟨saved, s₃, hReserve, h⟩ := bind_ok.1 h
  obtain ⟨_, s₄, hStore, h⟩ := bind_ok.1 h
  have hSaved : Stretch whole s₂ s₃ _ _ _ := Moves.ofGrowing (.reserve ..) s₂ saved s₃ hReserve
  have hRest : Leaves whole flow s₄ ⟨false, pending⟩ t := by
    refine After.firstPart (Q := fun pending => Leaves whole flow s₄ ⟨false, pending⟩) h (hCode flow) fun a ha =>
      .ite (fun _ => ?_) fun hStops => ?_
    · exact .move (.load _ _) fun _ => .next (fun _ _ _ => .emit rfl) fun _ => .setDepth 0 <| .done fun r hr =>
        ⟨hr.mono (fun _ => .inl) (by simp) fun hEnds => absurd hEnds.2 (by decide), ha⟩
    · exact .setDepth 0 <| .done fun r hr => ⟨hr.mono (fun _ => id) (fun _ => id) fun hEnds => (hStops hEnds).elim, ha⟩
  refine ⟨hSoFar.handler (s.addRows_later rows) rfl ?_ hDepth
    (((hSaved.append (Moves.store _ _ s₃ () s₄ hStore)).append hRest.stretch).mono (fun _ => .inr) (by simp)
      (by simp)) ?_, hRest.taken⟩
  · intro row hRow
    obtain ⟨range, hRange, hRowCovers⟩ := hCovers row (mem_of_added_addRows hRow)
    obtain ⟨hMem, hLt⟩ := List.mem_filter.1 hRange
    exact ⟨range, hCovered range hMem, by simpa using hLt, hRowCovers⟩
  · have := hSaved.later.next_le
    have := emit_next hStore
    have := hRest.stretch.later.next_le
    omega

/-- More becomes pending. -/
theorem joining {x : Emit (List PendingExit)} {pending : List PendingExit} {ends : Prop}
    (ha : flow.TakesAll pending) (hx : ∀ s more t, x s = .ok more t → Leaves whole flow s ⟨false, more⟩ t) :
    After whole z (fun k => leads k ∨ pendingAt pending k) (fun k => opened k ∨ pendingAt pending k) ends
      (x >>= fun more => Pure.pure (pending ++ more)) fun all t =>
        Stretch whole z t (fun k => leads k ∨ pendingAt all k) (fun k => opened k ∨ pendingAt all k) False ∧
          flow.TakesAll all := by
  refine .part hx fun more hMore => .done fun r hr => ⟨hr.mono ?_ ?_ (by simp), ha.append hMore⟩
  all_goals
    simp only [pendingAt_append]
    grind

theorem resume {code : StmtCode} {frame : Nat} {inside : List PendingExit}
    (hCode : code.Flows whole) (hInside : ∀ k, pendingAt inside k → leads k) :
    After whole z leads opened False (resume ctx code flow frame inside exit) fun pending t =>
      Stretch whole z t (fun k => leads k ∨ pendingAt pending k)
        (fun k => opened k ∧ k ∉ Outcome.sites ⟨true, inside⟩ exit ∨ pendingAt pending k) False ∧
          flow.TakesAll pending := by
  refine .ite (fun hNone => .done fun r hr => ?_) fun _ =>
    .land (fun site hSite => hInside site (Outcome.pendingAt_of_sites (o := ⟨true, inside⟩) hSite)) <| .setDepth 0 <|
      .part (hCode flow) fun a ha => .ite (fun hStops => .done fun r hr => ⟨?_, ha⟩) fun _ => ?_
  · exact ⟨hr.mono (by simp [pendingAt]) (by simp [pendingAt, List.isEmpty_iff.1 hNone]) id, .nil⟩
  · exact hr.mono (fun _ => id) (fun _ => id) fun hEnds => by simp [hEnds.2] at hStops
  · cases exit with
    | breaking | continuing => exact joining ha (jumpOut flow nofun)
    | returning =>
      refine .move .get fun state => ?_
      cases (state.resultSlots[frame]?).join with
      | some slot => exact .move (.load _ _) fun _ => joining ha (returnThrough flow _ _)
      | none => exact joining ha (returnThrough flow _ _)

theorem tryBlock {catches : List (Variable × StmtCode)} (hBody : body.Flows whole)
    (hCatches : ∀ c ∈ catches, c.2.Flows whole) (hLast : ∀ code ∈ last, code.Flows whole) :
    (tryBlock ctx body catches last).Flows whole := by
  intro flow s o t h
  obtain ⟨_, _, hGet, h⟩ := bind_ok.1 h
  obtain ⟨rfl, rfl⟩ := get_ok.1 hGet
  obtain ⟨_, s₁, hModify, h⟩ := bind_ok.1 h
  obtain ⟨_, _, hHere, h⟩ := bind_ok.1 h
  obtain ⟨rfl, rfl⟩ := here_ok.1 hHere
  obtain ⟨a, s₂, hRun, h⟩ := bind_ok.1 h
  obtain ⟨_, _, hHere, h⟩ := bind_ok.1 h
  obtain ⟨rfl, rfl⟩ := here_ok.1 hHere
  dsimp only at h
  split at h
  · obtain ⟨_, _, hThrow, -⟩ := bind_ok.1 h
    exact (not_throw_ok hThrow).elim
  next hSome =>
  obtain ⟨p, s₃, hCovering, h⟩ := bind_ok.1 h
  obtain ⟨q, s₄, hHandlers, h⟩ := bind_ok.1 h
  have hRan := hBody _ s₁ a s₂ hRun
  have hThrough := hRan.stretch.later
  obtain ⟨hLeft, hAfter, hMore, hOutside, hp⟩ := covering (p := ⟨[], [], [], []⟩) hLast
    (hRan.stretch.mono (by simp [Protection.leaves, pendingAt]) (fun _ => .inr) id) ⟨.nil, .nil⟩ hRan.taken hCovering
  have hRange := (Between.of_later (.refl (fun _ => False) s₁) hThrough).later hThrough hAfter
  have hLt : s₁.code.pc < s₂.code.pc := Nat.lt_of_le_of_ne hThrough.code.pc_le hSome
  obtain ⟨hHandled, hCovered, hSame, hq⟩ := handlers hLast hCatches hRange hLt (by
      rw [hMore]
      intro range hMem
      rw [List.nil_append] at hMem
      rw [List.mem_singleton.1 hMem]
      exact hRange) hLeft hp hHandlers
  have hEnd (pending : List PendingExit) (hPending : flow.TakesAll pending) :
      After whole s₁ (fun k => pendingAt pending k ∨ k ∈ q.done) (fun k => pendingAt pending k ∨ k ∈ q.done) False (do
        land q.done
        Emit.setDepth 0
        return (⟨!q.done.isEmpty, pending⟩ : Outcome)) (Leaves whole flow s) := by
    refine .land (fun _ => .inr) <| .setDepth 0 <| .done fun r hr => ⟨?_, hPending⟩
    obtain rfl := modify_ok.1 hModify
    exact ((Stretch.quiet (push_later s) rfl rfl).append hr).mono (fun _ hk => .inr (.inl hk)) (by grind) (by simp)
  cases last with
  | none =>
    refine (hEnd q.inside hq.inside).weaken ?_ ?_ id s₄ o t hHandled h
    · exact fun k => Or.imp_right .inr
    · rintro k (hPending | hPending | hDone)
      · exact .inl hPending
      · rw [hSame rfl, hOutside rfl] at hPending
        simp [pendingAt] at hPending
      · exact .inr hDone
  | some code =>
    have hCode := hLast code rfl
    obtain ⟨thrown, r, hThrown, h⟩ := bind_ok.1 h
    obtain ⟨hRethrown, h₁⟩ := rethrow hCode hCovered hHandled hThrown
    refine After.bind (resume hCode fun k hk => .inl (.inl hk)) (fun broken h₂ => .bind (resume hCode fun k hk =>
      .inl (.inl (.inl hk))) fun continued h₃ => .bind (resume hCode fun k hk => .inl (.inl (.inl (.inl hk))))
        fun returned h₄ => (hEnd _ ((((hq.outside.append h₁).append h₂).append h₃).append h₄)).weaken ?_ ?_ id)
          r o t hRethrown h
    · simp only [pendingAt_append, Protection.leaves]
      grind
    · simp only [pendingAt_append]
      rintro k (⟨⟨⟨hk, hBreaking⟩ | hk, hContinuing⟩ | hk, hReturning⟩ | hk)
      · rcases hk with (hInside | hk | hDone) | hk
        · obtain ⟨x, hx, rfl⟩ := hInside
          have hSite : x.site ∈ Outcome.sites ⟨true, q.inside⟩ x.exit := Outcome.mem_sites.2 ⟨x, hx, rfl, rfl⟩
          cases hExit : x.exit <;> rw [hExit] at hSite <;> contradiction
        · exact .inl (.inl (.inl (.inl (.inl hk))))
        · exact .inr hDone
        · exact .inl (.inl (.inl (.inl (.inr hk))))
      · exact .inl (.inl (.inl (.inr hk)))
      · exact .inl (.inl (.inr hk))
      · exact .inl (.inr hk)

/-! Locks. -/

/-- What follows the body of a statement that locks an object: its row of the exception table comes after its
handler. -/
theorem unlocking {slot : UInt16} (ha : flow.TakesAll a.pending) :
    After whole z (pendingAt a.pending) (pendingAt a.pending) (a.completes = true) (do
      let stop ← Emit.here
      let done ← if a.completes then (fun site => [site]) <$> Emit.goto else Pure.pure []
      let handler ← Emit.here
      Emit.setDepth 1
      let saved ← Emit.reserve .exception .object
      Emit.store .object saved
      Emit.load .object slot
      Emit.emit .monitorExit
      Emit.load .object saved
      Emit.emit .athrow
      if z.code.pc < stop then CodeBuffer.addHandler z.code.pc stop handler 0
      Emit.setDepth 0
      Emit.land done
      return a) (Leaves whole flow z) := by
  intro s o t hUpTo h
  obtain ⟨_, _, hHere, h⟩ := bind_ok.1 h
  obtain ⟨rfl, rfl⟩ := here_ok.1 hHere
  obtain ⟨done, s₁, hDone, h⟩ := gotoIf_ok h
  have hJumped : Stretch whole s s₁ _ _ _ := .jumped hDone
  have hGuarded : Stretch whole z s₁ (fun k => pendingAt a.pending k ∨ k ∈ done)
      (fun k => pendingAt a.pending k ∨ k ∈ done) False :=
    (hUpTo.append hJumped).mono (fun _ => id) (fun _ => id) (by grind)
  obtain ⟨_, _, hHere, h⟩ := bind_ok.1 h
  obtain ⟨rfl, rfl⟩ := here_ok.1 hHere
  obtain ⟨_, s₂, hDepth, h⟩ := bind_ok.1 h
  refine After.first h (Moves.ofGrowing (.reserve ..) : Moves whole _) (fun saved => .move (.store _ _) fun _ =>
    .move (.load _ _) fun _ => .move (.emit rfl) fun _ => .move (.load _ _) fun _ => ?_)
  intro s₃ o t hKept h
  obtain ⟨_, s₄, hThrow, h⟩ := bind_ok.1 h
  have hPart : Stretch whole s₂ s₄ (fun _ => False) (fun _ => False) False :=
    (hKept.append (.emit rfl hThrow)).mono (fun _ => False.elim) (by simp) fun hEnds => by cases hEnds.2
  obtain ⟨rows, hRows, h⟩ : ∃ rows : List HandlerRange, (∀ row ∈ rows, z.code.pc < s.code.pc ∧
      row.Covers (z.code.pc, s.code.pc) s₁.code.pc) ∧ (do
        Emit.setDepth 0
        Emit.land done
        return a) (s₄.addRows rows) = .ok o t := by
    dsimp only at h
    split at h
    · next hLt =>
      obtain ⟨_, s₅, hRow, h⟩ := bind_ok.1 h
      obtain ⟨row, hCovers, -, rfl⟩ := addHandler_ok hRow
      exact ⟨[row], by simpa using ⟨hLt, hCovers⟩, h⟩
    · exact ⟨[], by simp, by simpa [EmitState.addRows] using h⟩
  obtain ⟨_, s₅, hReset, h⟩ := bind_ok.1 h
  have hSet : s₁.Later (fun _ => False) s₂ ∧ s₁.code.handlers = s₂.code.handlers := by
    obtain rfl := setDepth_ok.1 hDepth
    exact ⟨.of_code (.setDepth ..), rfl⟩
  have hEnd : s₄.Later (fun _ => False) s₅ ∧ s₅.code.handlers = (s₄.addRows rows).code.handlers ∧
      s₅.next = s₄.next := by
    obtain rfl := setDepth_ok.1 hReset
    exact ⟨((s₄.addRows_later rows).trans (.of_code (.setDepth ..))).mono (by simp), rfl, rfl⟩
  have hLast : Spans whole s₂ s₅ (fun _ => False) (fun _ => False) (fun _ => False) (Added s₂ s₄) False :=
    ((Spans.append hPart (Spans.quiet (s₄.addRows_later rows) rfl)).setDepth hReset).weaken (by simp) (by simp)
      (fun _ => id) (fun _ => .inl) And.left
  have hHandled := hGuarded.withHandler (.refl _ s₁) rfl hDepth hLast ?_ fun row hAdded => ?_
  · refine After.land (Q := Leaves whole flow z) (f := fun _ => Pure.pure a) (fun _ hSite => .inl (.inr hSite))
      (.done fun r hr => ⟨hr.mono (fun _ hk => .inl (.inl hk)) (by grind) ?_, ha⟩) s₅ o t hHandled h
    rintro (hNo | hSites)
    · exact hNo.elim
    · cases hCompletes : a.completes with
      | true => rfl
      | false =>
        rw [hCompletes] at hDone
        exact (hSites hDone.1).elim
  · have := hKept.later.next_le
    have := emit_next hThrow
    have := hEnd.2.2
    omega
  · have hBefore := hSet.1.trans hPart.later
    rcases hAdded.split hGuarded.later (hBefore.trans hEnd.1) with hOld | hNew
    · exact .inl hOld
    · rcases hNew.split hBefore hEnd.1 with hInside | hHere
      · exact .inr (.inl (hInside.congr hSet.2 rfl))
      · obtain ⟨hLt, hCovers⟩ := hRows row (mem_of_added_addRows (hHere.congr rfl hEnd.2.1))
        refine .inr (.inr ⟨_, ?_, hLt, hCovers⟩)
        exact (Between.of_later (.refl (fun _ => False) z) hUpTo.later).later hUpTo.later hJumped.later

theorem synchronized {lock : Expr} (hBody : body.Flows whole) : (synchronized ctx lock body).Flows whole := by
  intro flow s o t h
  refine After.first (Q := Leaves whole flow s) h (Moves.value lock : Moves whole _) fun type => .refuseIf <|
    .move (.ofGrowing (.reserve ..)) fun slot => .move (.emit rfl) fun _ => .move (.store _ _) fun _ =>
      .move (.emit rfl) fun _ => ?_
  intro r o t hLocked h
  obtain ⟨_, _, hHere, h⟩ := bind_ok.1 h
  obtain ⟨rfl, rfl⟩ := here_ok.1 hHere
  have hGuarded : Leaves whole flow r o t :=
    After.firstPart (Q := Leaves whole flow r) h (hBody _) fun a ha => .ite
      (fun _ => .move (.load _ _) fun _ => .move (.emit rfl) fun _ => unlocking ha.ofMonitor)
        fun _ => unlocking ha.ofMonitor
  exact ⟨(hLocked.append hGuarded.stretch).mono (fun _ => .inr) (by simp) And.right, hGuarded.taken⟩

theorem declare {decls : List VariableDecl} : (declare ctx decls).Flows whole := by
  refine ofEmit (.forM fun d _ => .bind (.ofGrowing (.lift _)) fun type => .bind (.ofGrowing (.slotOf nofun))
    fun slot => ?_)
  split
  · exact .pure ()
  · next init _ => exact .bind (.ofGrowing ((compile_grows_untyped ctx init).valueAs type)) fun _ => .store _ _

end StmtCode.Flows

/-! All statements. -/

section

open StmtCode.Flows

variable {whole : Prop} {ctx : TypingContext}

theorem compileCases_length (cases : List SwitchCase) :
    (cases.map SwitchCase.labels).length = (compileCases ctx cases).length := by
  induction cases with
  | nil => rfl
  | cons case rest ih =>
    cases case with
    | mk labels isDefault body => rw [compileCases, List.map_cons, List.length_cons, List.length_cons, ih]

mutual

/-- The code of a statement is passed only if it counts as passed. -/
theorem compileStmt_flows : (stmt : Stmt) → (compileStmt ctx stmt).Flows whole
  | .block body => compileBlock_flows body
  | .decl _ => declare
  | .expr e => ofEmit (.effect e)
  | .ifThen _ body => ifThen (compileStmt_flows body)
  | .ifElse _ body otherwise => ifElse (compileStmt_flows body) (compileStmt_flows otherwise)
  | .whileLoop _ body => whileLoop (compileStmt_flows body)
  | .doLoop body _ => doLoop (compileStmt_flows body)
  | .forLoop init _ _ body => forLoop (compileBlock_flows init) (compileStmt_flows body)
  | .switch _ cases => switch (compileCases_flows cases) (compileCases_length cases)
  | .tryCatch body catches => tryBlock (compileBlock_flows body) (compileCatches_flows catches) nofun
  | .tryFinally body catches last =>
    tryBlock (compileBlock_flows body) (compileCatches_flows catches)
      fun _ hCode => Option.some.inj hCode ▸ compileBlock_flows last
  | .synchronized _ body => synchronized (compileBlock_flows body)
  | .ret _ => ret
  | .raise _ => raise
  | .breakTo none => jump nofun
  | .continueTo none => jump nofun
  | .breakTo (some _) | .continueTo (some _) => fun _ _ _ _ h => (not_throw_ok h).elim
  | .labeled _ body => compileStmt_flows body
  | .empty => ofEmit (.pure ())

theorem compileBlock_flows : (body : List Stmt) → (compileBlock ctx body).Flows whole
  | [] => ofEmit (.pure ())
  | stmt :: rest => andThen (compileStmt_flows stmt) (compileBlock_flows rest)

theorem compileCases_flows : (cases : List SwitchCase) → ∀ group ∈ compileCases ctx cases, group.2.Flows whole
  | [] => nofun
  | .mk _ _ body :: rest => fun group hGroup => by
    rcases List.mem_cons.1 hGroup with rfl | hRest
    · exact compileBlock_flows body
    · exact compileCases_flows rest group hRest

theorem compileCatches_flows : (catches : List CatchClause) → ∀ c ∈ compileCatches ctx catches, c.2.Flows whole
  | [] => nofun
  | .mk param body :: rest => fun c hc => by
    rcases List.mem_cons.1 hc with rfl | hRest
    · exact compileBlock_flows body
    · exact compileCatches_flows rest c hRest

end

end

/-- Nothing is pending after the body of a method. -/
theorem compileBlock_pending_top {ctx : TypingContext} {body : List Stmt} {s t : EmitState}
    (h : compileBlock ctx body .top s = .ok o t) : o.pending = [] := by
  have hFlows : Paths.Leaves False .top s o t := compileBlock_flows body .top s o t h
  refine List.eq_nil_iff_forall_not_mem.2 fun p hp => ?_
  have hTaken := hFlows.taken p hp
  cases hKind : p.exit <;> simp [hKind, Flow.Takes, Flow.top] at hTaken

end JavaFragment
