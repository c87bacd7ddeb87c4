import JavaFragment.Class.Library
import JavaFragment.Proofs.CheckedTrees
import JavaFragment.Proofs.Numbering
import JavaFragment.Proofs.StatementConduct
import JavaFragment.Session.Basic
import Mathlib
/-!
The locals of a session. The fragments of a session share the locals of the method around them: the
receiver, the parameters, the variables of every fragment and the values that wait while control leaves a
statement. Each has locals of its own, whatever is compiled and whether or not it is refused on the way.
-/
namespace JavaFragment

namespace LocalUse

/-- The first local after a value. -/
def stop (use : LocalUse) : Nat := use.first.toNat + use.type.slots

/-- A local is one of those that hold a value. -/
def Covers (use : LocalUse) (n : Nat) : Prop := use.first.toNat ≤ n ∧ n < use.stop

/-- Values that take the locals below a limit one after another, the last of them first. -/
def Stacked : List LocalUse → Nat → Prop
  | [], limit => limit = 0
  | use :: rest, limit => use.stop = limit ∧ Stacked rest use.first.toNat

namespace Stacked

variable {uses : List LocalUse} {limit : Nat}

theorem stop_le (h : Stacked uses limit) : ∀ use ∈ uses, use.stop ≤ limit := by
  induction uses generalizing limit with
  | nil => nofun
  | cons last rest ih =>
    obtain ⟨rfl, hRest⟩ := h
    intro use hUse
    rcases List.mem_cons.1 hUse with rfl | hOld
    · exact Nat.le_refl _
    · exact Nat.le_trans (ih hRest use hOld) (Nat.le_add_right ..)

/-- No local is taken twice. -/
theorem pairwise (h : Stacked uses limit) : uses.Pairwise fun a b => ∀ n, ¬ (a.Covers n ∧ b.Covers n) := by
  induction uses generalizing limit with
  | nil => exact .nil
  | cons last rest ih =>
    obtain ⟨rfl, hRest⟩ := h
    refine .cons (fun use hUse n hBoth => ?_) (ih hRest)
    have hBelow := hRest.stop_le use hUse
    have hLast := hBoth.1.1
    have hOld := hBoth.2.2
    omega

/-- The locals below the limit are all taken, and no others. -/
theorem covers_iff (h : Stacked uses limit) (n : Nat) : n < limit ↔ ∃ use ∈ uses, use.Covers n := by
  induction uses generalizing limit with
  | nil =>
    have hLimit : limit = 0 := h
    simp [hLimit]
  | cons last rest ih =>
    obtain ⟨rfl, hRest⟩ := h
    have hLe : last.first.toNat ≤ last.stop := Nat.le_add_right ..
    simp only [List.mem_cons, exists_eq_or_imp]
    rw [← ih hRest]
    unfold Covers
    omega

end Stacked

end LocalUse

/-- The locals of a buffer as a table of slots tells them: each variable with a slot has the locals from
there on that a value of its type needs. -/
structure LaidOut (ctx : TypingContext) (vars : List Variable) (code : CodeBuffer)
    (slots : VariableSlots) : Prop where
  stacked : LocalUse.Stacked code.uses code.maxLocals.toNat
  size : slots.size = vars.length
  slot_iff : ∀ n first, (slots[n]?).join = some first ↔ ∃ type, ⟨.variable n, type, first⟩ ∈ code.uses
  typed : ∀ n type first, ⟨.variable n, type, first⟩ ∈ code.uses →
    ∃ v : Variable, v.number = n ∧ v.KnownIn vars ∧ ctx.variableType v = .ok type

namespace LaidOut

variable {ctx : TypingContext} {vars : List Variable} {s t : EmitState}

/-- One step of emission. -/
theorem step (hs : LaidOut ctx vars s.code s.slots) (hStep : s.LocalStep ctx (Variable.KnownIn vars) t) :
    LaidOut ctx vars t.code t.slots ∧ s.code.uses <:+ t.code.uses := by
  cases hStep with
  | nothing hSlots hUses hLocals =>
    refine ⟨⟨?_, ?_, ?_, ?_⟩, hUses ▸ List.suffix_refl _⟩
    · rw [hUses, hLocals]; exact hs.stacked
    · rw [hSlots]; exact hs.size
    · rw [hUses, hSlots]; exact hs.slot_iff
    · rw [hUses]; exact hs.typed
  | hidden hHidden hReserved hSlots =>
    rename_i purpose type
    -- A variable's use is an old one, as the new one is for something else.
    have hOld {n : Nat} {type' : JavaType} {first : UInt16}
        (h : (⟨.variable n, type', first⟩ : LocalUse) ∈ t.code.uses) :
        ⟨.variable n, type', first⟩ ∈ s.code.uses := by
      rw [hReserved.uses] at h
      rcases List.mem_cons.1 h with hNew | hOld
      · exact (hHidden n (congrArg LocalUse.purpose hNew).symm).elim
      · exact hOld
    refine ⟨⟨?_, ?_, fun n first => ?_, fun n type' first h => hs.typed n type' first (hOld h)⟩, ?_⟩
    · rw [hReserved.uses]
      exact ⟨hReserved.locals.symm, hs.stacked⟩
    · rw [hSlots]; exact hs.size
    · rw [hSlots, hs.slot_iff]
      refine exists_congr fun type' => ⟨fun h => ?_, hOld⟩
      rw [hReserved.uses]
      exact List.mem_cons_of_mem _ h
    · rw [hReserved.uses]
      exact List.suffix_cons ..
  | ofVariable hKnown hType hFresh hReserved hSlots =>
    rename_i v type
    have hLt : v.number < s.slots.size := by
      rw [hs.size]
      exact (List.getElem?_eq_some_iff.1 hKnown).1
    have hSlot (n : Nat) : (t.slots[n]?).join = if v.number = n then some s.code.maxLocals else (s.slots[n]?).join := by
      rw [hSlots, Array.set!_eq_setIfInBounds, Array.getElem?_setIfInBounds]
      by_cases hSame : v.number = n
      · simp [hSame, hSame ▸ hLt]
      · simp [hSame]
    refine ⟨⟨?_, ?_, fun n first => ?_, fun n type' first h => ?_⟩, ?_⟩
    · rw [hReserved.uses]
      exact ⟨hReserved.locals.symm, hs.stacked⟩
    · rw [hSlots, Array.set!_eq_setIfInBounds, Array.size_setIfInBounds]
      exact hs.size
    · rw [hSlot, hReserved.uses]
      by_cases hSame : v.number = n
      · subst hSame
        have hNone (type' : JavaType) : ⟨.variable v.number, type', first⟩ ∉ s.code.uses := fun h => by
          have hSome := (hs.slot_iff v.number first).2 ⟨type', h⟩
          rw [show (s.slots[v.number]?).join = none from hFresh] at hSome
          cases hSome
        simp [hNone, eq_comm]
      · simp [hSame, hs.slot_iff, Ne.symm hSame]
    · rw [hReserved.uses] at h
      rcases List.mem_cons.1 h with hNew | hOld
      · cases hNew
        exact ⟨v, rfl, hKnown, hType⟩
      · exact hs.typed n type' first hOld
    · rw [hReserved.uses]
      exact List.suffix_cons ..

/-- Any number of steps of emission. -/
theorem steps (hs : LaidOut ctx vars s.code s.slots)
    (hSteps : Relation.ReflTransGen (EmitState.LocalStep ctx (Variable.KnownIn vars)) s t) :
    LaidOut ctx vars t.code t.slots ∧ s.code.uses <:+ t.code.uses := by
  induction hSteps with
  | refl => exact ⟨hs, List.suffix_refl _⟩
  | tail _ hLast ih =>
    obtain ⟨hLaid, hUses⟩ := ih
    obtain ⟨hNext, hMore⟩ := hLaid.step hLast
    exact ⟨hNext, hUses.trans hMore⟩

/-- Only the types of known variables matter. -/
theorem congr {ctx' : TypingContext} {code : CodeBuffer} {slots : VariableSlots} (h : LaidOut ctx vars code slots)
    (hTypes : ∀ v : Variable, v.KnownIn vars → ctx'.variableType v = ctx.variableType v) :
    LaidOut ctx' vars code slots :=
  { h with
    typed := fun n type first hUse => by
      obtain ⟨v, hNumber, hKnown, hType⟩ := h.typed n type first hUse
      exact ⟨v, hNumber, hKnown, (hTypes v hKnown).trans hType⟩ }

end LaidOut

/-! Sessions. -/

namespace Session

/-- The variables that were declared so far have numbers of their own, and the locals are laid out. -/
structure Settled (vars : List Variable) (s : Session) : Prop where
  laid : LaidOut s.context vars s.code s.locals.slots
  placed : s.code.Placed
  types : s.locals.types.size = vars.length
  scope : s.scope.All (Variable.KnownIn vars)
  params : ∀ params, s.bindings.params = some params → ∀ v ∈ params.vars, v.KnownIn vars
  proceed : s.bindings.proceed = none

theorem Settled.known {vars : List Variable} {s : Session} (h : s.Settled vars) :
    s.context.Known (Variable.KnownIn vars) where
  params params hGet v hv := by
    unfold Bindings.getParams at hGet
    split at hGet
    · next found hFound =>
      cases hGet
      exact h.params params hFound v hv
    · cases hGet
  proceed target hTarget := by
    rw [show s.context.bindings.proceed = none from h.proceed] at hTarget
    cases hTarget

end Session

theorem Locals.join_getElem?_pad {α : Type} (xs : Array (Option α)) (count n : Nat) :
    ((xs ++ Array.replicate count none)[n]?).join = (xs[n]?).join := by
  rw [Array.getElem?_append]
  split
  · rfl
  · next hGe =>
    rw [Array.getElem?_eq_none (Nat.le_of_not_lt hGe), Array.getElem?_replicate]
    split <;> rfl

namespace Session

variable {vars : List Variable} {s : Session} {r t : Session} {α β : Type} {types : List JavaType} {next : UInt16}
  {isStatic : Bool}

/-- What is known of the variables, and nothing else of a session, tells their types. -/
theorem variableType_congr {v : Variable} (hView : t.view = s.view)
    (hType : (t.locals.types[v.number]?).join = (s.locals.types[v.number]?).join) :
    t.context.variableType v = s.context.variableType v := by
  unfold TypingContext.variableType
  rw [show t.context.types = t.locals.types from rfl, show s.context.types = s.locals.types from rfl, hType,
    show t.context.view = t.view from rfl, hView]
  rfl

/-- More variables of which nothing is known yet. -/
theorem Settled.extend (hs : s.Settled vars) {later : List Variable} (hLater : vars <+: later)
    {scope : Scope} (hScope : scope.All (Variable.KnownIn later)) :
    { s with scope := scope, locals := s.locals.extend later.length }.Settled later where
  laid :=
    { stacked := hs.laid.stacked
      size := by
        have hLe := hLater.length_le
        have hSize := hs.laid.size
        simp only [Locals.extend, Array.size_append, Array.size_replicate]
        omega
      slot_iff := fun n first => by
        rw [show (s.locals.extend later.length).slots = s.locals.slots ++ _ from rfl, Locals.join_getElem?_pad]
        exact hs.laid.slot_iff n first
      typed := fun n type first hUse => by
        obtain ⟨v, hNumber, hKnown, hType⟩ := hs.laid.typed n type first hUse
        refine ⟨v, hNumber, hKnown.later hLater, Eq.trans ?_ hType⟩
        exact variableType_congr rfl (Locals.join_getElem?_pad ..) }
  placed := hs.placed
  types := by
    have hLe := hLater.length_le
    have hSize := hs.types
    simp only [Locals.extend, Array.size_append, Array.size_replicate]
    omega
  scope := hScope
  params params hParams v hv := (hs.params params hParams v hv).later hLater
  proceed := hs.proceed

/-- Settled again, with everything still reserved that was. -/
structure Leads (s t : Session) : Prop where
  settled : ∃ vars, t.Settled vars
  uses : s.code.uses <:+ t.code.uses
  params : t.bindings.params = s.bindings.params

theorem Leads.trans (h : s.Leads r) (h' : r.Leads t) : s.Leads t :=
  ⟨h'.settled, h.uses.trans h'.uses, h'.params.trans h.params⟩

theorem Leads.after (h : r.Leads t) (hCode : r.code = s.code) (hBindings : r.bindings = s.bindings) : s.Leads t :=
  ⟨h.settled, hCode ▸ h.uses, h.params.trans (by rw [hBindings])⟩

/-- A computation ends in a state, be it refused or not. -/
def Ends {α : Type} (x : SessionM α) (s t : Session) : Prop := (∃ e, x s = .error e t) ∨ ∃ a, x s = .ok a t

section

variable {α β : Type} {x : SessionM α} {f : α → SessionM β} {r t : Session}

theorem ends_of_error {e : CompileError} (h : x s = .error e t) : Ends (x >>= f) s t :=
  .inl ⟨e, by simp only [Bind.bind, EStateM.bind, h]⟩

theorem ends_of_ok {a : α} (h : x s = .ok a r) (hRest : Ends (f a) r t) : Ends (x >>= f) s t := by
  simpa only [Ends, Bind.bind, EStateM.bind, h] using hRest

theorem ends_map {g : α → β} (h : Ends x s t) : Ends (g <$> x) s t := by
  rw [map_eq_pure_bind]
  rcases h with ⟨e, hRun⟩ | ⟨a, hRun⟩
  · exact ends_of_error hRun
  · exact ends_of_ok hRun (.inr ⟨g a, rfl⟩)

end

/-- A step of a session that leads on from every settled state, be it refused or not. -/
def Keeps {α : Type} (x : SessionM α) : Prop := ∀ vars s, s.Settled vars → ∃ t, s.Leads t ∧ Ends x s t

theorem Keeps.map {x : SessionM α} (f : α → β) (hx : Keeps x) : Keeps (f <$> x) := by
  intro vars s hs
  obtain ⟨t, hLeads, hEnds⟩ := hx vars s hs
  exact ⟨t, hLeads, ends_map hEnds⟩

/-- Reading a text makes the variables known that it declares. -/
theorem Settled.read {reader : Reader α} {out : α → List Variable} (hs : s.Settled vars)
    (hReader : reader.Mentions out) (source : String) :
    ∃ later t, t.Settled later ∧ t.code = s.code ∧ t.bindings = s.bindings ∧
      ((∃ e, read reader source s = .error e t) ∨
        ∃ tree, read reader source s = .ok tree t ∧ ∀ v ∈ out tree, v.KnownIn later) := by
  obtain ⟨later, hLater, hNext, hScope, hTree⟩ := readSource_numbers hReader source hs.scope
  rw [← hs.types, show s.locals.types.size = s.locals.count from rfl] at hNext hScope hTree
  refine ⟨later, _, hs.extend hLater hScope, rfl, rfl, ?_⟩
  simp only [Session.read, Bind.bind, EStateM.bind, MonadState.get, getThe, MonadStateOf.get, EStateM.get,
    MonadStateOf.set, EStateM.set, set, hNext]
  cases hResult : (readSource reader source s.scope s.locals.count).result with
  | ok tree => exact .inr ⟨tree, rfl, hTree tree hResult⟩
  | error e => exact .inl ⟨_, rfl⟩

/-- A check changes no state, and what it gives back is the tree or what is left of it. -/
theorem checked_cases (check : α → Checked α β) (tree : α) (s : Session) : (∃ e, checked check tree s = .error e s) ∨
      ∃ tree', checked check tree s = .ok tree' s ∧ (tree' = tree ∨ tree' = (check tree).tree) := by
  simp only [checked, Bind.bind, EStateM.bind, MonadState.get, getThe, MonadStateOf.get, EStateM.get]
  by_cases hAsked : s.options.typeCheck
  · rw [if_pos hAsked]
    cases (check tree).outcome with
    | ok b => exact .inr ⟨_, rfl, .inr rfl⟩
    | error e => exact .inl ⟨e, rfl⟩
  · rw [if_neg hAsked]
    exact .inr ⟨tree, rfl, .inl rfl⟩

/-- What emission starts from. -/
def emitState (s : Session) : EmitState := ⟨s.code, s.pool, s.locals.slots, s.accessors, #[]⟩

/-- What emission leaves. -/
def withEmitted (s : Session) (e : EmitState) : Session :=
  { s with pool := e.pool, locals.slots := e.slots, accessors := e.accessors, code := e.code }

section

variable {α : Type} {x : Emit α} {e : EmitState}

theorem emit_of_ok {a : α} (h : x s.emitState = .ok a e) : emit x s = .ok a (s.withEmitted e) := by
  simp only [emit, emitInto, EStateM.run]
  rw [show x ⟨s.code, s.pool, s.locals.slots, s.accessors, #[]⟩ = .ok a e from h]
  rfl

theorem emit_of_error {fault : CompileError} (h : x s.emitState = .error fault e) :
    emit x s = .error fault (s.withEmitted e) := by
  simp only [emit, emitInto, EStateM.run]
  rw [show x ⟨s.code, s.pool, s.locals.slots, s.accessors, #[]⟩ = .error fault e from h]
  rfl

/-- Emission of code that reserves locals for known variables. -/
theorem Settled.emit (hs : s.Settled vars) (hx : Emit.Reserving s.context (Variable.KnownIn vars) x) :
    ∃ t, s.Leads t ∧ Ends (emit x) s t := by
  have hLeads (e : EmitState) (hPlaced : e.code.Placed)
      (hNext : s.emitState.Continues (.ofKnown s.context (Variable.KnownIn vars)) e) : s.Leads (s.withEmitted e) := by
    obtain ⟨hLaid, hUses⟩ := LaidOut.steps (s := s.emitState) hs.laid hNext.steps
    exact ⟨⟨vars, hLaid, hPlaced, hs.types, hs.scope, hs.params, hs.proceed⟩, hUses, rfl⟩
  cases hRun : x s.emitState with
  | ok a e =>
    obtain ⟨hSound, hNext, -⟩ := (hx _).ok _ a e (.refl _) ⟨hs.placed, False.elim⟩ hRun
    exact ⟨_, hLeads e hSound.1 hNext, .inr ⟨a, emit_of_ok hRun⟩⟩
  | error fault e =>
    obtain ⟨hSound, hNext, -⟩ := (hx _).error _ fault e (.refl _) ⟨hs.placed, False.elim⟩ hRun
    exact ⟨_, hLeads e hSound.1 hNext, .inl ⟨fault, emit_of_error hRun⟩⟩

end

/-- A fragment is read, checked if the options ask for it, and compiled into the open buffer. -/
theorem compile_keeps {γ : Type} {reader : Reader α} {out : α → List Variable}
    (hReader : reader.Mentions out) {check : TypingContext → α → Checked α β}
    (hCheck : ∀ ctx tree, out (check ctx tree).tree ⊆ out tree) {code : TypingContext → α → Emit γ}
    (hCode : ∀ ctx vars tree, ctx.Known (Variable.KnownIn vars) → (∀ v ∈ out tree, v.KnownIn vars) →
      Emit.Reserving ctx (Variable.KnownIn vars) (code ctx tree)) (source : String) :
    Keeps (do
      let tree ← read reader source
      let ctx := (← get).context
      let tree ← checked (check ctx) tree
      emit (code ctx tree)) := by
  intro vars s hs
  obtain ⟨later, r, hr, hSame, hBindings, hRead⟩ := hs.read hReader source
  rcases hRead with ⟨e, hRead⟩ | ⟨tree, hRead, hTree⟩
  · exact ⟨r, .after ⟨⟨later, hr⟩, List.suffix_refl _, rfl⟩ hSame hBindings, ends_of_error hRead⟩
  rcases checked_cases (check r.context) tree r with ⟨e, hRefused⟩ | ⟨tree', hPassed, hFrom⟩
  · exact ⟨r, .after ⟨⟨later, hr⟩, List.suffix_refl _, rfl⟩ hSame hBindings,
      ends_of_ok hRead (ends_of_ok rfl (ends_of_error hRefused))⟩
  have hTree' (v : Variable) (hv : v ∈ out tree') : v.KnownIn later := by
    rcases hFrom with rfl | rfl
    · exact hTree v hv
    · exact hTree v (hCheck _ _ hv)
  obtain ⟨t, hLeads, hEnds⟩ := hr.emit (hCode _ _ tree' hr.known hTree')
  exact ⟨t, hLeads.after hSame hBindings, ends_of_ok hRead (ends_of_ok rfl (ends_of_ok hPassed hEnds))⟩

theorem compileStatements_keeps (source : String) : Keeps (compileStatements source) :=
  compile_keeps readStatements_mentions TypingContext.variables_checkBlock
    (fun _ _ _ hKnown hBody s => .andThen (compileBlock_reserves hKnown hBody s) fun _ _ _ => .done) source

theorem compileExpression_keeps (source : String) : Keeps (compileExpression source) :=
  compile_keeps readExpression_mentions TypingContext.variables_check
    (fun _ _ _ hKnown he => compile_reserves hKnown he) source

theorem finishCode_keeps : Keeps finishCode := by
  intro vars s hs
  refine ⟨{ s with code := s.code.cleared },
    ⟨⟨vars, ⟨⟨hs.laid.stacked, hs.laid.size, hs.laid.slot_iff, hs.laid.typed⟩, rfl, hs.types, hs.scope, hs.params,
      hs.proceed⟩⟩, List.suffix_refl _, rfl⟩, ?_⟩
  refine ends_of_ok rfl (ends_of_ok rfl ?_)
  cases s.code.finish with
  | ok body => exact .inr ⟨body, rfl⟩
  | error fault => exact .inl ⟨_, rfl⟩

/-- A variable of known type is declared, for which the next locals are reserved. -/
def declaring (s : Session) (name : String) (type : JavaType) (code : CodeBuffer) : Session :=
  { s with
    scope := s.scope.declare (s.locals.bind name type s.code.maxLocals).1
    locals := (s.locals.bind name type s.code.maxLocals).2
    code := code }

theorem Settled.declaring (hs : s.Settled vars) (name : String) (type : JavaType) (code : CodeBuffer)
    (hLocals : code.maxLocals.toNat = s.code.maxLocals.toNat + type.slots)
    (hUses : code.uses = ⟨.variable s.locals.count, type, s.code.maxLocals⟩ :: s.code.uses) (hPlaced : code.Placed) :
    (s.declaring name type code).Settled (vars ++ [(s.locals.bind name type s.code.maxLocals).1]) := by
  let v : Variable := ⟨s.locals.count, name, .ofType type⟩
  show (s.declaring name type code).Settled (vars ++ [v])
  have hCount : s.locals.count = vars.length := hs.types
  have hNew : v.KnownIn (vars ++ [v]) := by simp only [Variable.KnownIn, v, hCount, List.getElem?_concat_length]
  have hPrefix : vars <+: vars ++ [v] := List.prefix_append ..
  have hOld {n : Nat} {type' : JavaType} {first : UInt16}
      (h : (⟨.variable n, type', first⟩ : LocalUse) ∈ s.code.uses) : n < vars.length := by
    obtain ⟨w, rfl, hKnown, -⟩ := hs.laid.typed n type' first h
    exact (List.getElem?_eq_some_iff.1 hKnown).1
  refine ⟨⟨?_, ?_, fun n first => ?_, fun n type' first h => ?_⟩, hPlaced, ?_, ?_, ?_, hs.proceed⟩
  · rw [show (s.declaring name type code).code = code from rfl, hUses]
    exact ⟨hLocals.symm, hs.laid.stacked⟩
  · simp [Session.declaring, Locals.bind, hs.laid.size]
  · have hSlot : ((s.declaring name type code).locals.slots[n]?).join =
        if n = vars.length then some s.code.maxLocals else (s.locals.slots[n]?).join := by
      rw [show (s.declaring name type code).locals.slots = s.locals.slots.push (some s.code.maxLocals) from rfl,
        Array.getElem?_push, hs.laid.size]
      split <;> rfl
    rw [hSlot, show (s.declaring name type code).code = code from rfl, hUses, hCount]
    by_cases hSame : n = vars.length
    · subst hSame
      have hNone (type' : JavaType) : ⟨.variable vars.length, type', first⟩ ∉ s.code.uses := fun h =>
        Nat.lt_irrefl _ (hOld h)
      simp [hNone, eq_comm]
    · simp [hSame, hs.laid.slot_iff]
  · rw [show (s.declaring name type code).code = code from rfl, hUses] at h
    rcases List.mem_cons.1 h with hFirst | hRest
    · cases hFirst
      refine ⟨v, rfl, hNew, ?_⟩
      unfold TypingContext.variableType
      rw [show (s.declaring name type code).context.types = s.locals.types.push (some type) from rfl,
        show v.number = s.locals.types.size from rfl, Array.getElem?_push_size]
      rfl
    · obtain ⟨w, hNumber, hKnown, hType⟩ := hs.laid.typed n type' first hRest
      refine ⟨w, hNumber, hKnown.later hPrefix,
        (variableType_congr (s := s) (t := s.declaring name type code) rfl ?_).trans hType⟩
      have hLt : w.number < s.locals.types.size := by
        rw [hs.types]
        exact (List.getElem?_eq_some_iff.1 hKnown).1
      rw [show (s.declaring name type code).locals.types = s.locals.types.push (some type) from rfl,
        Array.getElem?_push_lt hLt]
      simp [hLt]
  · simp [Session.declaring, Locals.bind, hs.types]
  · exact (hs.scope.later hPrefix).declare hNew
  · exact fun params hParams w hw => (hs.params params hParams w hw).later hPrefix

theorem recordVariable_keeps (type : JavaType) (name : String) : Keeps (recordVariable type name) := by
  intro vars s hs
  cases hRun : Emit.reserve (.variable s.locals.count) type s.emitState with
  | ok slot e =>
    obtain ⟨rfl, hReserved, hSlots⟩ := Emit.reserved_of_ok hRun
    obtain ⟨-, -, rfl⟩ := Emit.reserve_ok hRun
    refine ⟨s.declaring name type _, ⟨⟨_, hs.declaring name type _ hReserved.locals hReserved.uses hs.placed⟩, ?_, rfl⟩,
      ends_of_ok rfl (ends_of_ok (emit_of_ok hRun) (.inr ⟨_, rfl⟩))⟩
    exact List.suffix_cons ..
  | error fault e =>
    obtain ⟨rfl, -⟩ := Emit.reserve_error hRun
    exact ⟨s, ⟨⟨vars, hs⟩, List.suffix_refl _, rfl⟩, ends_of_ok rfl (ends_of_error (emit_of_error hRun))⟩

theorem recordResult_keeps (type : JavaType) (withVariable : Bool) : Keeps (recordResult type withVariable) := by
  intro vars s hs
  let r : Session := { s with bindings := { s.bindings with result := some type } }
  have hr : r.Settled vars := ⟨hs.laid.congr fun _ _ => rfl, hs.placed, hs.types, hs.scope, hs.params, hs.proceed⟩
  by_cases hAsked : (withVariable && !type.isVoid) = true
  · obtain ⟨t, hLeads, hEnds⟩ := recordVariable_keeps type resultName vars r hr
    refine ⟨t, ⟨hLeads.settled, hLeads.uses, hLeads.params⟩, ends_of_ok (r := r) rfl ?_⟩
    rw [if_pos hAsked]
    exact ends_map hEnds
  · refine ⟨r, ⟨⟨vars, hr⟩, List.suffix_refl _, rfl⟩, ends_of_ok (r := r) rfl ?_⟩
    rw [if_neg hAsked]
    exact .inr ⟨none, rfl⟩

/-! The parameters. -/

/-- Parameters are declared one after another, each in the locals after the one before it. -/
theorem Settled.declareParams {number : Nat} (hs : s.Settled vars)
    (hNext : (declareParams number s.code.maxLocals s.scope s.locals types).next = some next) :
    let d := declareParams number s.code.maxLocals s.scope s.locals types
    ∃ later, { s with
        scope := d.scope
        locals := d.locals
        code := { s.code with maxLocals := next, uses := d.uses ++ s.code.uses } }.Settled later ∧
      vars <+: later ∧ (∀ v ∈ d.vars, v.KnownIn later) ∧ d.vars.length = types.length ∧
      ∀ k v type, d.vars[k]? = some v → types[k]? = some type →
        v.name = "$" ++ toString (number + k) ∧ ∃ first, ⟨.variable v.number, type, first⟩ ∈ d.uses := by
  induction types generalizing s vars number with
  | nil =>
    cases hNext
    refine ⟨vars, hs, List.prefix_refl _, nofun, rfl, ?_⟩
    intro k v type hv
    simp [JavaFragment.declareParams] at hv
  | cons type rest ih =>
    by_cases hFits : s.code.maxLocals.toNat + type.slots < 65536
    · -- The parameters that follow are declared where the first one leaves off.
      let name := "$" ++ toString number
      let v := (s.locals.bind name type s.code.maxLocals).1
      let use : LocalUse := ⟨.variable v.number, type, s.code.maxLocals⟩
      let r := s.declaring name type { s.code with
        maxLocals := (s.code.maxLocals.toNat + type.slots).toUInt16, uses := use :: s.code.uses }
      have hr : r.Settled (vars ++ [v]) := hs.declaring name type _ (by simpa using hFits) rfl hs.placed
      let others := JavaFragment.declareParams (number + 1) r.code.maxLocals r.scope r.locals rest
      have hSplit : JavaFragment.declareParams number s.code.maxLocals s.scope s.locals (type :: rest) =
          { others with vars := v :: others.vars, uses := others.uses ++ [use] } :=
        if_pos hFits
      rw [hSplit] at hNext ⊢
      obtain ⟨later, hLater, hPrefix, hKnown, hLength, hEach⟩ := ih hr hNext
      have hv : v.KnownIn later := by
        refine Variable.KnownIn.later ?_ hPrefix
        simp only [Variable.KnownIn, show v.number = vars.length from hs.types, List.getElem?_concat_length]
      refine ⟨later, ?_, (List.prefix_append ..).trans hPrefix, ?_, congrArg (· + 1) hLength, ?_⟩
      · have hUses : others.uses ++ [use] ++ s.code.uses = others.uses ++ r.code.uses := by simp [r, Session.declaring]
        simp only [hUses]
        exact hLater
      · intro w hw
        rcases List.mem_cons.1 hw with rfl | hRest
        · exact hv
        · exact hKnown w hRest
      · intro k w type' hw hType
        cases k with
        | zero =>
          cases hw
          cases hType
          exact ⟨rfl, s.code.maxLocals, by simp [use]⟩
        | succ k =>
          obtain ⟨hName, first, hUse⟩ := hEach k w type' hw hType
          refine ⟨by rw [hName]; congr 2; omega, first, List.mem_append_left _ hUse⟩
    · have hNone : (JavaFragment.declareParams number s.code.maxLocals s.scope s.locals (type :: rest)).next =
          none := congrArg DeclaredParams.next (if_neg hFits)
      rw [hNone] at hNext
      cases hNext

/-- Nothing is declared at first. -/
theorem settled_start (table : ClassTable) (thisClass : String) (options : Options) (pool : ConstantPool)
    (isStatic : Bool) : { start table thisClass options pool with isStatic := isStatic }.Settled [] where
  laid := ⟨rfl, rfl, by simp [start, Locals.empty, CodeBuffer.empty, CodeBuffer.withLocals], nofun⟩
  placed := rfl
  types := rfl
  scope := by simp [Scope.All, start, Scope.empty]
  params := nofun
  proceed := rfl

/-- The receiver is declared before the parameters. The number of locals counts it only with them. -/
def withReceiver (s : Session) : Session :=
  { s with
    isStatic := false
    scope := s.scope.declare (s.locals.bind "$0" (.ofClass s.thisClass) 0).1
    locals := (s.locals.bind "$0" (.ofClass s.thisClass) 0).2
    code := s.code.note [⟨.variable s.locals.count, .ofClass s.thisClass, 0⟩] }

/-- The parameters are declared from a slot on. -/
def withParams (s : Session) (slot next : UInt16) (types : List JavaType) (isStatic : Bool) : Session :=
  let d := JavaFragment.declareParams 1 slot s.scope s.locals types
  { s with
    scope := d.scope
    locals := d.locals
    code := (s.code.ensureLocals next).note d.uses
    bindings := { s.bindings with params := some ⟨d.vars, types, s.thisClass, isStatic⟩ } }

/-- The session in which the parameters are declared. -/
def inMethod (s : Session) (isStatic : Bool) : Session :=
  if isStatic then { s with isStatic := true } else s.withReceiver

theorem recordParams_ok (h : recordParams types isStatic r = .ok next s) :
    (JavaFragment.declareParams 1 (if isStatic then 0 else 1) (r.inMethod isStatic).scope
        (r.inMethod isStatic).locals types).next = some next ∧
      s = (r.inMethod isStatic).withParams (if isStatic then 0 else 1) next types isStatic := by
  have hModify {c : Prop} [Decidable c] {f : Session → Session} {k : SessionM UInt16} {s : Session} :
      (if c then modify f >>= fun _ => k else k) s = k (if c then f s else s) := by split <;> rfl
  obtain ⟨_, _, hStatic, h⟩ := Emit.bind_ok.1 h
  obtain rfl := Emit.modify_ok.1 hStatic
  rw [hModify, show (if (!isStatic) = true then _ else _) = r.inMethod isStatic by cases isStatic <;> rfl] at h
  obtain ⟨_, _, hGet, h⟩ := Emit.bind_ok.1 h
  obtain ⟨rfl, rfl⟩ := Emit.get_ok.1 hGet
  obtain ⟨_, _, hSet, h⟩ := Emit.bind_ok.1 h
  cases hSet
  cases hNext : (JavaFragment.declareParams 1 (if isStatic then 0 else 1) (r.inMethod isStatic).scope
    (r.inMethod isStatic).locals types).next <;> rw [hNext] at h <;> cases h
  exact ⟨rfl, rfl⟩

/-- What holds once the parameters are recorded, and stays so. -/
structure Entered (thisClass : String) (types : List JavaType) (isStatic : Bool) (s : Session) : Prop where
  settled : ∃ vars, s.Settled vars
  receiver : isStatic = false → ⟨.variable 0, .ofClass thisClass, 0⟩ ∈ s.code.uses
  params : ∃ params, s.bindings.params = some params ∧ params.types = types ∧
    params.vars.length = types.length ∧ ∀ k v type, params.vars[k]? = some v → types[k]? = some type →
      v.name = "$" ++ toString (k + 1) ∧ ∃ first, ⟨.variable v.number, type, first⟩ ∈ s.code.uses

theorem Settled.withParams {slot : UInt16}
    (hr : { r with code := { r.code with maxLocals := slot } }.Settled vars) (hNone : r.code.maxLocals = 0)
    (hNext : (JavaFragment.declareParams 1 slot r.scope r.locals types).next = some next)
    (hReceiver : isStatic = false → ⟨.variable 0, .ofClass r.thisClass, 0⟩ ∈ r.code.uses) :
    (r.withParams slot next types isStatic).Entered r.thisClass types isStatic := by
  obtain ⟨later, hLater, hPrefix, hKnown, hLength, hEach⟩ := hr.declareParams hNext
  have hMax : max r.code.maxLocals next = next := by
    rw [hNone]
    exact if_pos (UInt16.le_iff_toNat_le.2 (Nat.zero_le _))
  refine ⟨⟨later, ⟨?_, hLater.laid.size, hLater.laid.slot_iff, hLater.laid.typed⟩, hLater.placed, hLater.types, hLater.scope,
    ?_, hLater.proceed⟩, fun hStatic => List.mem_append_right _ (hReceiver hStatic),
    ⟨_, rfl, rfl, hLength, fun k v type hv hType => ?_⟩⟩
  · have hStacked := hLater.laid.stacked
    simp only [Session.withParams, CodeBuffer.ensureLocals, CodeBuffer.note, hMax]
    exact hStacked
  · rintro params ⟨⟩ v hv
    exact hKnown v hv
  · obtain ⟨hName, first, hUse⟩ := hEach k v type hv hType
    exact ⟨by rw [hName, Nat.add_comm], first, List.mem_append_left _ hUse⟩

theorem recordParams_entered {table : ClassTable} {thisClass : String} {options : Options} {pool : ConstantPool}
    (h : recordParams types isStatic (start table thisClass options pool) = .ok next s) :
    s.Entered thisClass types isStatic := by
  have hStart := settled_start table thisClass options pool isStatic
  obtain ⟨hNext, rfl⟩ := recordParams_ok h
  cases isStatic with
  | true =>
    exact Settled.withParams (r := { start table thisClass options pool with isStatic := true }) hStart rfl
      hNext nofun
  | false =>
    have hReceiver := hStart.declaring "$0" (.ofClass thisClass)
      { (CodeBuffer.empty.note [⟨.variable 0, .ofClass thisClass, 0⟩]) with maxLocals := 1 } rfl rfl rfl
    exact Settled.withParams hReceiver rfl hNext fun _ => List.mem_cons_self ..

end Session

/-! Runs of a session. -/

/-- What fragments and surroundings do once the parameters are recorded. -/
inductive SessionStep where
  | statements (source : String)
  | expression (source : String)
  | variable (type : JavaType) (name : String)
  | result (type : JavaType) (withVariable : Bool)
  | finish
deriving Repr

def SessionStep.run : SessionStep → SessionM Unit
  | .statements source => Session.compileStatements source
  | .expression source => (fun _ => ()) <$> Session.compileExpression source
  | .variable type name => (fun _ => ()) <$> Session.recordVariable type name
  | .result type withVariable => (fun _ => ()) <$> Session.recordResult type withVariable
  | .finish => (fun _ => ()) <$> Session.finishCode

theorem SessionStep.run_keeps (step : SessionStep) : Session.Keeps step.run := by
  cases step with
  | statements source => exact Session.compileStatements_keeps source
  | expression source => exact (Session.compileExpression_keeps source).map _
  | «variable» type name => exact (Session.recordVariable_keeps type name).map _
  | result type withVariable => exact (Session.recordResult_keeps type withVariable).map _
  | finish => exact Session.finishCode_keeps.map _

namespace Session

variable {vars : List Variable} {s : Session}

/-- The session after a step, be it refused or not. -/
def after (s : Session) (step : SessionStep) : Session :=
  match step.run s with
  | .ok _ t | .error _ t => t

/-- The session after steps one after another. -/
def afterAll (s : Session) (steps : List SessionStep) : Session := steps.foldl after s

theorem Settled.after (hs : s.Settled vars) (step : SessionStep) : s.Leads (s.after step) := by
  obtain ⟨t, hLeads, ⟨e, hRun⟩ | ⟨a, hRun⟩⟩ := step.run_keeps vars s hs
  all_goals
    unfold Session.after
    rw [hRun]
    exact hLeads

theorem Settled.afterAll (hs : s.Settled vars) (steps : List SessionStep) : s.Leads (s.afterAll steps) := by
  induction steps generalizing s vars with
  | nil => exact ⟨⟨vars, hs⟩, List.suffix_refl _, rfl⟩
  | cons step steps ih =>
    have hStep := hs.after step
    obtain ⟨later, hLater⟩ := hStep.settled
    exact hStep.trans (ih hLater)

theorem Entered.afterAll {thisClass : String} {types : List JavaType} {isStatic : Bool}
    (hs : s.Entered thisClass types isStatic) (steps : List SessionStep) :
    (s.afterAll steps).Entered thisClass types isStatic := by
  obtain ⟨vars, hSettled⟩ := hs.settled
  have hLeads := hSettled.afterAll steps
  obtain ⟨params, hParams, hTypes, hLength, hEach⟩ := hs.params
  refine ⟨hLeads.settled, fun hStatic => hLeads.uses.subset (hs.receiver hStatic),
    params, hLeads.params.trans hParams, hTypes, hLength, fun k v type hv hType => ?_⟩
  obtain ⟨hName, first, hUse⟩ := hEach k v type hv hType
  exact ⟨hName, first, hLeads.uses.subset hUse⟩

/-- A variable in scope that has a slot has the locals from there on that a value of its type needs. -/
theorem Settled.use_of_slot (hs : s.Settled vars) {name : String} {v : Variable} {first : UInt16}
    (hScope : s.scope.lookup name = some v) (hSlot : s.locals.slot? v = some first) :
    ∃ type, s.context.variableType v = .ok type ∧ ⟨.variable v.number, type, first⟩ ∈ s.code.uses := by
  have hKnown : v.KnownIn vars := hs.scope.of_lookup hScope
  obtain ⟨type, hUse⟩ := (hs.laid.slot_iff v.number first).1 hSlot
  obtain ⟨w, hNumber, hKnown', hType⟩ := hs.laid.typed v.number type first hUse
  obtain rfl : w = v := by
    unfold Variable.KnownIn at hKnown hKnown'
    rw [hNumber, hKnown] at hKnown'
    exact (Option.some.inj hKnown').symm
  exact ⟨type, hType, hUse⟩

/-- Once the parameters are recorded, whatever a session does, whether or not it is refused: the receiver,
the parameters, every variable with a slot and every value that waits while control leaves a statement have
locals of their own. These are all the locals that there are. No slot is ever given up or changed. -/
theorem locals_stay_apart {table : ClassTable} {thisClass : String} {options : Options}
    {pool : ConstantPool} {types : List JavaType} {isStatic : Bool} {next : UInt16} {start : Session}
    (hStart : recordParams types isStatic (Session.start table thisClass options pool) = .ok next start)
    (steps more : List SessionStep) :
    let s := start.afterAll steps
    let t := s.afterAll more
    (s.code.uses.Pairwise fun a b => ∀ n, ¬ (a.Covers n ∧ b.Covers n)) ∧
    (∀ use ∈ s.code.uses, use.stop ≤ s.code.maxLocals.toNat) ∧
    (∀ n, n < s.code.maxLocals.toNat ↔ ∃ use ∈ s.code.uses, use.Covers n) ∧
    (isStatic = false → ⟨.variable 0, .ofClass thisClass, 0⟩ ∈ s.code.uses) ∧
    (∃ params, s.bindings.params = some params ∧ params.types = types ∧
      params.vars.length = types.length ∧ ∀ k v type, params.vars[k]? = some v → types[k]? = some type →
        v.name = "$" ++ toString (k + 1) ∧
          ∃ first, s.locals.slot? v = some first ∧ ⟨.variable v.number, type, first⟩ ∈ s.code.uses) ∧
    (∀ (n : Nat) first, (s.locals.slots[n]?).join = some first ↔ ∃ type, ⟨.variable n, type, first⟩ ∈ s.code.uses) ∧
    (∀ name v first, s.scope.lookup name = some v → s.locals.slot? v = some first →
      ∃ type, s.context.variableType v = .ok type ∧ ⟨.variable v.number, type, first⟩ ∈ s.code.uses) ∧
    s.code.uses <:+ t.code.uses ∧
    (∀ (n : Nat) first, (s.locals.slots[n]?).join = some first → (t.locals.slots[n]?).join = some first) := by
  intro s t
  have hEntered := (recordParams_entered hStart).afterAll steps
  obtain ⟨vars, hs⟩ := hEntered.settled
  have hLeads := hs.afterAll more
  obtain ⟨later, ht⟩ := hLeads.settled
  refine ⟨hs.laid.stacked.pairwise, hs.laid.stacked.stop_le, hs.laid.stacked.covers_iff, hEntered.receiver, ?_,
    hs.laid.slot_iff, fun _ _ _ => hs.use_of_slot, hLeads.uses, fun n first hSlot => ?_⟩
  · obtain ⟨params, hParams, hTypes, hLength, hEach⟩ := hEntered.params
    refine ⟨params, hParams, hTypes, hLength, fun k v type hv hType => ?_⟩
    obtain ⟨hName, first, hUse⟩ := hEach k v type hv hType
    exact ⟨hName, first, (hs.laid.slot_iff v.number first).2 ⟨type, hUse⟩, hUse⟩
  · obtain ⟨type, hUse⟩ := (hs.laid.slot_iff n first).1 hSlot
    exact (ht.laid.slot_iff n first).2 ⟨type, hLeads.uses.subset hUse⟩

/-- A fragment that is refused within the last part of a `try`, in a method with a wide parameter. -/
theorem locals_stay_apart_refused :
    ∃ start, recordParams [.long, .int] false (Session.start Library.table "java/lang/Object" default .empty) =
        .ok 4 start ∧
      (start.after (.variable .double "x")).code.uses =
        [⟨.variable 3, .double, 4⟩, ⟨.variable 2, .int, 3⟩, ⟨.variable 1, .long, 1⟩,
          ⟨.variable 0, .ofClass "java/lang/Object", 0⟩] ∧
      let s := start.afterAll [.variable .double "x",
        .statements "try { long y = $1; synchronized (this) { return; } } finally { x = 2; int z = w; }"]
      (s.code.uses.Pairwise fun a b => ∀ n, ¬ (a.Covers n ∧ b.Covers n)) ∧
        ∀ use ∈ s.code.uses, use.stop ≤ s.code.maxLocals.toNat := by
  have hStart : recordParams [.long, .int] false
      (Session.start Library.table "java/lang/Object" default .empty) = .ok 4 _ := rfl
  obtain ⟨hApart, hBelow, -⟩ := locals_stay_apart hStart [.variable .double "x",
    .statements "try { long y = $1; synchronized (this) { return; } } finally { x = 2; int z = w; }"] []
  exact ⟨_, hStart, rfl, hApart, hBelow⟩

end Session

end JavaFragment
