import JavaFragment.Proofs.StatementLaws
import Mathlib.Logic.Relation
/-!
Which locals code reserves, and what for. Most steps of emission leave the locals as they are, and the others reserve
those that come next, for variables and for values that wait while control leaves a statement, which are results,
exceptions and locks.
-/
namespace JavaFragment

theorem Emit.bind_error {ε σ α β : Type} {x : EStateM ε σ α} {f : α → EStateM ε σ β} {s t : σ} {e : ε} :
    (x >>= f) s = .error e t ↔ x s = .error e t ∨ ∃ a r, x s = .ok a r ∧ f a r = .error e t := by
  show EStateM.bind x f s = _ ↔ _
  unfold EStateM.bind
  cases x s with
  | ok a r => exact ⟨fun h => .inr ⟨a, r, rfl, h⟩, fun h => by
    rcases h with h | ⟨_, _, hSame, h⟩
    · cases h
    · cases hSame
      exact h⟩
  | error e r => simp

namespace EmitState

/-- The first locals that are free are reserved for a value. -/
structure Reserved (purpose : LocalPurpose) (type : JavaType) (s t : EmitState) : Prop where
  fits : s.code.maxLocals.toNat + type.slots < 65536
  locals : t.code.maxLocals.toNat = s.code.maxLocals.toNat + type.slots
  uses : t.code.uses = ⟨purpose, type, s.code.maxLocals⟩ :: s.code.uses

/-- What emission does to the locals in one step. -/
inductive LocalStep (ctx : TypingContext) (known : Variable → Prop) (s t : EmitState) : Prop
  /-- No locals are reserved. -/
  | nothing (slots : t.slots = s.slots) (uses : t.code.uses = s.code.uses)
      (locals : t.code.maxLocals = s.code.maxLocals)
  /-- Locals are reserved for what no variable holds. -/
  | hidden {purpose : LocalPurpose} {type : JavaType} (hidden : ∀ n, purpose ≠ .variable n)
      (reserved : Reserved purpose type s t) (slots : t.slots = s.slots)
  /-- A variable that had no slot is given one. -/
  | ofVariable {v : Variable} {type : JavaType} (isKnown : known v)
      (hasType : ctx.variableType v = .ok type) (fresh : s.slot? v.number = none)
      (reserved : Reserved (.variable v.number) type s t)
      (slots : t.slots = s.slots.set! v.number (some s.code.maxLocals))

end EmitState

namespace Emit

variable {α : Type} {s t : EmitState} {purpose : LocalPurpose} {type : JavaType} {e : CompileError}

theorem onBuffer_error {x : BufferM α} (h : (liftM x : Emit α) s = .error e t) :
    ∃ fault c, x s.code = .error fault c ∧ e = .buffer fault ∧ t = { s with code := c } := by
  replace h : onBuffer x s = .error e t := h
  simp only [onBuffer, EStateM.run] at h
  cases hx : x s.code with
  | ok a c => rw [hx] at h; cases h
  | error fault c =>
    rw [hx] at h
    cases h
    exact ⟨fault, c, rfl, rfl, rfl⟩

/-- Locals that were reserved are those that come next. -/
theorem reserved_of_ok {slot : UInt16} (h : Emit.reserve purpose type s = .ok slot t) :
    slot = s.code.maxLocals ∧ EmitState.Reserved purpose type s t ∧ t.slots = s.slots := by
  obtain ⟨rfl, hFits, rfl⟩ := reserve_ok h
  exact ⟨rfl, ⟨hFits, by simpa using hFits, rfl⟩, rfl⟩

/-- Locals are reserved as a whole or not at all. -/
theorem reserve_error (h : Emit.reserve purpose type s = .error e t) : t = s ∧ e.kind ≠ .fatal := by
  obtain ⟨fault, c, hCode, rfl, rfl⟩ := onBuffer_error h
  rcases bind_error.1 hCode with hAllocate | ⟨_, _, _, hNote⟩
  · rcases bind_error.1 hAllocate with hGet | ⟨_, _, hGet, hRest⟩
    · cases hGet
    · obtain ⟨rfl, rfl⟩ := get_ok.1 hGet
      split at hRest <;> cases hRest
      exact ⟨rfl, nofun⟩
  · cases hNote

end Emit

/-- The variables of the surroundings are known. -/
structure TypingContext.Known (ctx : TypingContext) (known : Variable → Prop) : Prop where
  params : ExprCode.ParamsKnown ctx known
  proceed : ∀ target, ctx.bindings.proceed.bind ProceedCall.target = some target → ∀ v ∈ target.variables, known v

end JavaFragment
