import JavaFragment.Proofs.Interning
import JavaFragment.Proofs.Layout
import JavaFragment.Emit.Statement
import Mathlib
/-!
What emission does to its state. Emission that succeeds only adds to the code, the pool and the slots,
apart from the targets of the branches that it lands.
-/
namespace JavaFragment

namespace Emit

variable {α β : Type} {a : α} {u : Unit}

/-! Inversion of computations that succeed. -/

section

variable {ε σ : Type} {s t : σ}

theorem bind_ok {x : EStateM ε σ α} {f : α → EStateM ε σ β} {b : β} :
    (x >>= f) s = .ok b t ↔ ∃ a r, x s = .ok a r ∧ f a r = .ok b t := by
  show EStateM.bind x f s = _ ↔ _
  unfold EStateM.bind
  cases x s with
  | ok a r =>
    refine ⟨fun h => ⟨a, r, rfl, h⟩, ?_⟩
    rintro ⟨_, _, hx, hf⟩
    cases hx
    exact hf
  | error e r =>
    refine ⟨fun h => (by cases h), ?_⟩
    rintro ⟨_, _, hx, _⟩
    cases hx

theorem pure_ok {a b : α} : (pure a : EStateM ε σ α) s = .ok b t ↔ a = b ∧ s = t := by
  show EStateM.Result.ok a s = _ ↔ _
  simp

theorem map_ok {x : EStateM ε σ α} {f : α → β} {b : β} : (f <$> x) s = .ok b t ↔ ∃ a, x s = .ok a t ∧ f a = b := by
  show EStateM.map f x s = _ ↔ _
  unfold EStateM.map
  cases x s with
  | ok a r =>
    refine ⟨fun h => (by cases h; exact ⟨a, rfl, rfl⟩), ?_⟩
    rintro ⟨_, hx, rfl⟩
    cases hx
    rfl
  | error e r =>
    refine ⟨fun h => (by cases h), ?_⟩
    rintro ⟨_, hx, _⟩
    cases hx

theorem not_throw_ok {e : ε} {a : α} : (throw e : EStateM ε σ α) s ≠ .ok a t := nofun

theorem get_ok {a : σ} : (get : EStateM ε σ σ) s = .ok a t ↔ s = a ∧ s = t := by
  show EStateM.Result.ok s s = _ ↔ _
  simp

theorem modify_ok {f : σ → σ} {u : PUnit} : (modify f : EStateM ε σ PUnit) s = .ok u t ↔ f s = t := by
  show EStateM.Result.ok PUnit.unit (f s) = _ ↔ _
  simp

end

variable {s t : EmitState}

/-- A rule that is asked has an answer and changes nothing. -/
theorem lift_ok {x : Except CompileError α} : (liftM x : Emit α) s = .ok a t ↔ x = .ok a ∧ s = t := by
  show ofExcept x s = _ ↔ _
  cases x with
  | ok b => simp [ofExcept, pure_ok]
  | error e => exact ⟨fun h => (not_throw_ok h).elim, fun h => by cases h.1⟩

theorem onPool_ok {x : StateM ConstantPool α} :
    (liftM x : Emit α) s = .ok a t ↔ (x s.pool).1 = a ∧ { s with pool := (x s.pool).2 } = t := by
  show EStateM.Result.ok (x s.pool).1 { s with pool := (x s.pool).2 } = _ ↔ _
  simp

theorem onBuffer_ok {x : BufferM α} :
    (liftM x : Emit α) s = .ok a t ↔ ∃ c, x s.code = .ok a c ∧ { s with code := c } = t := by
  show onBuffer x s = _ ↔ _
  simp only [onBuffer, EStateM.run]
  cases x s.code with
  | ok b c =>
    refine ⟨fun h => (by cases h; exact ⟨c, rfl, rfl⟩), ?_⟩
    rintro ⟨_, hx, rfl⟩
    cases hx
    rfl
  | error e c =>
    refine ⟨fun h => (by cases h), ?_⟩
    rintro ⟨_, hx, _⟩
    cases hx

theorem change_ok {f : CodeBuffer → CodeBuffer} : change f s = .ok u t ↔ { s with code := f s.code } = t := by
  show EStateM.Result.ok PUnit.unit { s with code := f s.code } = _ ↔ _
  simp

theorem emit_ok {i : Instruction} : emit i s = .ok u t ↔ { s with code := s.code.append i } = t := change_ok

theorem setDepth_ok {depth : Int} :
    setDepth depth s = .ok u t ↔ { s with code := s.code.setDepth depth } = t := change_ok

theorem branch_ok {b : Branch} {site : Nat} : branch b s = .ok site t ↔
      s.code.instructions.size = site ∧ { s with code := s.code.append (.branch b 0) } = t := by
  show EStateM.Result.ok s.code.instructions.size { s with code := s.code.append (.branch b 0) } = _ ↔ _
  simp

theorem here_ok {pc : Nat} : here s = .ok pc t ↔ s.code.pc = pc ∧ s = t := by
  show EStateM.Result.ok s.code.pc s = _ ↔ _
  simp

theorem depth_ok {d : Int} : depth s = .ok d t ↔ s.code.depth = d ∧ s = t := by
  show EStateM.Result.ok s.code.depth s = _ ↔ _
  simp

end Emit

/-- The end of a call: the arguments, and then the method itself or the accessor that stands for it. -/
def ExprCode.callThrough (found : CallTarget) (args : List ExprCode) (through : Option SyntheticMethod) :
    Emit JavaType := do
  pushArguments found.selected.signature.params args
  match through with
  | some m => Emit.invoke .static found.selected.owner.name m.name m.descriptor
  | none => Emit.invoke found.kind found.owner found.selected.method.name found.selected.method.descriptor
  return found.selected.signature.result

/-! Later states. -/

namespace EmitState

variable {s t z : EmitState} {changed : Nat → Prop}

/-- The index of the instruction that is emitted next. -/
def next (s : EmitState) : Nat := s.code.instructions.size

/-- The slot of the variable with a number. -/
def slot? (s : EmitState) (n : Nat) : Option UInt16 := (s.slots[n]?).join

/-- The slot in which the result waits for the last part of a `try`. -/
def resultSlot? (s : EmitState) (frame : Nat) : Option UInt16 := (s.resultSlots[frame]?).join

/-- The code and pool as the machine runs them. -/
def program (s : EmitState) : Program := ⟨s.code, s.pool⟩

/-- A later state of emission. Slots that are given out meanwhile lie above those in use before. -/
structure Later (changed : Nat → Prop) (s z : EmitState) : Prop where
  code : s.code.Extends changed z.code
  pool : s.pool.entries.toList <+: z.pool.entries.toList
  slots_size : z.slots.size = s.slots.size
  slot_kept : ∀ n slot, s.slot? n = some slot → z.slot? n = some slot
  slot_fresh : ∀ n slot, z.slot? n = some slot → s.slot? n = some slot ∨ s.code.maxLocals ≤ slot
  result_size : s.resultSlots.size ≤ z.resultSlots.size
  result_kept : ∀ n slot, s.resultSlot? n = some slot → z.resultSlot? n = some slot
  result_fresh : ∀ n slot, z.resultSlot? n = some slot → s.resultSlot? n = some slot ∨ s.code.maxLocals ≤ slot

theorem Later.trans {first second : Nat → Prop} (hst : s.Later first t)
    (htz : t.Later second z) : s.Later (fun k => first k ∨ second k) z where
  code := hst.code.trans htz.code
  pool := hst.pool.trans htz.pool
  slots_size := htz.slots_size.trans hst.slots_size
  slot_kept n slot h := htz.slot_kept n slot (hst.slot_kept n slot h)
  slot_fresh n slot h := by
    rcases htz.slot_fresh n slot h with hOld | hNew
    · exact hst.slot_fresh n slot hOld
    · exact .inr (UInt16.le_trans hst.code.maxLocals_le hNew)
  result_size := Nat.le_trans hst.result_size htz.result_size
  result_kept n slot h := htz.result_kept n slot (hst.result_kept n slot h)
  result_fresh n slot h := by
    rcases htz.result_fresh n slot h with hOld | hNew
    · exact hst.result_fresh n slot hOld
    · exact .inr (UInt16.le_trans hst.code.maxLocals_le hNew)

theorem Later.mono {first second : Nat → Prop} (h : s.Later first z)
    (hSub : ∀ k, k < s.next → first k → second k) : s.Later second z :=
  { h with code := h.code.mono hSub }

/-- Emission that changes the buffer alone. -/
theorem Later.of_code {code : CodeBuffer}
    (h : s.code.Extends changed code) : s.Later changed { s with code := code } where
  code := h
  pool := List.prefix_refl _
  slots_size := rfl
  slot_kept _ _ h := h
  slot_fresh _ _ h := .inl h
  result_size := Nat.le_refl _
  result_kept _ _ h := h
  result_fresh _ _ h := .inl h

theorem Later.refl (changed : Nat → Prop) (s : EmitState) : s.Later changed s := .of_code (.refl changed s.code)

theorem Later.next_le (h : s.Later changed z) : s.next ≤ z.next := h.code.size_le

theorem Later.consistent (h : s.Later changed z) (hs : s.code.Consistent) : z.code.Consistent := h.code.consistent hs

/-- What follows emission keeps all that was emitted from an index on, but for some branches. -/
def Kept (start : Nat) (open_ : List Nat) (s z : EmitState) : Prop := s.Later (fun k => k < start ∨ k ∈ open_) z

/-- The slots of variables of given types do not overlap and are in use. -/
structure SlotsApart (types : Nat → JavaType) (s : EmitState) : Prop where
  below : ∀ n slot, s.slot? n = some slot → slot.toNat + (types n).slots ≤ s.code.maxLocals.toNat
  apart : ∀ n m a b, n ≠ m → s.slot? n = some a → s.slot? m = some b →
    a.toNat + (types n).slots ≤ b.toNat ∨ b.toNat + (types m).slots ≤ a.toNat

/-- The slots of variables do not overlap and are in use, if the types of the variables are given. -/
def Apart : Option (Nat → JavaType) → EmitState → Prop
  | none, _ => True
  | some types, s => s.SlotsApart types

/-- Whether the locals from a slot on are those of a variable, or lie above those in use before. -/
def Owns (types : Option (Nat → JavaType)) (base : UInt16) (s : EmitState) (slot words : Nat) : Prop :=
  base.toNat ≤ slot ∨ ∃ n own, s.slot? n = some own ∧ own.toNat = slot ∧
    ∀ given ∈ types, words = (given n).slotKind.words

/-- An instruction that is plain and writes no local but its own. -/
def Plain (types : Option (Nat → JavaType)) (base : UInt16) (s : EmitState) (k : Nat) : Prop :=
  ∃ i, s.code.instructions[k]? = some i ∧ i.isPlain ∧
    ∀ slot words, i.written? = some (slot, words) → s.Owns types base slot words

/-- A branch to an instruction that follows it. -/
def Forward (s : EmitState) (k : Nat) : Prop := ∃ j, k < j ∧ j ≤ s.next ∧ s.code.Targets k (s.code.address j)

/-- Emission that leaves all earlier instructions as they are. What it adds goes on to what follows,
apart from branches that are still open. -/
structure Adds (types : Option (Nat → JavaType)) (open_ : Nat → Prop) (s t : EmitState) : Prop where
  later : s.Later (fun _ => False) t
  apart : s.Apart types → t.Apart types
  results : t.resultSlots = s.resultSlots
  handlers : t.code.handlers = s.code.handlers
  steady : s.code.Consistent → ∀ k, s.next ≤ k → k < t.next → ¬ open_ k → t.Plain types s.code.maxLocals k ∨ t.Forward k

/-- Emission that leaves all earlier instructions as they are and no branch open. -/
abbrev Appends (types : Option (Nat → JavaType)) (s t : EmitState) : Prop := s.Adds types (fun _ => False) t

/-- Emission with variables of given types. -/
abbrev Grows (types : Nat → JavaType) (s t : EmitState) : Prop := s.Appends (some types) t

variable {types : Option (Nat → JavaType)} {first second : Nat → Prop}

/-- The slots stay apart while no variable gets a new one. -/
theorem Apart.of_slots (hs : s.Apart types) (hSlots : t.slots = s.slots)
    (hLocals : s.code.maxLocals ≤ t.code.maxLocals) : t.Apart types := by
  cases types with
  | none => trivial
  | some types =>
    exact
      { below := fun n slot hn => by
          have hLe := UInt16.le_iff_toNat_le.1 hLocals
          have := SlotsApart.below hs n slot (by simpa [slot?, hSlots] using hn)
          omega
        apart := fun n m a b hne hn hm => SlotsApart.apart hs n m a b hne
          (by simpa [slot?, hSlots] using hn) (by simpa [slot?, hSlots] using hm) }

theorem Owns.later {base base' : UInt16} {slot words : Nat}
    (h : s.Owns types base slot words) (hLater : s.Later changed t) (hBase : base' ≤ base) :
    t.Owns types base' slot words := by
  rcases h with hAbove | ⟨n, own, hOwn, hSame⟩
  · exact .inl (Nat.le_trans (UInt16.le_iff_toNat_le.1 hBase) hAbove)
  · exact .inr ⟨n, own, hLater.slot_kept n own hOwn, hSame⟩

theorem Plain.later {base base' : UInt16} {k : Nat}
    (h : s.Plain types base k) (hLater : s.Later changed t) (hBase : base' ≤ base) (hk : ¬ changed k) :
    t.Plain types base' k := by
  obtain ⟨i, hAt, hPlain, hOwns⟩ := h
  exact ⟨i, hLater.code.kept k i hk hAt, hPlain, fun slot words hWritten =>
    (hOwns slot words hWritten).later hLater hBase⟩

theorem Forward.later {k : Nat} (h : s.Forward k)
    (hs : s.code.Consistent) (hLater : s.Later changed t) (hk : ¬ changed k) : t.Forward k := by
  obtain ⟨j, hLt, hLe, hTargets⟩ := h
  refine ⟨j, hLt, Nat.le_trans hLe hLater.next_le, ?_⟩
  rw [hLater.code.address_eq j (by rw [hs.sizes]; exact hLe)]
  exact hTargets.later hs hLater.code hk

theorem Adds.trans (hst : s.Adds types first t) (htz : t.Adds types second z) :
    s.Adds types (fun k => first k ∨ second k) z where
  later := (hst.later.trans htz.later).mono (by simp)
  apart h := htz.apart (hst.apart h)
  results := htz.results.trans hst.results
  handlers := htz.handlers.trans hst.handlers
  steady hs k hLe hLt hOpen := by
    rw [not_or] at hOpen
    rcases Nat.lt_or_ge k t.next with hOld | hNew
    · rcases hst.steady hs k hLe hOld hOpen.1 with hPlain | hForward
      · exact .inl (hPlain.later htz.later (UInt16.le_refl _) (by simp))
      · exact .inr (hForward.later (hst.later.consistent hs) htz.later (by simp))
    · refine (htz.steady (hst.later.consistent hs) k hNew hLt hOpen.2).imp_left ?_
      exact fun hPlain => hPlain.later (.refl (fun _ => False) z) hst.later.code.maxLocals_le (by simp)

/-- Open branches may be closed otherwise. -/
theorem Adds.settle (h : s.Adds types first t)
    (hSettled : s.code.Consistent → ∀ k, s.next ≤ k → k < t.next → first k → ¬ second k →
      t.Plain types s.code.maxLocals k ∨ t.Forward k) : s.Adds types second t :=
  { h with
    steady := fun hs k hLe hLt hOpen => by
      by_cases hFirst : first k
      · exact hSettled hs k hLe hLt hFirst hOpen
      · exact h.steady hs k hLe hLt hFirst }

theorem Adds.mono (h : s.Adds types first t)
    (hSub : ∀ k, s.next ≤ k → k < t.next → first k → second k) : s.Adds types second t :=
  h.settle fun _ k hLe hLt hFirst hOpen => (hOpen (hSub k hLe hLt hFirst)).elim

theorem Adds.next_le (h : s.Adds types first t) : s.next ≤ t.next := h.later.next_le

theorem Appends.trans (hst : s.Appends types t) (htz : t.Appends types z) :
    s.Appends types z := (Adds.trans hst htz).mono (by simp)

/-- Emission that adds no instruction. -/
theorem Appends.of_later (h : s.Later (fun _ => False) t) (hSlots : t.slots = s.slots)
    (hResults : t.resultSlots = s.resultSlots) (hHandlers : t.code.handlers = s.code.handlers)
    (hNext : t.next = s.next) : s.Appends types t where
  later := h
  apart hs := hs.of_slots hSlots h.code.maxLocals_le
  results := hResults
  handlers := hHandlers
  steady _ k _ _ := by omega

theorem Appends.refl (s : EmitState) : s.Appends types s := .of_later (.refl _ s) rfl rfl rfl rfl

/-- Emission of one instruction. -/
theorem Adds.append (s : EmitState) (i : Instruction) (change : Int) (hPlain : ¬ first s.next → i.isPlain ∧
      ∀ slot words, i.written? = some (slot, words) → s.Owns types s.code.maxLocals slot words) :
    s.Adds types first { s with code := s.code.appendWith i change } where
  later := .of_code (.appendWith s.code i change)
  apart hs := hs.of_slots rfl (UInt16.le_refl _)
  results := rfl
  handlers := rfl
  steady _ k hLe hLt hOpen := by
    obtain rfl : k = s.next := by
      have : k < s.next + 1 := by simpa [next] using hLt
      omega
    exact .inl ⟨i, by simp [next], hPlain hOpen⟩

end EmitState

/-- A variable has the type that is given for its number, if it has a type at all. -/
def TypingContext.Agrees (ctx : TypingContext) (types : Option (Nat → JavaType)) (v : Variable) : Prop :=
  ∀ given ∈ types, ∀ type, ctx.variableType v = .ok type → given v.number = type

/-! Growth of what is emitted. -/

namespace Emit

variable {α β : Type} {types : Option (Nat → JavaType)} {site target : Nat} {u : Unit} {sites : List Nat}

/-- Emission that leaves all earlier instructions as they are. -/
structure Growing (types : Option (Nat → JavaType)) (x : Emit α) : Prop where
  grows : ∀ s a t, x s = .ok a t → s.Appends types t

namespace Growing

theorem bind {x : Emit α} {f : α → Emit β} (hx : Growing types x) (hf : ∀ a, Growing types (f a)) :
    Growing types (x >>= f) := by
  refine ⟨fun s b t h => ?_⟩
  obtain ⟨a, r, hFirst, hRest⟩ := bind_ok.1 h
  exact (hx.grows s a r hFirst).trans ((hf a).grows r b t hRest)

theorem pure (a : α) : Growing types (pure a : Emit α) := by
  refine ⟨fun s b t h => ?_⟩
  obtain ⟨_, rfl⟩ := pure_ok.1 h
  exact .refl s

theorem throw (e : CompileError) : Growing types (throw e : Emit α) := ⟨fun _ _ _ h => (not_throw_ok h).elim⟩

theorem get : Growing types (get : Emit EmitState) := by
  refine ⟨fun s a t h => ?_⟩
  obtain ⟨_, rfl⟩ := get_ok.1 h
  exact .refl s

theorem lift (x : Except CompileError α) : Growing types (liftM x : Emit α) := by
  refine ⟨fun s a t h => ?_⟩
  obtain ⟨_, rfl⟩ := lift_ok.1 h
  exact .refl s

theorem pool {x : StateM ConstantPool α} (hx : PoolGrowing x) : Growing types (liftM x : Emit α) := by
  refine ⟨fun s a t h => ?_⟩
  obtain ⟨_, rfl⟩ := onPool_ok.1 h
  exact .of_later { EmitState.Later.refl _ s with pool := hx.entries s.pool } rfl rfl rfl rfl

/-- Emission of an instruction that writes no local, with an effect on the stack that is given. -/
theorem append (i : Instruction) (change : Int) (h : i.isInert) :
    Growing types (Emit.change (·.appendWith i change)) := by
  refine ⟨fun s a t hChange => ?_⟩
  obtain rfl := change_ok.1 hChange
  refine .append s i change fun _ => ⟨Instruction.isPlain_of_isInert h, fun slot words hWritten => ?_⟩
  rw [Instruction.written?_of_isInert h] at hWritten
  cases hWritten

theorem emit (i : Instruction) (h : i.isInert) : Growing types (emit i) := append i _ h

theorem setDepth (depth : Int) : Growing types (setDepth depth) := by
  refine ⟨fun s a t h => ?_⟩
  obtain rfl := setDepth_ok.1 h
  exact .of_later (.of_code (.setDepth s.code depth)) rfl rfl rfl rfl

end Growing

/-! Patching. -/

variable {s t : EmitState}

/-- Pointing a branch to a target that is within its reach sets its offset. -/
theorem patch_buffer_ok {b c : CodeBuffer} :
    CodeBuffer.patch site target b = .ok u c ↔ ∃ source branch old, b.addresses[site]? = some source ∧
      b.instructions[site]? = some (.branch branch old) ∧
      (-32768 ≤ (target : Int) - source ∧ (target : Int) - source < 32768) ∧
      c = { b with
        instructions := (b.instructions.set! site (.branch branch (Int16.ofInt (target - source)))) } := by
  constructor
  · intro h
    unfold CodeBuffer.patch CodeBuffer.addressOf at h
    obtain ⟨address, c₁, hAddress, hPatch⟩ := bind_ok.1 h
    obtain ⟨c₂, _, hGet, hAddress⟩ := bind_ok.1 hAddress
    obtain ⟨rfl, rfl⟩ := get_ok.1 hGet
    cases hAt : b.addresses[site]? with
    | none => rw [hAt] at hAddress; exact (not_throw_ok hAddress).elim
    | some a =>
      rw [hAt] at hAddress
      obtain ⟨rfl, rfl⟩ := pure_ok.1 hAddress
      dsimp only at hPatch
      split at hPatch
      · obtain ⟨_, _, hThrow, _⟩ := bind_ok.1 hPatch
        exact (not_throw_ok hThrow).elim
      · next hRange =>
        obtain ⟨c₂, _, hGet, hPatch⟩ := bind_ok.1 hPatch
        obtain ⟨rfl, rfl⟩ := get_ok.1 hGet
        cases hOld : b.instructions[site]? with
        | none => rw [hOld] at hPatch; exact (not_throw_ok hPatch).elim
        | some i =>
          rw [hOld] at hPatch
          cases i with
          | branch branch old => exact ⟨a, branch, old, rfl, rfl, by omega, (modify_ok.1 hPatch).symm⟩
          | _ => exact (not_throw_ok hPatch).elim
  · rintro ⟨source, branch, old, hAt, hOld, hRange, rfl⟩
    have hInside : ¬ ((target : Int) - source < -32768 ∨ 32768 ≤ (target : Int) - source) := by omega
    unfold CodeBuffer.patch CodeBuffer.addressOf
    simp only [bind, EStateM.bind, get, getThe, MonadStateOf.get, EStateM.get, hAt, pure, EStateM.pure,
      hInside, if_false, hOld]
    rfl

/-- Patching points a branch to an address within its reach. -/
theorem patch_ok (h : patch site target s = .ok u t) : ∃ b old new, s.code.instructions[site]? = some (.branch b old) ∧
      (∀ address, s.code.addresses[site]? = some address → (address : Int) + Int16.toInt new = target) ∧
      t = { s with code := { s.code with instructions := s.code.instructions.set! site (.branch b new) } } := by
  obtain ⟨c, hPatch, rfl⟩ := onBuffer_ok.1 h
  obtain ⟨source, b, old, hAt, hOld, hRange, rfl⟩ := patch_buffer_ok.1 hPatch
  refine ⟨b, old, _, hOld, fun address hAddress => ?_, rfl⟩
  obtain rfl := Option.some.inj (hAt.symm.trans hAddress)
  rw [Int16.toInt_ofInt_of_le (by omega) (by omega)]
  omega

theorem patch_later (h : patch site target s = .ok u t) : s.Later (· = site) t := by
  obtain ⟨b, old, new, hOld, _, rfl⟩ := patch_ok h
  exact .of_code (.set hOld rfl)

theorem patch_targets (h : patch site target s = .ok u t) (hs : s.code.Consistent) : t.code.Targets site target := by
  obtain ⟨b, old, new, hOld, hNew, rfl⟩ := patch_ok h
  have hLt : site < s.code.instructions.size := (Array.getElem?_eq_some_iff.1 hOld).1
  have hAddress : s.code.addresses[site]? = some (s.code.address site) := by simp [CodeBuffer.address, hs.sizes, hLt]
  refine ⟨b, new, ?_, hNew _ hAddress⟩
  simp only [Array.set!_eq_setIfInBounds]
  exact Array.getElem?_setIfInBounds_self_of_lt hLt

theorem patchAll_nil : patchAll [] target s = .ok u t ↔ s = t := by
  show EStateM.Result.ok PUnit.unit s = _ ↔ _
  simp

theorem patchAll_cons : patchAll (site :: sites) target s = .ok u t ↔
      ∃ r, patch site target s = .ok () r ∧ patchAll sites target r = .ok u t := by
  unfold patchAll patch
  simp only [onBuffer_ok]
  constructor
  · rintro ⟨c, h, rfl⟩
    obtain ⟨_, d, hFirst, hRest⟩ := bind_ok.1 h
    exact ⟨{ s with code := d }, ⟨d, hFirst, rfl⟩, c, hRest, rfl⟩
  · rintro ⟨_, ⟨d, hFirst, rfl⟩, c, hRest, rfl⟩
    exact ⟨c, bind_ok.2 ⟨_, d, hFirst, hRest⟩, rfl⟩

/-- Patching changes the instructions alone, and of these the given branches. -/
theorem patchAll_ok (h : patchAll sites target s = .ok u t) : s.Later (· ∈ sites) t ∧
      (s.code.Consistent → ∀ site ∈ sites, t.code.Targets site target) ∧
      ∃ instructions, t = { s with code := { s.code with instructions := instructions } } := by
  induction sites generalizing s with
  | nil =>
    obtain rfl := patchAll_nil.1 h
    exact ⟨.refl _ _, by simp, _, rfl⟩
  | cons site sites ih =>
    obtain ⟨r, hFirst, hRest⟩ := patchAll_cons.1 h
    obtain ⟨hLater, hTargets, _, hSame⟩ := ih hRest
    have hFirstLater := patch_later hFirst
    refine ⟨(hFirstLater.trans hLater).mono (by simp), ?_, ?_⟩
    · intro hs k hk
      have hr := hFirstLater.consistent hs
      rcases Decidable.em (k ∈ sites) with hLast | hNot
      · exact hTargets hr k hLast
      · obtain rfl : k = site := by simpa [hNot] using hk
        exact (patch_targets hFirst hs).later hr hLater.code hNot
    · obtain ⟨b, old, new, _, _, rfl⟩ := patch_ok hFirst
      exact ⟨_, hSame⟩

/-- Patching adds no instruction. -/
theorem patchAll_next (h : patchAll sites target s = .ok u t) : t.next = s.next := by
  induction sites generalizing s with
  | nil => rw [patchAll_nil.1 h]
  | cons site sites ih =>
    obtain ⟨r, hFirst, hRest⟩ := patchAll_cons.1 h
    obtain ⟨_, _, _, _, _, rfl⟩ := patch_ok hFirst
    exact (ih hRest).trans (by simp [EmitState.next])

theorem land_ok : land sites s = .ok u t ↔ patchAll sites s.code.pc s = .ok u t := by
  unfold land
  rw [bind_ok]
  constructor
  · rintro ⟨_, _, hHere, h⟩
    obtain ⟨rfl, rfl⟩ := here_ok.1 hHere
    exact h
  · exact fun h => ⟨_, _, here_ok.2 ⟨rfl, rfl⟩, h⟩

/-- A jump to a known address is a branch that is patched at once. -/
theorem emitGoto_ok : (liftM (CodeBuffer.emitGoto target) : Emit Nat) s = .ok site t ↔
      ∃ r, goto s = .ok site r ∧ patch site target r = .ok () t := by
  unfold goto branch patch
  simp only [onBuffer_ok]
  constructor
  · rintro ⟨c, h, rfl⟩
    obtain ⟨k, d, hFirst, h⟩ := bind_ok.1 h
    obtain ⟨_, e, hPatch, h⟩ := bind_ok.1 h
    obtain ⟨rfl, rfl⟩ := pure_ok.1 h
    exact ⟨{ s with code := d }, ⟨d, hFirst, rfl⟩, e, hPatch, rfl⟩
  · rintro ⟨_, ⟨d, hFirst, rfl⟩, e, hPatch, rfl⟩
    exact ⟨e, bind_ok.2 ⟨site, d, hFirst, bind_ok.2 ⟨_, e, hPatch, pure_ok.2 ⟨rfl, rfl⟩⟩⟩, rfl⟩

/-! Slots. -/

theorem reserve_ok {purpose : LocalPurpose} {type : JavaType} {slot : UInt16}
    (h : reserve purpose type s = .ok slot t) :
    s.code.maxLocals = slot ∧ slot.toNat + type.slots < 65536 ∧
      t = { s with code :=
        { s.code with
          maxLocals := (slot.toNat + type.slots).toUInt16
          uses := ⟨purpose, type, slot⟩ :: s.code.uses } } := by
  obtain ⟨c, hBuffer, rfl⟩ := onBuffer_ok.1 h
  obtain ⟨_, _, hAllocate, h⟩ := bind_ok.1 hBuffer
  obtain ⟨_, d, hNote, h⟩ := bind_ok.1 h
  obtain ⟨rfl, rfl⟩ := pure_ok.1 h
  obtain rfl := modify_ok.1 hNote
  unfold CodeBuffer.allocate at hAllocate
  obtain ⟨b, _, hGet, h⟩ := bind_ok.1 hAllocate
  obtain ⟨rfl, rfl⟩ := get_ok.1 hGet
  split at h
  · rename_i hFits
    obtain ⟨_, d, hModify, h⟩ := bind_ok.1 h
    obtain ⟨rfl, rfl⟩ := pure_ok.1 h
    obtain rfl := modify_ok.1 hModify
    exact ⟨rfl, hFits, rfl⟩
  · exact (not_throw_ok h).elim

/-- A variable keeps its slot, and gets new locals if it has none. -/
theorem slotOf_ok {ctx : TypingContext} {v : Variable} {slot : UInt16} (h : slotOf ctx v s = .ok slot t) :
    s.slot? v.number = some slot ∧ s = t ∨
      s.slot? v.number = none ∧ ∃ type r, ctx.variableType v = .ok type ∧
        reserve (.variable v.number) type s = .ok slot r ∧
          t = { r with slots := r.slots.set! v.number (some slot) } := by
  unfold slotOf at h
  obtain ⟨_, _, hGet, h⟩ := bind_ok.1 h
  obtain ⟨rfl, rfl⟩ := get_ok.1 hGet
  cases hSlot : s.slot? v.number with
  | some found =>
    rw [show (s.slots[v.number]?).join = some found from hSlot] at h
    obtain ⟨rfl, rfl⟩ := pure_ok.1 h
    exact .inl ⟨rfl, rfl⟩
  | none =>
    rw [show (s.slots[v.number]?).join = none from hSlot] at h
    obtain ⟨type, _, hLift, h⟩ := bind_ok.1 h
    obtain ⟨hType, rfl⟩ := lift_ok.1 hLift
    obtain ⟨_, r, hReserve, h⟩ := bind_ok.1 h
    obtain ⟨_, _, hModify, h⟩ := bind_ok.1 h
    obtain ⟨rfl, rfl⟩ := pure_ok.1 h
    obtain rfl := modify_ok.1 hModify
    exact .inr ⟨rfl, type, r, hType, hReserve, rfl⟩

end Emit

theorem EmitState.slot?_set (s : EmitState) (n m : Nat) (slot : UInt16) :
    { s with slots := s.slots.set! n (some slot) }.slot? m =
      if n = m ∧ m < s.slots.size then some slot else s.slot? m := by
  simp only [slot?, Array.set!_eq_setIfInBounds, Array.getElem?_setIfInBounds]
  by_cases hSame : n = m
  · subst hSame
    by_cases hLt : n < s.slots.size <;> simp [hLt]
  · simp [hSame]

namespace Emit

variable {types : Option (Nat → JavaType)} {s t : EmitState}

theorem reserve_later {purpose : LocalPurpose} {type : JavaType} {slot : UInt16}
    (h : reserve purpose type s = .ok slot t) : s.Later (fun _ => False) t := by
  obtain ⟨rfl, hFits, rfl⟩ := reserve_ok h
  refine .of_code (.of_same rfl rfl rfl (UInt16.le_refl _) ?_ (List.prefix_refl _))
  rw [UInt16.le_iff_toNat_le]
  simp [Nat.mod_eq_of_lt hFits]

theorem Growing.reserve (purpose : LocalPurpose) (type : JavaType) : Growing types (reserve purpose type) := by
  refine ⟨fun s slot t h => ?_⟩
  have hLater := reserve_later h
  obtain ⟨_, _, rfl⟩ := reserve_ok h
  exact .of_later hLater rfl rfl rfl rfl

end Emit

/-- A variable gets a slot above all slots in use. -/
theorem EmitState.SlotsApart.insert {types : Nat → JavaType} {s : EmitState} {n : Nat} {slot : UInt16}
    (hs : s.SlotsApart types) (hBelow : slot.toNat + (types n).slots ≤ s.code.maxLocals.toNat)
    (hAbove : ∀ m a, s.slot? m = some a → a.toNat + (types m).slots ≤ slot.toNat) :
    { s with slots := s.slots.set! n (some slot) }.SlotsApart types where
  below m a hm := by
    rw [slot?_set] at hm
    split at hm
    · rename_i hSame
      cases hm
      rw [← hSame.1]
      exact hBelow
    · exact hs.below m a hm
  apart m m' a b hne hm hm' := by
    rw [slot?_set] at hm hm'
    split at hm
    · rename_i hSame
      cases hm
      rw [if_neg (by rintro ⟨rfl, _⟩; exact hne hSame.1.symm)] at hm'
      exact .inr (hAbove m' b hm')
    · split at hm'
      · cases hm'
        exact .inl (hAbove m a hm)
      · exact hs.apart m m' a b hne hm hm'

namespace Emit

variable {types : Option (Nat → JavaType)} {s t : EmitState} {ctx : TypingContext} {v : Variable}

theorem slotOf_later {slot : UInt16} (h : slotOf ctx v s = .ok slot t) : s.Later (fun _ => False) t := by
  rcases slotOf_ok h with ⟨_, rfl⟩ | ⟨hNone, type, r, _, hReserve, rfl⟩
  · exact .refl _ s
  have hLater := reserve_later hReserve
  obtain ⟨rfl, _, rfl⟩ := reserve_ok hReserve
  have hSlot := EmitState.slot?_set s v.number
  exact
    { hLater with
      slots_size := by simp
      slot_kept := fun n slot hn =>
        (hSlot n _).trans (by rw [if_neg (by rintro ⟨rfl, _⟩; rw [hNone] at hn; cases hn), hn])
      slot_fresh := fun n slot hn => by
        have hn := (hSlot n _).symm.trans hn
        split at hn
        · cases hn
          exact .inr (UInt16.le_refl _)
        · exact .inl hn }

theorem Growing.slotOf (hType : ctx.Agrees types v) : Growing types (slotOf ctx v) := by
  refine ⟨fun s slot t h => ?_⟩
  have hLater := slotOf_later h
  rcases slotOf_ok h with ⟨_, rfl⟩ | ⟨_, type, r, hFound, hReserve, rfl⟩
  · exact .refl s
  have hr : s.Appends types r := (Growing.reserve _ type).grows s slot r hReserve
  obtain ⟨rfl, hFits, rfl⟩ := reserve_ok hReserve
  exact
    { later := hLater
      apart := fun hs => by
        cases types with
        | none => trivial
        | some types =>
          obtain rfl := hType types rfl type hFound
          exact EmitState.SlotsApart.insert (hr.apart hs) (by simp [Nat.mod_eq_of_lt hFits])
            (EmitState.SlotsApart.below hs)
      results := rfl
      handlers := rfl
      steady := fun _ k hLe hLt => (Nat.not_lt_of_le hLe hLt).elim }

/-- Once a variable is asked for, it has a slot. -/
theorem slotOf_slot {slot : UInt16} (h : slotOf ctx v s = .ok slot t) (hNumber : v.number < s.slots.size) :
    t.slot? v.number = some slot := by
  rcases slotOf_ok h with ⟨hSlot, rfl⟩ | ⟨_, type, r, _, hReserve, rfl⟩
  · exact hSlot
  · obtain ⟨rfl, _, rfl⟩ := reserve_ok hReserve
    exact (EmitState.slot?_set s v.number v.number _).trans (by simp [hNumber])

end Emit

end JavaFragment
