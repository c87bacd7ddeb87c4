import JavaFragment.Proofs.LocalUses
/-!
What emission can run into. Emitters keep to a discipline: branches and switches that are to be pointed to their
targets later stay where they are, locals are reserved for known variables and hidden values only, accessors can be
called, and nothing but allowed faults is reported, whether or not a fault ends the run.
-/
namespace JavaFragment

variable {s : EmitState}

/-- What runs keep to: states stay sound, each goes on from those before it, and only some faults are reported. -/
structure Discipline (ε σ : Type) where
  sound : σ → Prop
  le : σ → σ → Prop
  allowed : ε → Prop
  refl : ∀ s, le s s
  trans : ∀ {r s t}, le r s → le s t → le r t

/-- Every run from a state that goes on from a given one keeps to a discipline, and what it gives satisfies a
condition in the state after it. -/
structure Obeys {ε σ α : Type} (D : Discipline ε σ) (s₀ : σ) (Q : α → σ → Prop) (x : EStateM ε σ α) : Prop where
  ok : ∀ s a t, D.le s₀ s → D.sound s → x s = .ok a t → D.sound t ∧ D.le s t ∧ Q a t
  error : ∀ s e t, D.le s₀ s → D.sound s → x s = .error e t → D.sound t ∧ D.le s t ∧ D.allowed e

/-- Every run keeps to a discipline. -/
abbrev Passes {ε σ α : Type} (D : Discipline ε σ) (s₀ : σ) (x : EStateM ε σ α) : Prop := Obeys D s₀ (fun _ _ => True) x

namespace Obeys

variable {ε σ α β : Type} {D : Discipline ε σ} {s₀ : σ} {M : α → σ → Prop} {Q : β → σ → Prop} {x : EStateM ε σ α}

theorem pure {b : β} (h : ∀ s, D.le s₀ s → Q b s) : Obeys D s₀ Q (pure b) where
  ok s a t hs hSound hRun := by
    obtain ⟨rfl, rfl⟩ := Emit.pure_ok.1 hRun
    exact ⟨hSound, D.refl _, h s hs⟩
  error _ _ _ _ _ h := nomatch h

theorem done {a : α} : Passes D s₀ (Pure.pure a) := pure fun _ _ => trivial

theorem throw {e : ε} (h : D.allowed e) : Obeys D s₀ Q (throw e) where
  ok _ _ _ _ _ hRun := (Emit.not_throw_ok hRun).elim
  error s e t _ hSound hRun := by
    cases hRun
    exact ⟨hSound, D.refl s, h⟩

theorem get : Obeys D s₀ (fun s t => s = t ∧ D.sound t) get where
  ok s a t hs hSound hRun := by
    obtain ⟨rfl, rfl⟩ := Emit.get_ok.1 hRun
    exact ⟨hSound, D.refl _, rfl, hSound⟩
  error _ _ _ _ _ h := nomatch h

theorem modify {f : σ → σ} (hf : ∀ s, D.le s₀ s → D.sound s → D.sound (f s) ∧ D.le s (f s)) :
    Passes D s₀ (modify f : EStateM ε σ PUnit) where
  ok s u t hs hSound hRun := by
    obtain rfl := Emit.modify_ok.1 hRun
    exact ⟨(hf s hs hSound).1, (hf s hs hSound).2, trivial⟩
  error _ _ _ _ _ h := nomatch h

theorem set {s' : σ} (h : ∀ s, D.le s₀ s → D.sound s' ∧ D.le s s') : Passes D s₀ (set s' : EStateM ε σ PUnit) where
  ok s u t hs _ hRun := by
    cases hRun
    exact ⟨(h s hs).1, (h s hs).2, trivial⟩
  error _ _ _ _ _ h := nomatch h

theorem bind {f : α → EStateM ε σ β} (hx : Obeys D s₀ M x)
    (hf : ∀ a s, D.le s₀ s → M a s → Obeys D s Q (f a)) : Obeys D s₀ Q (x >>= f) where
  ok s b t hs hSound hRun := by
    obtain ⟨a, r, hFirst, hRest⟩ := Emit.bind_ok.1 hRun
    obtain ⟨hr, hLe, hM⟩ := hx.ok s a r hs hSound hFirst
    obtain ⟨ht, hLe', hQ⟩ := (hf a r (D.trans hs hLe) hM).ok r b t (D.refl r) hr hRest
    exact ⟨ht, D.trans hLe hLe', hQ⟩
  error s e t hs hSound hRun := by
    rcases Emit.bind_error.1 hRun with hFirst | ⟨a, r, hFirst, hRest⟩
    · exact hx.error s e t hs hSound hFirst
    · obtain ⟨hr, hLe, hM⟩ := hx.ok s a r hs hSound hFirst
      obtain ⟨ht, hLe', hAllowed⟩ := (hf a r (D.trans hs hLe) hM).error r e t (D.refl r) hr hRest
      exact ⟨ht, D.trans hLe hLe', hAllowed⟩

theorem andThen {f : α → EStateM ε σ β} (hx : Passes D s₀ x)
    (hf : ∀ a s, D.le s₀ s → Obeys D s Q (f a)) : Obeys D s₀ Q (x >>= f) := bind hx fun a s hs _ => hf a s hs

theorem mono {M' : α → σ → Prop} (hx : Obeys D s₀ M x) (h : ∀ a s, D.le s₀ s → M a s → M' a s) : Obeys D s₀ M' x where
  ok s a t hs hSound hRun := by
    obtain ⟨ht, hLe, hM⟩ := hx.ok s a t hs hSound hRun
    exact ⟨ht, hLe, h a t (D.trans hs hLe) hM⟩
  error := hx.error

/-- What a run gives is what it was seen to give. -/
theorem ran (hx : Obeys D s₀ M x) : Obeys D s₀ (fun a t => ∃ s, x s = .ok a t) x where
  ok s a t hs hSound hRun := ⟨(hx.ok s a t hs hSound hRun).1, (hx.ok s a t hs hSound hRun).2.1, s, hRun⟩
  error := hx.error

theorem passes (hx : Obeys D s₀ M x) : Passes D s₀ x := hx.mono fun _ _ _ _ => trivial

theorem map {f : α → β} (hx : Obeys D s₀ (fun a => Q (f a)) x) : Obeys D s₀ Q (f <$> x) where
  ok s b t hs hSound hRun := by
    obtain ⟨a, hFirst, rfl⟩ := Emit.map_ok.1 hRun
    exact hx.ok s a t hs hSound hFirst
  error s e t hs hSound hRun := by
    rw [map_eq_pure_bind] at hRun
    rcases Emit.bind_error.1 hRun with hFirst | ⟨_, _, _, hPure⟩
    · exact hx.error s e t hs hSound hFirst
    · cases hPure

theorem ite {c : Prop} [Decidable c] {x y : EStateM ε σ β} (hx : c → Obeys D s₀ Q x) (hy : ¬ c → Obeys D s₀ Q y) :
    Obeys D s₀ Q (if c then x else y) := by
  split
  · next h => exact hx h
  · next h => exact hy h

/-- A part that is left out unless a condition holds. -/
theorem onlyIf {c : Prop} [Decidable c] {k : EStateM ε σ β} (hx : c → Passes D s₀ x)
    (hk : ∀ s, D.le s₀ s → Obeys D s Q k) : Obeys D s₀ Q (if c then x >>= fun _ => k else k) :=
  ite (fun h => andThen (hx h) fun _ s hs => hk s hs) fun _ => hk s₀ (D.refl s₀)

theorem forM {xs : List α} {f : α → EStateM ε σ PUnit} (hf : ∀ a ∈ xs, ∀ s, D.le s₀ s → Passes D s (f a)) :
    Passes D s₀ (xs.forM f) := by
  induction xs generalizing s₀ with
  | nil => exact done
  | cons a xs ih =>
    exact andThen (hf a (by simp) s₀ (D.refl s₀)) fun _ s hs =>
      ih fun b hb t ht => hf b (by simp [hb]) t (D.trans hs ht)

end Obeys

/-! Buffers. -/

namespace CodeBuffer

/-- There is a branch at an index. -/
def HasBranch (b : CodeBuffer) (site : Nat) : Prop :=
  ∃ branch offset, b.instructions[site]? = some (.branch branch offset)

/-- There is a switch with a number of keys at an index. -/
def HasSwitch (b : CodeBuffer) (site keys : Nat) : Prop :=
  ∃ default pairs, b.instructions[site]? = some (.lookupSwitch default pairs) ∧ pairs.length = keys

/-- Branches and switches stay what they are. -/
structure KeepsJumps (b c : CodeBuffer) : Prop where
  branch : ∀ site, b.HasBranch site → c.HasBranch site
  switch : ∀ site keys, b.HasSwitch site keys → c.HasSwitch site keys

/-- Jumps stay, and the locals are as they were. -/
structure Keeps (b c : CodeBuffer) : Prop extends b.KeepsJumps c where
  uses : c.uses = b.uses
  locals : c.maxLocals = b.maxLocals

/-- Every instruction has an address. -/
def Placed (b : CodeBuffer) : Prop := b.addresses.size = b.instructions.size

namespace KeepsJumps

variable {b c d : CodeBuffer}

theorem of_eq (h : c.instructions = b.instructions) : b.KeepsJumps c where
  branch site hSite := by rwa [HasBranch, h]
  switch site keys hSite := by rwa [HasSwitch, h]

theorem trans (h : b.KeepsJumps c) (h' : c.KeepsJumps d) : b.KeepsJumps d :=
  ⟨fun site hSite => h'.branch site (h.branch site hSite),
    fun site keys hSite => h'.switch site keys (h.switch site keys hSite)⟩

/-- Instructions are only added. -/
theorem of_kept (h : ∀ (site : Nat) (i : Instruction), b.instructions[site]? = some i → c.instructions[site]? = some i) :
    b.KeepsJumps c where
  branch site := fun ⟨branch, offset, hSite⟩ => ⟨branch, offset, h site _ hSite⟩
  switch site _ := fun ⟨default, pairs, hSite, hKeys⟩ => ⟨default, pairs, h site _ hSite, hKeys⟩

end KeepsJumps

theorem Keeps.refl (b : CodeBuffer) : b.Keeps b := ⟨.of_eq rfl, rfl, rfl⟩

theorem Keeps.trans {b c d : CodeBuffer} (h : b.Keeps c) (h' : c.Keeps d) : b.Keeps d :=
  ⟨h.toKeepsJumps.trans h'.toKeepsJumps, h'.uses.trans h.uses, h'.locals.trans h.locals⟩

/-- Buffers of which only allowed faults are reported. -/
def discipline (P : CompileError → Prop) : Discipline BufferFault CodeBuffer where
  sound := Placed
  le := Keeps
  allowed fault := P (.buffer fault)
  refl := .refl
  trans := .trans

section Operations

variable {P : CompileError → Prop} {b₀ : CodeBuffer} {b : CodeBuffer} {site : Nat}

theorem appendWith_keeps (b : CodeBuffer) (i : Instruction) (change : Int) : b.Keeps (b.appendWith i change) := by
  refine ⟨.of_kept fun site other hSite => ?_, rfl, rfl⟩
  have hLt := (Array.getElem?_eq_some_iff.1 hSite).1
  show (b.instructions.push i)[site]? = some other
  rw [Array.getElem?_push_lt hLt, ← hSite, Array.getElem?_eq_getElem hLt]

theorem Placed.appendWith (h : b.Placed) (i : Instruction) (change : Int) : (b.appendWith i change).Placed := by
  show (b.addresses.push _).size = (b.instructions.push _).size
  rw [Array.size_push, Array.size_push, h]

theorem emit_last (b : CodeBuffer) (i : Instruction) : (b.append i).instructions[b.instructions.size]? = some i := by
  show (b.instructions.push i)[b.instructions.size]? = some i
  exact Array.getElem?_push_size

/-- An instruction is appended at the index that is given. -/
theorem emit_obeys (i : Instruction) :
    Obeys (discipline P) b₀ (fun site c => c.instructions[site]? = some i) (emit i) where
  ok b site c _ hSound hRun := by
    cases hRun
    exact ⟨hSound.appendWith i _, b.appendWith_keeps i _, b.emit_last i⟩
  error _ _ _ _ _ h := nomatch h

theorem addressOf_obeys (h : ∀ b, b₀.Keeps b → site < b.instructions.size) :
    Passes (discipline P) b₀ (addressOf site) := by
  refine .bind .get fun b c hb ⟨hSame, hSound⟩ => ?_
  subst hSame
  have hLt : site < b.addresses.size := (show b.addresses.size = b.instructions.size from hSound) ▸ h b hb
  rw [Array.getElem?_eq_getElem hLt]
  exact .done

theorem getElem?_set_ne {other : Nat} (h : site ≠ other) (i : Instruction) :
    (b.instructions.set! site i)[other]? = b.instructions[other]? := by
  rw [Array.set!_eq_setIfInBounds, Array.getElem?_setIfInBounds_ne h]

/-- Replacing a branch by a branch keeps all jumps. -/
theorem set_branch (h : b.HasBranch site) (branch : Branch) (offset : Int16) :
    b.KeepsJumps { b with instructions := b.instructions.set! site (.branch branch offset) } where
  branch other hOther := by
    by_cases hSame : site = other
    · subst hSame
      obtain ⟨_, _, hSite⟩ := h
      have hLt := (Array.getElem?_eq_some_iff.1 hSite).1
      exact ⟨branch, offset, by simp [hLt]⟩
    · obtain ⟨b', o', hSite⟩ := hOther
      exact ⟨b', o', (getElem?_set_ne hSame _).trans hSite⟩
  switch other keys hOther := by
    obtain ⟨default, pairs, hSite, hKeys⟩ := hOther
    have hOther : site ≠ other := by
      rintro rfl
      obtain ⟨_, _, hBranch⟩ := h
      cases hBranch.symm.trans hSite
    exact ⟨default, pairs, (getElem?_set_ne hOther _).trans hSite, hKeys⟩

/-- Replacing a switch by one with as many keys keeps all jumps. -/
theorem set_switch {default : Int32} {pairs : List (Int32 × Int32)} (h : b.HasSwitch site pairs.length) :
    b.KeepsJumps { b with instructions := b.instructions.set! site (.lookupSwitch default pairs) } where
  branch other hOther := by
    obtain ⟨branch, offset, hSite⟩ := hOther
    have hOther : site ≠ other := by
      rintro rfl
      obtain ⟨_, _, hSwitch, -⟩ := h
      cases hSwitch.symm.trans hSite
    exact ⟨branch, offset, (getElem?_set_ne hOther _).trans hSite⟩
  switch other keys hOther := by
    by_cases hSame : site = other
    · subst hSame
      obtain ⟨_, pairs', hSite, hKeys⟩ := hOther
      obtain ⟨_, old, hSite', hOld⟩ := h
      have hLt := (Array.getElem?_eq_some_iff.1 hSite).1
      cases hSite.symm.trans hSite'
      exact ⟨default, pairs, by simp [hLt], hOld.symm.trans hKeys⟩
    · obtain ⟨d, pairs', hSite, hKeys⟩ := hOther
      exact ⟨d, pairs', (getElem?_set_ne hSame _).trans hSite, hKeys⟩

theorem Placed.set (h : b.Placed) (site : Nat) (i : Instruction) :
    Placed { b with instructions := b.instructions.set! site i } := by
  show b.addresses.size = (b.instructions.set! site i).size
  rw [Array.set!_eq_setIfInBounds, Array.size_setIfInBounds, h]

variable (hP : Lenient P)
include hP

theorem patch_obeys (h : b₀.HasBranch site) (target : Nat) : Passes (discipline P) b₀ (patch site target) := by
  have hSize (b : CodeBuffer) (hb : b₀.Keeps b) : site < b.instructions.size := by
    obtain ⟨_, _, hSite⟩ := hb.branch site h
    exact (Array.getElem?_eq_some_iff.1 hSite).1
  refine .andThen (addressOf_obeys hSize) fun source b hb => .onlyIf (fun _ => .throw (hP _ nofun)) fun c hc =>
    .bind .get fun found d hd ⟨hSame, _⟩ => ?_
  subst hSame
  obtain ⟨branch, offset, hSite⟩ := ((hb.trans hc).trans hd).branch site h
  rw [hSite]
  exact .modify fun e he hSound => ⟨hSound.set ..,
    set_branch ((((hb.trans hc).trans hd).trans he).branch site h) .., rfl, rfl⟩

theorem patchAll_obeys {sites : List Nat} (h : ∀ site ∈ sites, b₀.HasBranch site) (target : Nat) :
    Passes (discipline P) b₀ (patchAll sites target) :=
  .forM fun site hSite _ hb => patch_obeys hP (hb.branch site (h site hSite)) target

theorem emitGoto_obeys (target : Nat) : Passes (discipline P) b₀ (emitGoto target) :=
  .bind (emit_obeys _) fun _ _ _ hSite => .andThen (patch_obeys hP ⟨_, _, hSite⟩ target) fun _ _ _ => .done

omit hP in
theorem patchSwitch_obeys {default : Nat} {targets : List Nat} (h : b₀.HasSwitch site targets.length) :
    Passes (discipline P) b₀ (patchSwitch site default targets) := by
  have hSize (b : CodeBuffer) (hb : b₀.Keeps b) : site < b.instructions.size := by
    obtain ⟨_, _, hSite, -⟩ := hb.switch site _ h
    exact (Array.getElem?_eq_some_iff.1 hSite).1
  refine .andThen (addressOf_obeys hSize) fun source b hb => .bind .get fun found c hc ⟨hSame, _⟩ => ?_
  subst hSame
  obtain ⟨old, pairs, hSite, hKeys⟩ := (hb.trans hc).switch site _ h
  rw [hSite]
  refine .ite (fun hOther => (hOther hKeys).elim) fun _ => .modify fun d hd hSound =>
    ⟨hSound.set .., set_switch ?_, rfl, rfl⟩
  rw [List.length_zipWith, hKeys, Nat.min_self]
  exact ((hb.trans hc).trans hd).switch site _ h

theorem tableAddress_obeys (address : Nat) : Passes (discipline P) b₀ (tableAddress address) :=
  .ite (fun _ => .done) fun _ => .throw (hP _ nofun)

theorem addHandler_obeys (start stop handler : Nat) (caught : UInt16) :
    Passes (discipline P) b₀ (addHandler start stop handler caught) :=
  .andThen (tableAddress_obeys hP _) fun _ _ _ => .andThen (tableAddress_obeys hP _) fun _ _ _ =>
    .andThen (tableAddress_obeys hP _) fun _ _ _ => .modify fun _ _ hSound => ⟨hSound, .of_eq rfl, rfl, rfl⟩

omit hP in
theorem emitInvoke_obeys (kind : InvokeKind) (index : UInt16) {descriptor : String}
    (h : isCallable descriptor ∨ ∀ e, P e) : Passes (discipline P) b₀ (emitInvoke kind index descriptor) := by
  unfold emitInvoke
  split
  · next hNone =>
    refine .throw (h.resolve_left ?_ _)
    simp [isCallable, hNone]
  · exact .modify fun b _ hSound => ⟨hSound.appendWith .., b.appendWith_keeps ..⟩

end Operations

end CodeBuffer

/-! Emission. -/

/-- What emission is to keep to: the variables that it may reserve locals for and the faults that it may report. All
faults are allowed unless it is strict, which takes well-formed classes. -/
structure Conduct (ctx : TypingContext) where
  known : Variable → Prop
  allowed : CompileError → Prop
  strict : Prop
  fair : ctx.Fair allowed
  safe : strict → ctx.Safe allowed
  liberal : ¬ strict → ∀ e, allowed e

variable {ctx : TypingContext} {C : Conduct ctx}

namespace Conduct

/-- Whatever is reported, only for known variables are locals reserved. -/
def ofKnown (ctx : TypingContext) (known : Variable → Prop) : Conduct ctx :=
  ⟨known, fun _ => True, False, .of_all fun _ => trivial, False.elim, fun _ _ => trivial⟩

/-- In safe surroundings only allowed faults are reported. -/
def ofSafe {P : CompileError → Prop} (h : ctx.Safe P) : Conduct ctx :=
  ⟨fun _ => True, P, True, h.toFair, fun _ => h, fun hStrict => (hStrict trivial).elim⟩

theorem lenient (C : Conduct ctx) : Lenient C.allowed := C.fair.lenient

end Conduct

namespace EmitState

/-- Emission goes on: jumps stay, and locals are reserved step by step. -/
structure Continues (C : Conduct ctx) (s t : EmitState) : Prop extends s.code.KeepsJumps t.code where
  steps : Relation.ReflTransGen (LocalStep ctx C.known) s t

variable {t : EmitState}

theorem Continues.refl (s : EmitState) : s.Continues C s := ⟨.of_eq rfl, .refl⟩

theorem Continues.of_keeps (h : s.code.Keeps t.code) (hSlots : t.slots = s.slots) : s.Continues C t :=
  ⟨h.toKeepsJumps, .single (.nothing hSlots h.uses h.locals)⟩

theorem Continues.trans {r : EmitState} (h : r.Continues C s) (h' : s.Continues C t) : r.Continues C t :=
  ⟨h.toKeepsJumps.trans h'.toKeepsJumps, h.steps.trans h'.steps⟩

/-- All branches of a list are where they are said to be. -/
def Branches (s : EmitState) (sites : List Nat) : Prop := ∀ site ∈ sites, s.code.HasBranch site

theorem Branches.later {sites : List Nat} (h : s.Branches sites) (hLater : s.Continues C t) : t.Branches sites :=
  fun site hSite => hLater.branch site (h site hSite)

theorem Branches.append {sites others : List Nat} (h : s.Branches sites) (h' : s.Branches others) :
    s.Branches (sites ++ others) := List.forall_mem_append.2 ⟨h, h'⟩

theorem branches_singleton {site : Nat} (h : s.code.HasBranch site) : s.Branches [site] :=
  List.forall_mem_singleton.2 h

theorem branches_nil : s.Branches [] := nofun

end EmitState

/-- Emission that conducts itself. -/
def Emit.discipline (C : Conduct ctx) : Discipline CompileError EmitState where
  sound s := s.code.Placed ∧ (C.strict → ∀ entry ∈ s.accessors, entry.2.Callable)
  le s t := s.Continues C t
  allowed := C.allowed
  refl := .refl
  trans := .trans

namespace Obeys

open Emit

variable {α β : Type} {s₀ : EmitState}

theorem liftThen {x : Except CompileError α} {f : α → Emit β} {Q : β → EmitState → Prop} (hx : Faults C.allowed x)
    (hf : ∀ a, x = .ok a → Obeys (discipline C) s₀ Q (f a)) : Obeys (discipline C) s₀ Q (liftM x >>= f) := by
  cases x with
  | ok a => exact hf a rfl
  | error e => exact throw (hx.of_error e rfl)

theorem pool (x : StateM ConstantPool α) : Passes (discipline C) s₀ (liftM x : Emit α) where
  ok s a t _ hSound h := by
    obtain ⟨-, rfl⟩ := onPool_ok.1 h
    exact ⟨hSound, .of_keeps (.refl _) rfl, trivial⟩
  error _ _ _ _ _ h := nomatch h

/-- An operation on the buffer, which may rely on the jumps that are there. -/
theorem buffer {x : BufferM α} {M : α → CodeBuffer → Prop}
    (hx : ∀ b, s₀.code.KeepsJumps b → Obeys (CodeBuffer.discipline C.allowed) b M x) :
    Obeys (discipline C) s₀ (fun a t => M a t.code) (liftM x : Emit α) where
  ok s a t hs hSound h := by
    obtain ⟨c, hCode, rfl⟩ := onBuffer_ok.1 h
    obtain ⟨hPlaced, hKeeps, hM⟩ := (hx _ hs.toKeepsJumps).ok s.code a c (.refl _) hSound.1 hCode
    exact ⟨⟨hPlaced, hSound.2⟩, .of_keeps hKeeps rfl, hM⟩
  error s e t hs hSound h := by
    obtain ⟨fault, c, hCode, rfl, rfl⟩ := onBuffer_error h
    obtain ⟨hPlaced, hKeeps, hAllowed⟩ := (hx _ hs.toKeepsJumps).error s.code fault c (.refl _) hSound.1 hCode
    exact ⟨⟨hPlaced, hSound.2⟩, .of_keeps hKeeps rfl, hAllowed⟩

theorem change {f : CodeBuffer → CodeBuffer} (hf : ∀ b, b.Placed → (f b).Placed ∧ b.Keeps (f b)) :
    Passes (discipline C) s₀ (change f) := buffer fun _ _ => .modify fun b _ hSound => hf b hSound

theorem appendWith (i : Instruction) (change : Int) : Passes (discipline C) s₀ (Emit.change (·.appendWith i change)) :=
  .change fun b hb => ⟨hb.appendWith i change, b.appendWith_keeps i change⟩

theorem emit (i : Instruction) : Passes (discipline C) s₀ (emit i) := appendWith i _

theorem setDepth (depth : Int) : Passes (discipline C) s₀ (setDepth depth) :=
  change fun _ hb => ⟨hb, .of_eq rfl, rfl, rfl⟩

theorem branch (b : Branch) : Obeys (discipline C) s₀ (fun site t => t.code.HasBranch site) (branch b) :=
  (buffer fun _ _ => CodeBuffer.emit_obeys _).mono fun _ _ _ h => ⟨_, _, h⟩

theorem here : Passes (discipline C) s₀ here := bind get fun _ _ _ _ => done

theorem depth : Passes (discipline C) s₀ depth := bind get fun _ _ _ _ => done

theorem emitInvoke (kind : InvokeKind) (index : UInt16) {descriptor : String} (h : C.strict → isCallable descriptor) :
    Passes (discipline C) s₀ (liftM (CodeBuffer.emitInvoke kind index descriptor) : Emit Unit) :=
  (buffer fun _ _ => CodeBuffer.emitInvoke_obeys _ _ ((Classical.em C.strict).imp h C.liberal)).passes

theorem invoke (kind : InvokeKind) (owner name : String) {descriptor : String} (h : C.strict → isCallable descriptor) :
    Passes (discipline C) s₀ (invoke kind owner name descriptor) := by
  cases kind <;> exact andThen (pool _) fun _ _ _ => emitInvoke _ _ h

theorem appendField (op : FieldOp) (index : UInt16) (type : JavaType) :
    Passes (discipline C) s₀ (Emit.change (·.appendField op index type)) := appendWith (.field op index) _

/-- An accessor that is asked for in strict emission can be called. -/
theorem accessor {a : Access} {owner : String} (h : C.strict → isClearName owner ∧ a.isWellFormed) :
    Obeys (discipline C) s₀ (fun m _ => C.strict → isCallable m.descriptor)
      (Emit.accessor owner fun table => a.request owner table) := by
  refine bind get fun s r _ ⟨hSame, hSound⟩ => ?_
  subst hSame
  have hOwn (hStrict : C.strict) : ((s.accessors.lookup owner).getD .empty).Callable := by
    cases hLookup : s.accessors.lookup owner with
    | none => exact nofun
    | some table =>
      obtain ⟨before, after, hSplit, -⟩ := List.lookup_eq_some_iff.1 hLookup
      exact hSound.2 hStrict (owner, table) (by simp [hSplit])
  refine liftThen ⟨fun e he => C.liberal (fun hStrict => ?_) e, fun _ h => h⟩ fun (m, own) hAnswer => ?_
  · obtain ⟨m, own, hAnswer⟩ := Access.exists_request (h hStrict).2 owner ((s.accessors.lookup owner).getD .empty)
    exact nomatch hAnswer.symm.trans he
  have hRequest (hStrict : C.strict) := (hOwn hStrict).request (h hStrict).1 (h hStrict).2 hAnswer
  refine andThen (modify fun t _ ht => ⟨⟨ht.1, fun hStrict entry hEntry => ?_⟩, .of_keeps (.refl _) rfl⟩) fun _ _ _ =>
    pure fun _ _ hStrict => (hRequest hStrict).1
  rcases List.mem_cons.1 hEntry with rfl | hOld
  · exact (hRequest hStrict).2
  · exact ht.2 hStrict entry (List.mem_filter.1 hOld).1

theorem mild {e : CompileError} {Q : α → EmitState → Prop} (h : e.kind ≠ .fatal) :
    Obeys (discipline C) s₀ Q (MonadExcept.throw e : Emit α) := throw (C.lenient e h)

theorem patchAll {sites : List Nat} (h : s₀.Branches sites) (target : Nat) :
    Passes (discipline C) s₀ (patchAll sites target) :=
  (buffer fun _ hb => CodeBuffer.patchAll_obeys C.lenient (fun site hSite => hb.branch site (h site hSite)) target).passes

theorem land {sites : List Nat} (h : s₀.Branches sites) : Passes (discipline C) s₀ (land sites) :=
  andThen here fun _ _ hs => patchAll (h.later hs) _

/-- Hidden values have locals of their own. -/
theorem reserve {purpose : LocalPurpose} (type : JavaType) (hHidden : ∀ n, purpose ≠ .variable n) :
    Passes (discipline C) s₀ (reserve purpose type) where
  ok s slot t _ hSound h := by
    obtain ⟨-, hReserved, hSlots⟩ := reserved_of_ok h
    obtain ⟨-, -, rfl⟩ := reserve_ok h
    exact ⟨hSound, ⟨.of_eq rfl, .single (.hidden hHidden hReserved hSlots)⟩, trivial⟩
  error s e t _ hSound h := by
    obtain ⟨rfl, hMild⟩ := reserve_error h
    exact ⟨hSound, .refl _, C.lenient e hMild⟩

theorem slotOf {v : Variable} (hKnown : C.known v) : Passes (discipline C) s₀ (slotOf ctx v) where
  ok s slot t _ hSound h := by
    rcases slotOf_ok h with ⟨-, rfl⟩ | ⟨hNone, type, r, hType, hReserve, rfl⟩
    · exact ⟨hSound, .refl _, trivial⟩
    · obtain ⟨rfl, hReserved, hSlots⟩ := reserved_of_ok hReserve
      obtain ⟨-, -, rfl⟩ := reserve_ok hReserve
      exact ⟨hSound, ⟨.of_eq rfl, .single (.ofVariable hKnown hType hNone
        ⟨hReserved.fits, hReserved.locals, hReserved.uses⟩ rfl)⟩, trivial⟩
  error s e t _ hSound h := by
    -- Once the locals are reserved nothing can be refused any more.
    rcases bind_error.1 h with hGet | ⟨_, _, hGet, h⟩
    · cases hGet
    obtain ⟨rfl, rfl⟩ := get_ok.1 hGet
    cases hSlot : (s.slots[v.number]?).join with
    | some found =>
      rw [hSlot] at h
      cases h
    | none =>
      rw [hSlot] at h
      rcases bind_error.1 h with hLift | ⟨type, _, hLift, h⟩
      · cases hType : ctx.variableType v <;> rw [hType] at hLift <;> cases hLift
        exact ⟨hSound, .refl _, (ctx.variableType_faults C.lenient v).of_error _ hType⟩
      · obtain ⟨-, rfl⟩ := lift_ok.1 hLift
        rcases bind_error.1 h with hReserve | ⟨_, _, _, h⟩
        · obtain ⟨rfl, hMild⟩ := reserve_error hReserve
          exact ⟨hSound, .refl _, C.lenient e hMild⟩
        · cases h

end Obeys

/-- Conduct, as a law. -/
def Conduct.law (C : Conduct ctx) : Emit.Law where
  Holds x := ∀ s, Passes (Emit.discipline C) s x
  allowed := C.allowed
  strict := C.strict
  lenient := C.lenient
  liberal := C.liberal
  ofPure _ _ := .done
  ofThrow h _ := .throw h
  ofBind hx hf s := .bind (hx s).ran fun a t _ ⟨r, hRun⟩ => hf r a t hRun t
  ofAppend _ _ _ := .appendWith ..
  ofPool _ _ := .pool _
  ofInvoke _ _ _ h _ := .emitInvoke _ _ h
  ofAccessor ha hf _ := .bind (.accessor ha) fun m s _ hm => hf m hm s

end JavaFragment
