import JavaFragment.Proofs.ExpressionLaws
/-!
The code of expressions is added to what was emitted before. The branches that it leaves to be pointed
to a target later are among those that it added.
-/
namespace JavaFragment

variable {types : Option (Nat → JavaType)}

namespace Emit

variable {types : Option (Nat → JavaType)}

namespace Growing

theorem emitInvoke (kind : InvokeKind) (index : UInt16) (descriptor : String) :
    Growing types (liftM (CodeBuffer.emitInvoke kind index descriptor) : Emit Unit) := by
  refine ⟨fun s a t h => ?_⟩
  obtain ⟨c, hInvoke, rfl⟩ := onBuffer_ok.1 h
  unfold CodeBuffer.emitInvoke at hInvoke
  cases hSignature : MethodType.ofDescriptor? descriptor with
  | none => rw [hSignature] at hInvoke; exact (not_throw_ok hInvoke).elim
  | some signature =>
    rw [hSignature] at hInvoke
    obtain rfl := modify_ok.1 hInvoke
    refine (append _ _ ?_).grows s () _ (change_ok.2 rfl)
    cases kind <;> rfl

theorem accessor (owner : String) (request : AccessorTable → Except CompileError (SyntheticMethod × AccessorTable)) :
    Growing types (accessor owner request) := by
  refine .bind .get fun _ => .bind (.lift _) fun _ => .bind ?_ fun _ => .pure _
  refine ⟨fun s a t h => ?_⟩
  obtain rfl := modify_ok.1 h
  exact .of_later { EmitState.Later.refl _ s with } rfl rfl rfl rfl

end Growing

/-- Adding to what there is, as a law. -/
def growing (types : Option (Nat → JavaType)) : Law where
  Holds := Growing types
  allowed _ := True
  strict := False
  lenient _ _ := trivial
  liberal _ _ := trivial
  ofPure := .pure
  ofThrow _ := .throw _
  ofBind hx hf := ⟨fun s b t h => by
    obtain ⟨a, r, hFirst, hRest⟩ := bind_ok.1 h
    exact (hx.grows s a r hFirst).trans ((hf s a r hFirst).grows r b t hRest)⟩
  ofAppend change h := .append _ change h
  ofPool := .pool
  ofInvoke kind index _ _ := .emitInvoke kind index _
  ofAccessor _ hf := .bind (.accessor ..) fun m => hf m False.elim

namespace Growing

theorem load (type : JavaType) (slot : UInt16) : Growing types (load type slot) :=
  Law.Holds.load (L := growing types) ..

theorem loadThis : Growing types loadThis := .load ..

theorem pushTruth (value : Bool) : Growing types (pushTruth value) := Law.Holds.pushTruth (L := growing types) _

theorem pushInt (value : Int32) : Growing types (pushInt value) := Law.Holds.pushInt (L := growing types) _

theorem pushLong (value : Int64) : Growing types (pushLong value) := Law.Holds.pushLong (L := growing types) _

theorem pop (type : JavaType) : Growing types (pop type) := Law.Holds.pop (L := growing types) _

theorem coerce (source target : JavaType) : Growing types (coerce source target) :=
  Law.Holds.coerce (L := growing types) ..

theorem checkCast (type : JavaType) : Growing types (checkCast type) := Law.Holds.checkCast (L := growing types) _

theorem unaryOperator (op : UnaryOp) (type : JavaType) : Growing types (unaryOperator op type) :=
  Law.Holds.unaryOperator (L := growing types) ..

theorem copyWords (l : Location) : Growing types l.copyWords := Law.Holds.copyWords (L := growing types) _

end Growing

/-! Stores. -/

/-- The locals that a place stands for may be written. -/
def Writable (types : Option (Nat → JavaType)) (base : UInt16) (s : EmitState) : Location → Prop
  | .local slot type => s.Owns types base slot.toNat type.slotKind.words
  | .field _ _ | .element _ => True

theorem Writable.later {base : UInt16} {changed : Nat → Prop} {s t : EmitState} {l : Location}
    (h : Writable types base s l) (hLater : s.Later changed t) : Writable types base t l := by
  cases l with
  | «local» slot type => exact EmitState.Owns.later h hLater (UInt16.le_refl _)
  | field | element => trivial

theorem Writable.lower {base base' : UInt16} {s : EmitState} {l : Location}
    (h : Writable types base s l) (hBase : base' ≤ base) : Writable types base' s l := by
  cases l with
  | «local» slot type => exact EmitState.Owns.later h (.refl (fun _ => False) s) hBase
  | field | element => trivial

/-- Emission of a place, whose locals may be written from then on. -/
structure Locating (types : Option (Nat → JavaType)) (x : Emit Location) : Prop where
  grows : ∀ s l t, x s = .ok l t → s.Appends types t ∧ Writable types s.code.maxLocals t l

namespace Locating

variable {α : Type}

theorem throw (e : CompileError) : Locating types (throw e) := ⟨fun _ _ _ h => (not_throw_ok h).elim⟩

theorem bind {x : Emit α} {f : α → Emit Location} (hx : Growing types x)
    (hf : ∀ a, Locating types (f a)) : Locating types (x >>= f) := by
  refine ⟨fun s l t h => ?_⟩
  obtain ⟨a, r, hFirst, hRest⟩ := bind_ok.1 h
  have hLeft := hx.grows s a r hFirst
  obtain ⟨hRight, hWritable⟩ := (hf a).grows r l t hRest
  exact ⟨hLeft.trans hRight, hWritable.lower hLeft.later.code.maxLocals_le⟩

/-- A place without locals. -/
theorem elsewhere {l : Location} (hl : ∀ base s, Writable types base s l) : Locating types (pure l) := by
  refine ⟨fun s l' t h => ?_⟩
  obtain ⟨rfl, rfl⟩ := pure_ok.1 h
  exact ⟨.refl s, hl _ _⟩

theorem ofSlot {ctx : TypingContext} {v : Variable} {type : JavaType}
    (hType : ctx.variableType v = .ok type) (hAgrees : ctx.Agrees types v) :
    Locating types (slotOf ctx v >>= fun slot => pure (.local slot type)) := by
  refine ⟨fun s l t h => ?_⟩
  obtain ⟨slot, _, hSlot, h⟩ := bind_ok.1 h
  obtain ⟨rfl, rfl⟩ := pure_ok.1 h
  refine ⟨(Growing.slotOf hAgrees).grows s slot _ hSlot, ?_⟩
  rcases slotOf_ok hSlot with ⟨hFound, rfl⟩ | ⟨_, _, r, _, hReserve, rfl⟩
  · exact .inr ⟨v.number, slot, hFound, rfl, fun given hGiven => by rw [hAgrees given hGiven type hType]⟩
  · obtain ⟨rfl, _⟩ := reserve_ok hReserve
    exact .inl (Nat.le_refl _)

end Locating

/-- Emission after that of a place, which may write its locals. -/
structure GrowingAt {α : Type} (types : Option (Nat → JavaType)) (s : EmitState) (l : Location) (x : Emit α) :
    Prop where
  grows : ∀ r a t, s.Appends types r → Writable types s.code.maxLocals r l → x r = .ok a t → s.Appends types t

theorem Growing.located {α : Type} {x : Emit Location} {f : Location → Emit α}
    (hx : Locating types x) (hf : ∀ s l, GrowingAt types s l (f l)) : Growing types (x >>= f) := by
  refine ⟨fun s a t h => ?_⟩
  obtain ⟨l, r, hFirst, hRest⟩ := bind_ok.1 h
  obtain ⟨hGrows, hWritable⟩ := hx.grows s l r hFirst
  exact (hf s l).grows r a t hGrows hWritable hRest

namespace GrowingAt

variable {α β : Type} {s : EmitState} {l : Location}

theorem of {x : Emit α} (h : Growing types x) : GrowingAt types s l x :=
  ⟨fun r a t hGrows _ hx => hGrows.trans (h.grows r a t hx)⟩

theorem andThen {x : Emit α} {f : α → Emit β} (hx : Growing types x)
    (hf : ∀ a, GrowingAt types s l (f a)) : GrowingAt types s l (x >>= f) := by
  refine ⟨fun r b t hGrows hWritable h => ?_⟩
  obtain ⟨a, q, hFirst, hRest⟩ := bind_ok.1 h
  have hMore := hx.grows r a q hFirst
  exact (hf a).grows q b t (hGrows.trans hMore) (hWritable.later hMore.later) hRest

/-- An instruction that writes the locals of the place. -/
theorem writing {slot : UInt16} {type : JavaType} {i : Instruction} {k : Unit → Emit β}
    (hPlain : i.isPlain) (hWritten : i.written? = some (slot.toNat, type.slotKind.words))
    (hk : ∀ u, Growing types (k u)) :
    GrowingAt types s (.local slot type) (emit i >>= k) := by
  refine ⟨fun r b t hGrows hWritable h => ?_⟩
  obtain ⟨u, q, hEmit, hRest⟩ := bind_ok.1 h
  obtain rfl := emit_ok.1 hEmit
  -- The slot was free when the place was looked for, which may be before the last state.
  have hStep : r.Adds types (· = r.next) { r with code := r.code.append i } :=
    .append r i _ fun hOpen => (hOpen rfl).elim
  have hAll : s.Appends types { r with code := r.code.append i } := by
    refine (EmitState.Adds.trans hGrows hStep).settle fun _ k _ _ hOpen _ => .inl ?_
    obtain rfl : k = r.next := by simpa using hOpen
    refine ⟨i, by simp [EmitState.next, CodeBuffer.append], hPlain, fun slot' words hSame => ?_⟩
    rw [hWritten] at hSame
    cases hSame
    exact EmitState.Owns.later hWritable hStep.later (UInt16.le_refl _)
  exact hAll.trans ((hk u).grows _ b t hRest)

end GrowingAt

end Emit

/-! Jumps. -/

/-- Emission that leaves branches open, which its result tells, and added all of them. -/
structure Emit.Landing {α : Type} (types : Option (Nat → JavaType)) (sites : α → List Nat) (x : Emit α) : Prop where
  grows : ∀ s a t, x s = .ok a t → s.Adds types (· ∈ sites a) t ∧ ∀ site ∈ sites a, s.next ≤ site ∧ site < t.next

/-- A new branch is open. -/
theorem Emit.branch_adds {b : Branch} {s t : EmitState} {site : Nat}
    (h : branch b s = .ok site t) : s.Adds types (· = s.next) t := by
  obtain ⟨_, rfl⟩ := branch_ok.1 h
  exact .append s _ _ fun hOpen => (hOpen rfl).elim

/-- Pointing branches to what comes next leaves what was there before they were added. -/
theorem EmitState.Adds.land {first : Nat → Prop} {s r t : EmitState}
    {sites : List Nat} {u : Unit} (h : s.Adds types first r) (hSites : ∀ site ∈ sites, s.next ≤ site)
    (hLand : Emit.land sites r = .ok u t) : s.Adds types (fun k => first k ∧ k ∉ sites) t := by
  obtain ⟨hLater, hTargets, instructions, hSame⟩ := Emit.patchAll_ok (Emit.land_ok.1 hLand)
  have hPc : t.code.pc = r.code.pc := by rw [hSame]
  exact
    { later := (h.later.trans hLater).mono fun k hk hChanged => by
        rcases hChanged with hNo | hMem
        · exact hNo
        · have := hSites k hMem
          omega
      apart := fun hs => (h.apart hs).of_slots (by rw [hSame]) (by rw [hSame]; exact UInt16.le_refl _)
      results := by rw [hSame]; exact h.results
      handlers := by rw [hSame]; exact h.handlers
      steady := fun hs k hLe hLt hOpen => by
        have hr := h.later.consistent hs
        by_cases hMem : k ∈ sites
        · refine .inr ⟨t.next, hLt, Nat.le_refl _, ?_⟩
          have hAt : t.code.address t.next = r.code.pc := ((hLater.consistent hr).address_size).trans hPc
          rw [hAt]
          exact hTargets hr k hMem
        · have hOld : k < r.next := by
            have hSize : t.code.addresses.size = r.code.addresses.size := by rw [hSame]
            rw [(hLater.consistent hr).sizes, hr.sizes] at hSize
            unfold EmitState.next at hLt ⊢
            omega
          rcases h.steady hs k hLe hOld fun hFirst => hOpen ⟨hFirst, hMem⟩ with hPlain | hForward
          · exact .inl (hPlain.later hLater (UInt16.le_refl _) hMem)
          · exact .inr (hForward.later hr hLater hMem) }

namespace Emit.Landing

variable {α β : Type} {types : Option (Nat → JavaType)} {sites : α → List Nat}

theorem bind {x : Emit β} {f : β → Emit α} (hx : Growing types x)
    (hf : ∀ b, Landing types sites (f b)) : Landing types sites (x >>= f) := by
  refine ⟨fun s a t h => ?_⟩
  obtain ⟨b, r, hFirst, hRest⟩ := bind_ok.1 h
  have hGrows := hx.grows s b r hFirst
  obtain ⟨hGrows', hSites⟩ := (hf b).grows r a t hRest
  refine ⟨(EmitState.Adds.trans hGrows hGrows').mono (by simp), fun site hSite => ?_⟩
  have := hSites site hSite
  have := hGrows.next_le
  omega

theorem pure {a : α} (hNone : sites a = []) : Landing types sites (pure a) :=
  ⟨fun s b t h => by
    obtain ⟨rfl, rfl⟩ := pure_ok.1 h
    exact ⟨(EmitState.Appends.refl s).mono (by simp), by simp [hNone]⟩⟩

theorem throw (e : CompileError) : Landing types sites (throw e) := ⟨fun _ _ _ h => (not_throw_ok h).elim⟩

theorem ite {c : Prop} [Decidable c] {x y : Emit α} (hx : Landing types sites x)
    (hy : Landing types sites y) : Landing types sites (if c then x else y) := by
  split
  · exact hx
  · exact hy

/-- Another reading of the result. -/
theorem andReturn {x : Emit β} {sites' : β → List Nat} (f : β → α) (hx : Landing types sites' x)
    (hSame : ∀ b, sites (f b) = sites' b) :
    Landing types sites (x >>= fun b => Pure.pure (f b)) := by
  refine ⟨fun s a t h => ?_⟩
  obtain ⟨b, r, hFirst, hRest⟩ := bind_ok.1 h
  obtain ⟨rfl, rfl⟩ := pure_ok.1 hRest
  rw [hSame]
  exact hx.grows s b r hFirst

theorem branch (b : Branch) : Landing types (fun site => [site]) (branch b) := by
  refine ⟨fun s site t h => ⟨(branch_adds h).mono ?_, ?_⟩⟩
  all_goals
    obtain ⟨rfl, rfl⟩ := branch_ok.1 h
    simp [EmitState.next, CodeBuffer.append]

/-- A single branch as a list. -/
theorem branches (b : Branch) : Landing types id (Emit.branch b >>= fun site => Pure.pure [site]) :=
  .andReturn _ (.branch b) fun _ => rfl

end Emit.Landing

namespace Emit

variable {types : Option (Nat → JavaType)}

theorem Growing.truthValue {jump : Bool → Emit (List Nat)} (hJump : Landing types id (jump false)) :
    Growing types (ExprCode.truthValue jump) := by
  refine ⟨fun s a t h => ?_⟩
  obtain ⟨_, _, hDepth, h⟩ := bind_ok.1 h
  obtain ⟨_, rfl⟩ := depth_ok.1 hDepth
  obtain ⟨sites, s₁, hFalse, h⟩ := bind_ok.1 h
  obtain ⟨hGrows₁, hSites⟩ := hJump.grows s sites s₁ hFalse
  obtain ⟨_, s₂, hTrue, h⟩ := bind_ok.1 h
  have hGrows₂ := hGrows₁.trans ((Growing.pushTruth _).grows _ _ _ hTrue)
  split at h
  · next hNone =>
    obtain ⟨_, rfl⟩ := pure_ok.1 h
    obtain rfl := List.isEmpty_iff.1 hNone
    exact hGrows₂.mono (by simp)
  · obtain ⟨done, s₃, hDone, h⟩ := bind_ok.1 h
    have hGrows₃ := hGrows₂.trans (branch_adds hDone)
    obtain ⟨rfl, -⟩ := branch_ok.1 hDone
    obtain ⟨_, s₄, hLand, h⟩ := bind_ok.1 h
    have hGrows₄ := hGrows₃.land (fun site hSite => (hSites site hSite).1) hLand
    obtain ⟨_, s₅, hSet, h⟩ := bind_ok.1 h
    obtain ⟨_, s₆, hPush, h⟩ := bind_ok.1 h
    obtain ⟨_, s₇, hLast, h⟩ := bind_ok.1 h
    obtain ⟨_, rfl⟩ := pure_ok.1 h
    refine (((hGrows₄.trans ((Growing.setDepth _).grows _ _ _ hSet)).trans
      ((Growing.pushTruth _).grows _ _ _ hPush)).land (fun site hSite => ?_) hLast).mono ?_
    · obtain rfl : site = s₂.next := by simpa [EmitState.next] using hSite
      exact hGrows₂.next_le
    · grind [EmitState.next]

/-- Branches of two parts that follow one another. -/
theorem Landing.both {x y : Emit (List Nat)} (hx : Landing types id x) (hy : Landing types id y) : Landing types id (do
      let sites ← x
      return sites ++ (← y)) := by
  refine ⟨fun s sites t h => ?_⟩
  obtain ⟨first, s₁, hLeft, h⟩ := bind_ok.1 h
  obtain ⟨second, s₂, hRight, h⟩ := bind_ok.1 h
  obtain ⟨rfl, rfl⟩ := pure_ok.1 h
  obtain ⟨hGrows₁, hFirst⟩ := hx.grows _ _ _ hLeft
  obtain ⟨hGrows₂, hSecond⟩ := hy.grows _ _ _ hRight
  refine ⟨(hGrows₁.trans hGrows₂).mono (by grind), fun site hSite => ?_⟩
  have := hGrows₁.next_le
  have := hGrows₂.next_le
  rcases List.mem_append.1 hSite with hOld | hNew
  · have := hFirst site hOld
    omega
  · have := hSecond site hNew
    omega

/-- Branches of a part that others pass by. -/
theorem Landing.skip {x y : Emit (List Nat)} (hx : Landing types id x) (hy : Landing types id y) : Landing types id (do
      let skip ← x
      let sites ← y
      land skip
      return sites) := by
  refine ⟨fun s sites t h => ?_⟩
  obtain ⟨skip, s₁, hLeft, h⟩ := bind_ok.1 h
  obtain ⟨sites', s₂, hRight, h⟩ := bind_ok.1 h
  obtain ⟨_, s₃, hLand, h⟩ := bind_ok.1 h
  obtain ⟨rfl, rfl⟩ := pure_ok.1 h
  obtain ⟨hGrows₁, hSkip⟩ := hx.grows _ _ _ hLeft
  obtain ⟨hGrows₂, hSites⟩ := hy.grows _ _ _ hRight
  have hGrows := hGrows₁.trans hGrows₂
  refine ⟨(hGrows.land (fun site hSite => (hSkip site hSite).1) hLand).mono (by grind), fun site hSite => ?_⟩
  have := hSites site hSite
  have := hGrows₁.next_le
  have := (patchAll_ok (land_ok.1 hLand)).1.next_le
  omega

/-- Two ways that a jump chooses from. -/
theorem Growing.choice {test : Emit (List Nat)} {x y : Emit JavaType} {f g : JavaType → Emit Unit}
    {result : JavaType} (hTest : Landing types id test) (hx : Growing types x) (hf : ∀ t, Growing types (f t))
    (hy : Growing types y) (hg : ∀ t, Growing types (g t)) : Growing types (do
      let depth ← Emit.depth
      let otherwise ← test
      f (← x)
      let done ← goto
      land otherwise
      Emit.setDepth depth
      g (← y)
      land [done]
      return result) := by
  refine ⟨fun s type t h => ?_⟩
  obtain ⟨_, _, hDepth, h⟩ := bind_ok.1 h
  obtain ⟨_, rfl⟩ := depth_ok.1 hDepth
  obtain ⟨otherwise, s₁, hJump, h⟩ := bind_ok.1 h
  obtain ⟨hGrows₁, hOtherwise⟩ := hTest.grows _ _ _ hJump
  obtain ⟨_, s₂, hTrue, h⟩ := bind_ok.1 h
  obtain ⟨_, s₃, hFirst, h⟩ := bind_ok.1 h
  obtain ⟨done, s₄, hDone, h⟩ := bind_ok.1 h
  obtain ⟨_, s₅, hLand, h⟩ := bind_ok.1 h
  obtain ⟨_, s₆, hSet, h⟩ := bind_ok.1 h
  obtain ⟨_, s₇, hFalse, h⟩ := bind_ok.1 h
  obtain ⟨_, s₈, hSecond, h⟩ := bind_ok.1 h
  obtain ⟨_, s₉, hLast, h⟩ := bind_ok.1 h
  obtain ⟨_, rfl⟩ := pure_ok.1 h
  have hGrows₃ := (hGrows₁.trans (hx.grows _ _ _ hTrue)).trans ((hf _).grows _ _ _ hFirst)
  have hGrows₄ := hGrows₃.trans (branch_adds hDone)
  obtain ⟨rfl, -⟩ := branch_ok.1 hDone
  have hGrows₅ := hGrows₄.land (fun site hSite => (hOtherwise site hSite).1) hLand
  refine ((((hGrows₅.trans ((Growing.setDepth _).grows _ _ _ hSet)).trans
    (hy.grows _ _ _ hFalse)).trans ((hg _).grows _ _ _ hSecond)).land
    (fun site hSite => ?_) hLast).mono (by grind [EmitState.next])
  obtain rfl : site = s₃.next := by simpa [EmitState.next] using hSite
  exact hGrows₃.next_le

end Emit

/-! Expressions. -/

open Emit

/-- Adding to what there is, as a law for expressions whose variables have the types that they are compiled with. -/
def growth (ctx : TypingContext) (types : Option (Nat → JavaType)) : ExpressionLaw ctx where
  toLaw := growing types
  known := ctx.Agrees types
  fair := .of_all fun _ => trivial
  safe := False.elim
  ofSlot := .slotOf
  Jumps := Landing types
  jumpNone := .pure
  jumpThrow _ := .throw _
  jumpAfter := .bind
  jumpBranch := .branch
  jumpReturn := .andReturn
  jumpBoth := .both
  jumpSkip := .skip
  ofTruth := .truthValue
  ofChoice _ := .choice
  Places := Locating types
  Writes l _ x := ∀ s, GrowingAt types s l x
  placeThrow _ := .throw _
  placeAfter := .bind
  placeSlot hAgrees hType := .ofSlot hType hAgrees
  placeField _ := .elsewhere fun _ _ => trivial
  placeElement _ := .elsewhere fun _ _ => trivial
  ofPlace hx hf := .located hx fun s l => hf l False.elim s
  writeNone hx _ := .of hx
  writeAfter hx hf s := .andThen hx fun a => hf a s
  writeLocal hPlain hWritten hk _ := .writing hPlain hWritten hk

/-- Every way to compile an expression adds to what was emitted before. -/
abbrev ExprCode.Grows (ctx : TypingContext) (types : Option (Nat → JavaType)) (c : ExprCode) : Prop :=
  c.Follows (growth ctx types)

theorem ExprCode.Grows.ofVariable {ctx : TypingContext} {v : Variable}
    (h : ctx.Agrees types v) : (ofVariable ctx v).Grows ctx types := Follows.ofVariable (L := growth ctx types) h

/-- The code of every expression grows, whatever the types of its variables. -/
theorem compile_grows_untyped (ctx : TypingContext) (e : Expr) : (ctx.compile e).Grows ctx none :=
  have hAgrees (v : Variable) : ctx.Agrees none v := fun _ hGiven => nomatch hGiven
  compile_follows ⟨fun _ _ v _ => hAgrees v, fun _ _ _ _ => ⟨False.elim, fun v _ => hAgrees v⟩⟩ False.elim
    fun v _ => hAgrees v

namespace Emit

/-! Additions of any kind. -/

/-- Emission that changes nothing of what there is. It may write any local. -/
class Extending {α : Type} (x : Emit α) : Prop where
  later : ∀ s a t, x s = .ok a t → s.Later (fun _ => False) t

theorem Growing.extending {α : Type} {x : Emit α} (h : Growing types x) : Extending x :=
  ⟨fun s a t hx => (h.grows s a t hx).later⟩

namespace Extending

variable {α β : Type} {x : Emit α}

/-- Emission that grows whatever the types of variables are. -/
theorem of (h : Growing none x) : Extending x := h.extending

instance bind {f : α → Emit β} [hx : Extending x] [hf : ∀ a, Extending (f a)] : Extending (x >>= f) := by
  refine ⟨fun s b t h => ?_⟩
  obtain ⟨a, r, hFirst, hRest⟩ := bind_ok.1 h
  exact ((hx.later s a r hFirst).trans ((hf a).later r b t hRest)).mono (by simp)

instance pure (a : α) : Extending (pure a : Emit α) := .of (.pure a)

instance throw (e : CompileError) : Extending (throw e : Emit α) := .of (.throw e)

instance lift (e : Except CompileError α) : Extending (liftM e : Emit α) := .of (.lift e)

instance ite {c : Prop} [Decidable c] {y : Emit α} [hx : Extending x] [hy : Extending y] :
    Extending (if c then x else y) := by
  split
  · exact hx
  · exact hy

instance onlyIf {c : Prop} [Decidable c] {k : Emit β} [Extending x] [Extending k] :
    Extending (if c then x >>= fun _ => k else k) := .ite

instance emit (i : Instruction) : Extending (emit i) := by
  refine ⟨fun s a t h => ?_⟩
  obtain rfl := emit_ok.1 h
  exact .of_code (.appendWith s.code i _)

instance forM {γ : Type} (xs : List γ) (f : γ → Instruction) : Extending (xs.forM fun x => Emit.emit (f x)) := by
  induction xs with
  | nil => exact .pure ()
  | cons _ _ _ => exact .bind

instance load (type : JavaType) (slot : UInt16) : Extending (load type slot) := .emit _

instance increment (slot : UInt16) (amount : Int16) : Extending (increment slot amount) := .emit _

instance keepValue (l : Location) : Extending l.keepValue := .emit _

instance pushOne (type : JavaType) : Extending (pushOne type) := .emit _

instance loadConstant (index : UInt16) : Extending (loadConstant index) := .emit _

instance coerce (source target : JavaType) : Extending (coerce source target) := .of (.coerce ..)

instance checkCast (type : JavaType) : Extending (checkCast type) := .of (.checkCast _)

instance pop (type : JavaType) : Extending (pop type) := .of (.pop _)

instance pushLong (value : Int64) : Extending (pushLong value) := .of (.pushLong _)

instance unaryOperator (op : UnaryOp) (type : JavaType) : Extending (unaryOperator op type) := .of (.unaryOperator ..)

instance copyWords (l : Location) : Extending l.copyWords := .of (.copyWords _)

instance loadFrom (ctx : TypingContext) (l : Location) : Extending (l.load ctx) :=
  .of (Law.Holds.loadFrom (L := growth ctx none) False.elim)

instance storeTo (ctx : TypingContext) (l : Location) : Extending (l.store ctx) := by
  cases l with
  | «local» slot type => exact .emit _
  | field f type => exact .of (Law.Holds.accessField (L := growth ctx none) False.elim ..)
  | element type => exact .emit _

end Extending

end Emit

end JavaFragment
