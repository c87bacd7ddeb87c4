import JavaFragment.Proofs.Growth
import JavaFragment.Proofs.Operators
/-!
Emission whose code carries out an evaluation once all code is there. The rules follow the shape of
emission: what is emitted first is carried out first.
-/
namespace JavaFragment

namespace EmitState

variable {start : Nat} {sites : List Nat} {r s t z : EmitState}

/-- What is kept of the later part is kept of the earlier one, whose indices lie below the open
branches. -/
theorem Kept.before (h : t.Kept start sites z) (hLater : r.Later (fun _ => False) t)
    (hFresh : ∀ site ∈ sites, r.next ≤ site) : r.Kept start [] z := by
  refine (hLater.trans h).mono fun k hk hChanged => ?_
  rcases hChanged with hNever | hEarly | hSite
  · exact hNever.elim
  · exact .inl hEarly
  · have := hFresh k hSite
    omega

theorem Kept.later {start' : Nat} (h : t.Kept start sites z) (hLe : start ≤ start') : t.Kept start' sites z :=
  h.mono fun _ _ hChanged => hChanged.imp_left fun hEarly => Nat.lt_of_lt_of_le hEarly hLe

theorem Kept.refl (start : Nat) (s : EmitState) : s.Kept start [] s := Later.refl _ s

/-- The addresses of what is emitted between two states satisfy a condition. -/
def Inside (s t : EmitState) (inside : Nat → Prop) : Prop := ∀ pc, s.code.pc ≤ pc → pc < t.code.pc → inside pc

theorem Inside.left {inside : Nat → Prop} (h : s.Inside t inside) (hLe : r.code.pc ≤ t.code.pc) :
    s.Inside r inside := fun pc hLow hHigh => h pc hLow (Nat.lt_of_lt_of_le hHigh hLe)

theorem Inside.right {inside : Nat → Prop} (h : s.Inside t inside) (hLe : s.code.pc ≤ r.code.pc) :
    r.Inside t inside := fun pc hLow hHigh => h pc (Nat.le_trans hLe hLow) hHigh

/-- The machine finds what was emitted next. -/
theorem Kept.fetch {i : Instruction} {change : Int} (hs : s.code.Consistent)
    (h : { s with code := s.code.appendWith i change }.Kept s.next [] z) :
    z.program.fetch s.code.pc = some i := by
  have hNew := hs.appendWith i change
  have hAt : (s.code.appendWith i change).address s.next = s.code.pc := by
    rw [CodeBuffer.appendWith_address _ _ _ _ (by rw [hs.sizes]; exact Nat.le_refl _)]
    exact hs.address_size
  have hLe : s.next ≤ (s.code.appendWith i change).addresses.size := by
    rw [hNew.sizes]
    simp [next]
  have hKept := h.code.kept s.next i (by simp) (by simp [next])
  rw [← hAt, ← h.code.address_eq _ hLe]
  exact Program.fetch_address (p := z.program) (h.code.consistent hNew) hKept

/-- The machine finds a branch that was emitted next, pointed to its target. -/
theorem Kept.fetch_branch {b : Branch} {target : Nat} (hs : s.code.Consistent)
    (h : { s with code := s.code.append (.branch b 0) }.Kept s.next [s.next] z)
    (hTarget : z.code.Targets s.next target) :
    ∃ offset : Int16, z.program.fetch s.code.pc = some (.branch b offset) ∧
      (s.code.pc : Int) + offset.toInt = target := by
  have hNew := hs.appendWith (.branch b 0) ((Instruction.branch b 0).stackChange?.getD 0)
  have hAt : (s.code.append (.branch b 0)).address s.next = s.code.pc := by
    refine (CodeBuffer.appendWith_address _ _ _ _ (by rw [hs.sizes]; exact Nat.le_refl _)).trans ?_
    exact hs.address_size
  have hLe : s.next ≤ (s.code.append (.branch b 0)).addresses.size := by
    rw [CodeBuffer.append, hNew.sizes]
    simp [next]
  have hSame : z.code.address s.next = s.code.pc := (h.code.address_eq _ hLe).trans hAt
  obtain ⟨b', offset, hFound, hOffset⟩ := hTarget
  obtain ⟨j, hj, hOutline⟩ := h.code.outline_eq s.next (.branch b 0) (by
    simp [next, CodeBuffer.append])
  rw [hFound] at hj
  cases hj
  cases hOutline
  have hFetch := Program.fetch_address (p := z.program) (h.code.consistent hNew) hFound
  rw [show z.program.code.address s.next = s.code.pc from hSame] at hFetch
  exact ⟨offset, hFetch, by rw [← hSame]; exact hOffset⟩

end EmitState

namespace Emit

variable {α β γ δ : Type}

/-- Emission whose code takes given words off the stack and carries out an evaluation. -/
structure Does (types : Nat → Primitive) (z : EmitState) (x : Emit α) (taken : List Word)
    (ev : Evaluation β) (push : β → List Word) (post : α → β → Prop) : Prop where
  carries : ∀ s a t inside, x s = .ok a t → s.code.Consistent → t.Kept s.next [] z →
    s.Inside t inside → z.Carries types inside s.code.pc taken ev (fun _ => t.code.pc) push (fun _ => 0) (post a)

/-- Emission whose code jumps if a truth is the wanted one. It does so wherever the branches that it
gives are pointed to, gives none only if it never jumps, and takes a step to jump. -/
structure Jumps (types : Nat → Primitive) (z : EmitState) (sites : α → List Nat) (x : Emit α)
    (taken : List Word) (ev : Evaluation Bool) (wanted : Bool) : Prop where
  carries : ∀ s a t target inside, x s = .ok a t → s.code.Consistent → t.Kept s.next (sites a) z →
    (∀ site ∈ sites a, z.code.Targets site target) → s.Inside t inside →
      z.Carries types inside s.code.pc taken ev (fun c => if c = wanted then target else t.code.pc)
        (fun _ => []) (fun c => if c = wanted then 1 else 0) (fun c => c = wanted → sites a ≠ [])

/-- Emission that adds no code. -/
structure Silent (x : Emit α) : Prop where
  later : ∀ s a t, x s = .ok a t → s.Later (fun _ => False) t
  same : ∀ s a t, x s = .ok a t → t.code.pc = s.code.pc ∧ t.next = s.next

variable {types : Nat → Primitive} {z : EmitState}

namespace Does

variable {x : Emit α} {taken : List Word} {ev : Evaluation β} {push : β → List Word} {post : α → β → Prop}
  {f : α → Emit γ} {r : β} {push' : β → List Word} {post' : γ → β → Prop} {i : Instruction}

theorem bind {ev' : β → Evaluation δ} {push' : δ → List Word}
    {post' : γ → δ → Prop} [hGrows : Extending x] [hRest : ∀ a, Extending (f a)]
    (hx : Does types z x taken ev push post)
    (hf : ∀ a r, post a r → Does types z (f a) (push r) (ev' r) push' post') :
    Does types z (x >>= f) taken (ev >>= ev') push' post' := by
  refine ⟨fun s b t inside h hs hKept hInside => ?_⟩
  obtain ⟨a, r, hFirst, hSecond⟩ := bind_ok.1 h
  have hLeft := hGrows.later s a r hFirst
  have hRight := (hRest a).later r b t hSecond
  refine (hx.carries s a r inside hFirst hs (hKept.before hRight (by simp))
    (hInside.left hRight.code.pc_le)).bind fun v hv => ?_
  exact (hf a v hv).carries r b t inside hSecond (hLeft.consistent hs)
    (hKept.later hLeft.next_le) (hInside.right hLeft.code.pc_le)

/-- What is emitted first has its result already. -/
theorem andThen {ev' : Evaluation δ} {push' : δ → List Word}
    {post' : γ → δ → Prop} [Extending x] [∀ a, Extending (f a)] (hx : Does types z x taken (pure r) push post)
    (hf : ∀ a, post a r → Does types z (f a) (push r) ev' push' post') :
    Does types z (x >>= f) taken ev' push' post' := by
  have hAll : Does types z (x >>= f) taken (pure r >>= fun _ => ev') push' post' := by
    refine .bind ⟨fun s a t inside h hs hKept hInside => (hx.carries s a t inside h hs hKept hInside).exactly⟩ ?_
    rintro a _ ⟨hPost, rfl⟩
    exact hf a hPost
  exact hAll

/-- What is emitted last only changes the stack. -/
theorem followed [Extending x] [∀ a, Extending (f a)] (hx : Does types z x taken ev push post)
    (hf : ∀ a r, post a r → Does types z (f a) (push r) (pure r) push' post') :
    Does types z (x >>= f) taken ev push' post' := by
  have hAll := hx.bind hf
  rwa [bind_pure] at hAll

theorem andReturn {f : α → γ} (hx : Does types z x taken ev push post) (hPost : ∀ a r, post a r → post' (f a) r) :
    Does types z (x >>= fun a => pure (f a)) taken ev push post' := by
  refine ⟨fun s b t inside h hs hKept hInside => ?_⟩
  obtain ⟨a, r, hFirst, hSecond⟩ := bind_ok.1 h
  obtain ⟨rfl, rfl⟩ := pure_ok.1 hSecond
  exact (hx.carries s a r inside hFirst hs hKept hInside).mono fun v hv => ⟨hPost a v hv, rfl, rfl⟩

theorem mono {post' : α → β → Prop} (hx : Does types z x taken ev push post)
    (hPost : ∀ a r, post a r → post' a r) : Does types z x taken ev push post' := by
  refine ⟨fun s a t inside h hs hKept hInside => ?_⟩
  exact (hx.carries s a t inside h hs hKept hInside).mono fun v hv => ⟨hPost a v hv, rfl, rfl⟩

theorem congr {ev' : Evaluation β} (hx : Does types z x taken ev push post)
    (hSame : ∀ σ : Store, (∀ n v, σ n = some v → v.fits (types n)) → ev' σ = ev σ) :
    Does types z x taken ev' push post :=
  ⟨fun s a t inside h hs hKept hInside => (hx.carries s a t inside h hs hKept hInside).congr hSame⟩

theorem above (words : List Word) (hx : Does types z x taken ev push post) :
    Does types z x (taken ++ words) ev (fun r => push r ++ words) post :=
  ⟨fun s a t inside h hs hKept hInside => (hx.carries s a t inside h hs hKept hInside).above words⟩

/-- Code that takes nothing works on top of any words. -/
theorem onTop (words : List Word) (hx : Does types z x [] ev push post) :
    Does types z x words ev (fun r => push r ++ words) post := hx.above words

theorem nothing {a : α} (hPush : push r = taken) (hPost : post a r) :
    Does types z (pure a) taken (pure r) push post := by
  refine ⟨fun s b t inside h hs hKept hInside => ?_⟩
  obtain ⟨rfl, rfl⟩ := pure_ok.1 h
  exact .nothing rfl hPush rfl hPost

/-- What is emitted after emission without code. -/
theorem silent [hRest : ∀ a, Extending (f a)] (hx : Silent x)
    (hf : ∀ s a r, x s = .ok a r → r.Later (fun _ => True) z → Does types z (f a) taken ev push' post') :
    Does types z (x >>= f) taken ev push' post' := by
  refine ⟨fun s b t inside h hs hKept hInside => ?_⟩
  obtain ⟨a, r, hFirst, hSecond⟩ := bind_ok.1 h
  obtain ⟨hPc, hNext⟩ := hx.same s a r hFirst
  have hRight := (hRest a).later r b t hSecond
  rw [← hPc]
  refine (hf s a r hFirst ?_).carries r b t inside hSecond ((hx.later s a r hFirst).consistent hs) ?_
    (hInside.right (Nat.le_of_eq hPc.symm))
  · exact (hRight.trans hKept).mono fun _ _ _ => trivial
  · exact hKept.later (by omega)

/-- What is emitted after a rule was asked. -/
theorem lift {e : Except CompileError α} (hf : ∀ a, e = .ok a → Does types z (f a) taken ev push' post') :
    Does types z ((liftM e : Emit α) >>= f) taken ev push' post' := by
  refine ⟨fun s b t inside h hs hKept hInside => ?_⟩
  obtain ⟨a, r, hFirst, hSecond⟩ := bind_ok.1 h
  obtain ⟨hRule, rfl⟩ := lift_ok.1 hFirst
  exact (hf a hRule).carries s b t inside hSecond hs hKept hInside

theorem ite {c : Prop} [Decidable c] {y : Emit α} (hx : c → Does types z x taken ev push post)
    (hy : ¬ c → Does types z y taken ev push post) :
    Does types z (if c then x else y) taken ev push post := by
  split
  · exact hx ‹_›
  · exact hy ‹_›

/-! Single instructions. -/

theorem instruction {post : Unit → β → Prop}
    (hEffect : ∀ rest locals, i.effect z.pool (taken ++ rest) locals = .done (push r ++ rest) locals)
    (hPost : post () r) : Does types z (Emit.emit i) taken (pure r) push post := by
  refine ⟨fun s a t inside h hs hKept hInside => ?_⟩
  obtain rfl := emit_ok.1 h
  exact .instruction (hKept.fetch hs) hEffect hPost

/-- An instruction that leaves words in place of others. -/
theorem words {words : List Word}
    (hEffect : ∀ rest locals, i.effect z.pool (taken ++ rest) locals = .done (words ++ rest) locals) :
    Does types z (Emit.emit i) taken (pure ()) (fun _ => words) (fun _ _ => True) :=
  instruction hEffect trivial

/-- An instruction that leaves a value in place of words. -/
theorem value {v : Value}
    (hEffect : ∀ rest locals, i.effect z.pool (taken ++ rest) locals = .done (v.words ++ rest) locals) :
    Does types z (Emit.emit i) taken (pure v) Value.words (fun _ r => r = v) :=
  instruction hEffect rfl

theorem answer {result : Except Fault Value} {post : Unit → Value → Prop}
    (h : i.Answers z.pool taken result) (hPost : ∀ v, result = .ok v → post () v) :
    Does types z (Emit.emit i) taken (Evaluation.answer result) Value.words post := by
  refine ⟨fun s a t inside hEmit hs hKept hInside => ?_⟩
  obtain rfl := emit_ok.1 hEmit
  have hAt := hInside s.code.pc (Nat.le_refl _) (Nat.lt_add_of_pos_right (i.size_pos _))
  exact .answer (hKept.fetch hs) hAt (fun v hv => ⟨hPost v hv, h.ok v hv⟩) h.error

end Does

namespace Jumps

variable {x : Emit α} {taken : List Word} {ev : Evaluation β} {push : β → List Word} {post : α → β → Prop}
  {wanted : Bool} {sites : γ → List Nat} {f : α → Emit γ} {truth : Bool}

theorem bind {ev' : β → Evaluation Bool} [hGrows : Extending x] (hx : Does types z x taken ev push post)
    (hRest : ∀ a, Landing (some fun n => .prim (types n)) sites (f a))
    (hf : ∀ a r, post a r → Jumps types z sites (f a) (push r) (ev' r) wanted) :
    Jumps types z sites (x >>= f) taken (ev >>= ev') wanted := by
  refine ⟨fun s b t target inside h hs hKept hTargets hInside => ?_⟩
  obtain ⟨a, r, hFirst, hSecond⟩ := bind_ok.1 h
  have hLeft := hGrows.later s a r hFirst
  obtain ⟨hRight, hFresh⟩ := (hRest a).grows r b t hSecond
  refine (hx.carries s a r inside hFirst hs (hKept.before hRight.later fun k hk => (hFresh k hk).1)
    (hInside.left hRight.later.code.pc_le)).bind fun v hv => ?_
  exact (hf a v hv).carries r b t target inside hSecond (hLeft.consistent hs)
    (hKept.later hLeft.next_le) hTargets (hInside.right hLeft.code.pc_le)

theorem andThen {r : β} {ev' : Evaluation Bool} [Extending x] (hx : Does types z x taken (pure r) push post)
    (hRest : ∀ a, Landing (some fun n => .prim (types n)) sites (f a))
    (hf : ∀ a, post a r → Jumps types z sites (f a) (push r) ev' wanted) :
    Jumps types z sites (x >>= f) taken ev' wanted := by
  have hAll : Jumps types z sites (x >>= f) taken (pure r >>= fun _ => ev') wanted := by
    refine .bind ⟨fun s a t inside h hs hKept hInside => (hx.carries s a t inside h hs hKept hInside).exactly⟩ hRest ?_
    rintro a _ ⟨hPost, rfl⟩
    exact hf a hPost
  exact hAll

variable {y : Emit γ} {ev : Evaluation Bool}

theorem lift {e : Except CompileError α} (hf : ∀ a, e = .ok a → Jumps types z sites (f a) taken ev wanted) :
    Jumps types z sites ((liftM e : Emit α) >>= f) taken ev wanted := by
  refine ⟨fun s b t target inside h hs hKept hTargets hInside => ?_⟩
  obtain ⟨a, r, hFirst, hSecond⟩ := bind_ok.1 h
  obtain ⟨hRule, rfl⟩ := lift_ok.1 hFirst
  exact (hf a hRule).carries s b t target inside hSecond hs hKept hTargets hInside

theorem ite {c : Prop} [Decidable c] {y' : Emit γ} (hy : c → Jumps types z sites y taken ev wanted)
    (hy' : ¬ c → Jumps types z sites y' taken ev wanted) :
    Jumps types z sites (if c then y else y') taken ev wanted := by
  split
  · exact hy ‹_›
  · exact hy' ‹_›

/-- Another reading of the result. -/
theorem andReturn {sites' : δ → List Nat} (f : γ → δ) (hy : Jumps types z sites y taken ev wanted)
    (hSame : ∀ a, sites' (f a) = sites a) :
    Jumps types z sites' (y >>= fun a => pure (f a)) taken ev wanted := by
  refine ⟨fun s b t target inside h hs hKept hTargets hInside => ?_⟩
  obtain ⟨a, r, hFirst, hSecond⟩ := bind_ok.1 h
  obtain ⟨rfl, rfl⟩ := pure_ok.1 hSecond
  rw [hSame] at hKept hTargets ⊢
  exact hy.carries s a r target inside hFirst hs hKept hTargets hInside

/-- A branch whose test tells whether a truth is the wanted one. -/
theorem branch {b : Branch} (hTest : ∀ rest, b.test (taken ++ rest) = some (truth == wanted, rest)) :
    Jumps types z (fun site => [site]) (Emit.branch b) taken (pure truth) wanted := by
  refine ⟨fun s site t target inside h hs hKept hTargets hInside => ?_⟩
  obtain ⟨rfl, rfl⟩ := branch_ok.1 h
  obtain ⟨offset, hFetch, hOffset⟩ := hKept.fetch_branch hs (hTargets _ (by simp [EmitState.next]))
  exact .branch hFetch hOffset hTest (by simp)

/-- A single branch as a list. -/
theorem branches {b : Branch} (hTest : ∀ rest, b.test (taken ++ rest) = some (truth == wanted, rest)) :
    Jumps types z id (Emit.branch b >>= fun site => pure [site]) taken (pure truth) wanted :=
  .andReturn _ (.branch hTest) fun _ => rfl

/-- A jump that is always taken. -/
theorem always : Jumps types z id (Emit.goto >>= fun site => pure [site]) [] (pure wanted) wanted :=
  .branches fun rest => by simp [Branch.test]

/-- A jump that is never taken. -/
theorem never (h : truth ≠ wanted) : Jumps types z id (pure []) [] (pure truth) wanted := by
  refine ⟨fun s sites t target inside hx hs hKept hTargets hInside => ?_⟩
  obtain ⟨rfl, rfl⟩ := pure_ok.1 hx
  exact .nothing (if_neg h) rfl (if_neg h) fun hWanted => (h hWanted).elim

/-- A jump on the opposite of a truth. -/
theorem not (hy : Jumps types z sites y taken ev (!wanted)) :
    Jumps types z sites y taken (ev >>= fun c => pure (!c)) wanted := by
  refine ⟨fun s a t target inside h hs hKept hTargets hInside => ?_⟩
  refine (hy.carries s a t target inside h hs hKept hTargets hInside).bind fun c hc => .nothing ?_ rfl ?_ ?_
  · cases c <;> cases wanted <;> rfl
  · cases c <;> cases wanted <;> rfl
  · exact fun hWanted => hc (by rw [← hWanted, Bool.not_not])

end Jumps

namespace Silent

theorem pool {x : StateM ConstantPool α} (hx : PoolGrowing x) : Silent (liftM x : Emit α) where
  later s a t h := by
    obtain ⟨_, rfl⟩ := onPool_ok.1 h
    exact { EmitState.Later.refl _ s with pool := hx.entries s.pool }
  same s a t h := by obtain ⟨_, rfl⟩ := onPool_ok.1 h; exact ⟨rfl, rfl⟩

theorem slotOf (ctx : TypingContext) (v : Variable) : Silent (slotOf ctx v) where
  later s a t h := slotOf_later h
  same s a t h := by
    rcases slotOf_ok h with ⟨_, rfl⟩ | ⟨_, type, r, _, hReserve, rfl⟩
    · exact ⟨rfl, rfl⟩
    · obtain ⟨_, _, rfl⟩ := reserve_ok hReserve
      exact ⟨rfl, rfl⟩

end Silent

end Emit

/-- What the final state of emission keeps within: the numbers of pool entries are not used up, and the
variables do not overlap. -/
structure EmitState.Sound (types : Nat → Primitive) (z : EmitState) : Prop where
  pool : z.pool.entries.size ≤ 65535
  apart : z.SlotsApart fun n => .prim (types n)

namespace Emit

variable {types : Nat → Primitive} {z : EmitState} {index slot : UInt16} {pool : ConstantPool} {v : Value}
  {p : Primitive} {n : Nat}

/-! Constants. -/

theorem interned {entry : Constant} {s r : EmitState}
    (h : (liftM (ConstantPool.intern entry) : Emit UInt16) s = .ok index r)
    (hLater : r.Later (fun _ => True) z) (hz : z.Sound types) : z.pool.get? index = some entry := by
  obtain ⟨rfl, rfl⟩ := onPool_ok.1 h
  exact ConstantPool.intern_get? entry s.pool hLater.pool hz.pool

theorem toInt32_toInt8 {v : Int32} (hLow : -128 ≤ v.toInt) (hHigh : v.toInt < 128) : v.toInt8.toInt32 = v := by
  rw [← Int32.toInt_inj, Int8.toInt_toInt32, Int32.toInt_toInt8]
  exact Int.bmod_eq_of_le (by omega) (by omega)

theorem toInt32_toInt16 {v : Int32} (hLow : -32768 ≤ v.toInt) (hHigh : v.toInt < 32768) : v.toInt16.toInt32 = v := by
  rw [← Int32.toInt_inj, Int16.toInt_toInt32, Int32.toInt_toInt16]
  exact Int.bmod_eq_of_le (by omega) (by omega)

/-! Loads from the pool. -/

/-- What a load of one word does with an entry of the pool. -/
def integerEffect (stack : List Word) (locals : LocalWords) : Option Constant → Effect
  | some (.integer v) => .done (.int v :: stack) locals
  | _ => .outside

/-- What a load of two words does with an entry of the pool. -/
def longEffect (stack : List Word) (locals : LocalWords) : Option Constant → Effect
  | some (.long v) => .done (.long v :: .filler :: stack) locals
  | _ => .outside

theorem Instruction.effect_ldc {index : UInt8} {v : Int32}
    (h : pool.get? index.toUInt16 = some (.integer v)) (stack : List Word) (locals : LocalWords) :
    (Instruction.ldc index).effect pool stack locals = .done (.int v :: stack) locals := by
  show integerEffect stack locals (pool.get? index.toUInt16) = _
  rw [h]
  rfl

theorem Instruction.effect_ldcW {v : Int32}
    (h : pool.get? index = some (.integer v)) (stack : List Word) (locals : LocalWords) :
    (Instruction.ldcW index).effect pool stack locals = .done (.int v :: stack) locals := by
  show integerEffect stack locals (pool.get? index) = _
  rw [h]
  rfl

theorem Instruction.effect_ldc2W {v : Int64}
    (h : pool.get? index = some (.long v)) (stack : List Word) (locals : LocalWords) :
    (Instruction.ldc2W index).effect pool stack locals = .done (.long v :: .filler :: stack) locals := by
  show longEffect stack locals (pool.get? index) = _
  rw [h]
  rfl

theorem Does.loadConstant {v : Int32} (h : z.pool.get? index = some (.integer v)) :
    Does types z (loadConstant index) [] (pure (.int v)) Value.words (fun _ r => r = .int v) := by
  refine .value fun rest locals => ?_
  split
  · rename_i hSmall
    have hSame : index.toUInt8.toUInt16 = index := by
      rw [← UInt16.toNat_inj, UInt8.toNat_toUInt16, UInt16.toNat_toUInt8, Nat.mod_eq_of_lt hSmall]
    exact Instruction.effect_ldc (by rw [hSame, h]) rest locals
  · exact Instruction.effect_ldcW h rest locals

theorem Does.pushInt (hz : z.Sound types) (v : Int32) :
    Does types z (pushInt v) [] (pure (.int v)) Value.words (fun _ r => r = .int v) := by
  unfold Emit.pushInt
  dsimp only
  split
  · rename_i hSmall
    refine .value fun rest locals => ?_
    have hNat : (((v.toInt + 1).toNat : Int) - 1) = v.toInt := by omega
    show Effect.done (.int (Int32.ofInt (((v.toInt + 1).toNat : Int) - 1)) :: rest) locals = _
    rw [hNat, Int32.ofInt_toInt]
    rfl
  · refine .ite (fun hByte => ?_) fun _ => .ite (fun hShort => ?_) fun _ => ?_
    · exact .value fun rest locals => by
        show Effect.done (.int v.toInt8.toInt32 :: rest) locals = _
        rw [toInt32_toInt8 hByte.1 hByte.2]
        rfl
    · exact .value fun rest locals => by
        show Effect.done (.int v.toInt16.toInt32 :: rest) locals = _
        rw [toInt32_toInt16 hShort.1 hShort.2]
        rfl
    · exact .silent (.pool (.intern _)) fun s index r h hLater => .loadConstant (interned h hLater hz)

theorem Does.pushLong (hz : z.Sound types) (v : Int64) :
    Does types z (pushLong v) [] (pure (.long v)) Value.words (fun _ r => r = .long v) := by
  refine .ite (fun hZero => ?_) fun _ => .ite (fun hOne => ?_) fun _ => ?_
  · exact .value fun _ _ => by rw [hZero]; rfl
  · exact .value fun _ _ => by rw [hOne]; rfl
  · exact .silent (.pool (.intern _)) fun s index r h hLater =>
      .value fun _ _ => Instruction.effect_ldc2W (interned h hLater hz) _ _

theorem Does.pushTruth (b : Bool) :
    Does types z (pushTruth b) [] (pure (.bool b)) Value.words (fun _ r => r = .bool b) := by
  cases b <;> exact .value fun _ _ => rfl

/-! Conversions. -/

theorem Does.conversions {cs : List Conversion} {w : Value} (h : Conversion.TakeAll cs v w) :
    Does types z (cs.forM fun c => emit (.convert c)) v.words (pure w) Value.words
      (fun _ r => r = w) := by
  induction cs generalizing v with
  | nil =>
    obtain rfl : v = w := h
    exact .nothing rfl rfl
  | cons c cs ih =>
    obtain ⟨u, hFirst, hRest⟩ := h
    show Does types z (emit (.convert c) >>= fun _ => cs.forM fun c => emit (.convert c)) _ _ _ _
    exact .andThen (.value hFirst) fun _ _ => ih hRest

theorem Does.coerce {q : Primitive} (hq : q.isDiscrete)
    (hTruth : p = .boolean ↔ q = .boolean) {w : Value} (hFits : v.fits p)
    (hConvert : v.convert q = some w) :
    Does types z (coerce (.prim p) (.prim q)) v.words (pure w) Value.words (fun _ r => r = w) := by
  obtain ⟨w', hSame, hTakes⟩ := Conversion.takeAll_conversions hq hTruth hFits
  obtain rfl : w' = w := Option.some.inj (hSame.symm.trans hConvert)
  unfold Emit.coerce
  rw [if_neg (by
    rw [Primitive.not_void (Value.isDiscrete_of_fits hFits), Primitive.not_void hq]
    exact Bool.false_ne_true)]
  exact .conversions hTakes

/-! Variables. -/

/-- What is emitted after the slot of a variable is known. -/
theorem Does.withSlot {α β : Type} {ctx : TypingContext} {v : Variable} {f : UInt16 → Emit α}
    {taken : List Word} {ev : Evaluation β} {push : β → List Word} {post : α → β → Prop}
    [∀ slot, Extending (f slot)] (hNumber : v.number < z.slots.size)
    (hf : ∀ slot, z.slot? v.number = some slot → Does types z (f slot) taken ev push post) :
    Does types z (slotOf ctx v >>= f) taken ev push post := by
  refine .silent (.slotOf ctx v) fun s slot r h hLater => hf slot ?_
  have hSize := (slotOf_later h).slots_size
  exact hLater.slot_kept _ _ (slotOf_slot h (by rw [← hSize, ← hLater.slots_size]; exact hNumber))

theorem Does.load (hSlot : z.slot? n = some slot) :
    Does types z (load (.prim (types n)) slot) [] (Evaluation.read n) Value.words
      (fun _ v => v.fits (types n)) := by
  refine ⟨fun s a t inside h hs hKept hInside => ?_⟩
  obtain rfl := emit_ok.1 h
  exact .load hSlot (hKept.fetch hs)

theorem Does.store (hz : z.Sound types) (hSlot : z.slot? n = some slot) (hFits : v.fits (types n)) :
    Does types z (store (.prim (types n)) slot) v.words (Evaluation.write n v) (fun _ => [])
      (fun _ _ => True) := by
  refine ⟨fun s a t inside h hs hKept hInside => ?_⟩
  obtain rfl := emit_ok.1 h
  exact .store hz.apart hSlot hFits (hKept.fetch hs)

theorem Does.increment (hz : z.Sound types) (hSlot : z.slot? n = some slot) (hInt : types n = .int) (amount : Int16) :
    Does types z (increment slot amount) [] (Evaluation.increase n amount.toInt32) (fun _ => [])
      (fun _ _ => True) := by
  refine ⟨fun s a t inside h hs hKept hInside => ?_⟩
  obtain rfl := emit_ok.1 h
  exact .increment hz.apart hSlot hInt (hKept.fetch hs)

/-! Values on the stack. -/

theorem Does.pop (hFits : v.fits p) :
    Does types z (pop (.prim p)) v.words (pure v) (fun _ => []) (fun _ _ => True) := by
  unfold Emit.pop
  rw [Value.slots_eq hFits]
  cases v <;> exact .instruction (fun _ _ => rfl) trivial

theorem Does.keepValue (hFits : v.fits p) (slot : UInt16) :
    Does types z (Location.local slot (.prim p)).keepValue v.words (pure ())
      (fun _ => v.words ++ v.words) (fun _ _ => True) := by
  have hWide : (JavaType.prim p).isWide = decide (v.words.length = 2) := by
    cases v <;> cases p <;> first | rfl | cases hFits
  unfold Location.keepValue
  simp only [Location.words, Location.type, hWide]
  cases v <;> exact .words fun _ _ => rfl

end Emit

end JavaFragment
