import JavaFragment.Proofs.Constants
import JavaFragment.Proofs.Performing
/-!
The code of expressions over integers and truth values carries out their evaluation. Each way to put
code together has its own lemma, from those of the parts.
-/
namespace JavaFragment

namespace Evaluation

/-- The truth of an expression. -/
def truthOf (ctx : TypingContext) (e : Expr) : Evaluation Bool := eval ctx e >>= truth

@[simp]
theorem truth_bool (b : Bool) : truth (.bool b) = pure b := rfl

variable {ctx : TypingContext}

/-- An expression that is made from a truth has it as its truth. -/
theorem truthOf_eq {e : Expr} {x : Evaluation Bool}
    (h : eval ctx e = x >>= fun c => pure (.bool c)) : truthOf ctx e = x := by
  simp [truthOf, h]

theorem eval_and (l r : Expr) : eval ctx (.and l r) =
      (truthOf ctx l >>= fun a => if a = true then truthOf ctx r else pure a) >>= fun c => pure (.bool c) := by
  simp only [truthOf, eval, bind_assoc]
  congr 1
  funext v
  congr 1
  funext a
  cases a <;> simp

theorem eval_or (l r : Expr) : eval ctx (.or l r) =
      (truthOf ctx l >>= fun a => if a = false then truthOf ctx r else pure a) >>= fun c => pure (.bool c) := by
  simp only [truthOf, eval, bind_assoc]
  congr 1
  funext v
  congr 1
  funext a
  cases a <;> simp

theorem eval_not (e : Expr) :
    eval ctx (.not e) = (truthOf ctx e >>= fun c => pure (!c)) >>= fun c => pure (.bool c) := by
  simp [truthOf, eval]

theorem eval_compare (op : CompareOp) (l r : Expr) : eval ctx (.compare op l r) =
      (eval ctx l >>= fun a => eval ctx r >>= fun b => answer (Value.compare op a b)) >>= fun c => pure (.bool c) := by
  simp [eval]

theorem eval_conditional {test a b : Expr} {k : Primitive}
    (hType : ctx.typeOf (.conditional test a b) = .ok (.prim k)) :
    eval ctx (.conditional test a b) = truthOf ctx test >>= fun c =>
      if c then eval ctx a >>= fun v => expect .illTyped (v.convert k)
      else eval ctx b >>= fun v => expect .illTyped (v.convert k) := by
  rw [eval, hType]
  simp only [truthOf, bind_assoc]
  rfl

end Evaluation

open Emit Evaluation

/-- Landing branches points them here and adds no code. -/
theorem Emit.landed {s t : EmitState} {sites : List Nat} {u : Unit} (h : land sites s = .ok u t) :
    s.Later (· ∈ sites) t ∧ t.code.pc = s.code.pc ∧
      (s.code.Consistent → ∀ site ∈ sites, t.code.Targets site s.code.pc) := by
  obtain ⟨hLater, hTargets, _, rfl⟩ := patchAll_ok (land_ok.1 h)
  exact ⟨hLater, rfl, hTargets⟩

namespace ExprCode

variable {types : Nat → Primitive} {z : EmitState} {ctx : TypingContext} {e : Expr} {jump : Bool → Emit (List Nat)}

/-- The code of an expression of a type is added to what there is and carries out its evaluation. A literal
is converted to a smaller type only if it fits. -/
structure Evaluates (types : Nat → Primitive) (z : EmitState) (ctx : TypingContext) (e : Expr)
    (p : Primitive) (code : ExprCode) : Prop where
  grows : code.Grows ctx (some fun n => .prim (types n))
  value : Does types z code.value [] (eval ctx e) Value.words (fun t v => t = .prim p ∧ v.fits p)
  valueAs : ∀ q : Primitive, q.isDiscrete → (p = .boolean ↔ q = .boolean) →
    (∀ a kind, e = .int a kind → (JavaType.prim q).isIntFamily → (Value.int a.toInt32).fits q) →
    Does types z (code.valueAs (.prim q)) []
      (eval ctx e >>= fun v => expect .illTyped (v.convert q)) Value.words (fun _ v => v.fits q)
  jump : p = .boolean → ∀ wanted, Jumps types z id (code.jump wanted) [] (truthOf ctx e) wanted
  effect : Does types z code.effect [] (eval ctx e) (fun _ => []) (fun _ _ => True)

theorem Evaluates.extending {p : Primitive} {code : ExprCode} (h : code.Evaluates types z ctx e p) :
    Extending code.value := h.grows.value.extending

/-- An expression whose truth is known beforehand has it as its value. -/
def Foreseen (ctx : TypingContext) (e : Expr) : Prop := ∀ b, ctx.knownTruth e = some b → eval ctx e = pure (.bool b)

theorem decided_jumps (hKnown : Foreseen ctx e)
    {wanted : Bool} (hJump : Jumps types z id (jump wanted) [] (truthOf ctx e) wanted) :
    Jumps types z id (decided ctx e jump wanted) [] (truthOf ctx e) wanted := by
  unfold decided
  cases hTruth : ctx.knownTruth e with
  | none => exact hJump
  | some truth =>
    have hEval : truthOf ctx e = pure truth := by
      rw [truthOf, hKnown truth hTruth]
      rfl
    rw [hEval]
    refine .ite (fun hSame => ?_) fun hOther => .never hOther
    subst hSame
    exact .always

section

variable {e : Expr} {p : Primitive} {value : Emit JavaType}

theorem converted [Extending value]
    (hValue : Does types z value [] (eval ctx e) Value.words (fun t v => t = .prim p ∧ v.fits p))
    {q : Primitive} (hq : q.isDiscrete) (hTruth : p = .boolean ↔ q = .boolean) :
    Does types z (value >>= fun source => coerce source (.prim q)) []
      (eval ctx e >>= fun v => expect .illTyped (v.convert q)) Value.words
      (fun _ v => v.fits q) := by
  refine .bind hValue ?_
  rintro t v ⟨rfl, hFits⟩
  obtain ⟨w, hConvert, _⟩ := Conversion.takeAll_conversions hq hTruth hFits
  rw [hConvert]
  exact (Does.coerce hq hTruth hFits hConvert).mono fun _ _ hSame => hSame ▸ Value.convert_fits hConvert

theorem Evaluates.ofValue (hKnown : Foreseen ctx e) (hGrows : Growing (some fun n => .prim (types n)) value)
    (hValue : Does types z value [] (eval ctx e) Value.words (fun t v => t = .prim p ∧ v.fits p)) :
    (ofValue ctx e value).Evaluates types z ctx e p where
  grows := Follows.ofValue e hGrows
  value := hValue
  valueAs q hq hTruth hLiteral := by
    have := hGrows.extending
    dsimp only [ExprCode.ofValue]
    cases e with
    | int a kind =>
      cases hFamily : (JavaType.prim q).isIntFamily with
      | true =>
        have hConvert := Value.convert_of_fits (hLiteral a kind rfl hFamily)
        have hEval : (eval ctx (.int a kind) >>= fun v => expect .illTyped (v.convert q)) = pure (.int a.toInt32) := by
          show expect .illTyped ((Value.int a.toInt32).convert q) = _
          rw [hConvert]
          rfl
        rw [hEval]
        exact hValue.andThen fun _ _ => .nothing rfl (hLiteral a kind rfl hFamily)
      | false => exact converted hValue hq hTruth
    | _ => exact converted hValue hq hTruth
  jump hp wanted := by
    dsimp only [ExprCode.ofValue]
    have := hGrows.extending
    refine decided_jumps hKnown ?_
    refine .bind hValue (fun _ => .ite (.branches _) (.throw _)) ?_
    rintro t v ⟨rfl, hFits⟩
    obtain ⟨b, rfl⟩ := Value.eq_bool hFits (by rw [hp]; rfl)
    subst hp
    refine .ite (fun _ => .branches fun rest => ?_) fun hNot => (hNot rfl).elim
    cases b <;> cases wanted <;> rfl
  effect := by
    have := hGrows.extending
    refine .followed hValue ?_
    rintro t v ⟨rfl, hFits⟩
    exact .pop hFits

/-- Code that leaves its value only if it is wanted. -/
theorem Evaluates.ofEffect (hKnown : Foreseen ctx e) {run : Bool → Emit JavaType}
    (hGrows : ∀ wanted, Growing (some fun n => .prim (types n)) (run wanted))
    (hRun : ∀ wanted, Does types z (run wanted) [] (eval ctx e) (fun v => if wanted then v.words else [])
      (fun t v => wanted → t = .prim p ∧ v.fits p)) :
    (ofEffect ctx e run).Evaluates types z ctx e p :=
  { Evaluates.ofValue hKnown (hGrows true) ((hRun true).mono fun _ _ h => h rfl) with
    grows := Follows.ofEffect e hGrows
    effect := (hRun false).andReturn fun _ _ _ => trivial }

end

/-! Choices. -/

section

variable {α β : Type} {jump : Emit (List Nat)} {a b : Emit α} {ev : Evaluation Bool}
  {evA evB : Evaluation β} {push : β → List Word} {post : β → Prop}

/-- Code that jumps to a second part unless it goes through a first one, and goes on after both. -/
theorem choice_carries (hLands : Landing (some fun n => .prim (types n)) id jump)
    (hJump : Jumps types z id jump [] ev false)
    (hGrowsA : Growing (some fun n => .prim (types n)) a) (hA : Does types z a [] evA push fun _ => post)
    (hGrowsB : Growing (some fun n => .prim (types n)) b) (hB : Does types z b [] evB push fun _ => post)
    {s s₁ s₂ s₃ s₄ s₅ s₆ t : EmitState} {sites : List Nat} {done : Nat} {depth : Int} {x y : α}
    (hSites : jump s = .ok sites s₁) (hFirst : a s₁ = .ok x s₂) (hDone : goto s₂ = .ok done s₃)
    (hLand : land sites s₃ = .ok () s₄) (hSet : setDepth depth s₄ = .ok () s₅)
    (hSecond : b s₅ = .ok y s₆) (hLast : land [done] s₆ = .ok () t) (hs : s.code.Consistent)
    (hKept : t.Kept s.next [] z) {inside : Nat → Prop} (hInside : s.Inside t inside) :
    z.Carries types inside s.code.pc [] (ev >>= fun c => if c then evA else evB) (fun _ => t.code.pc)
      push (fun _ => 0) post := by
  obtain ⟨hGrows, hFresh⟩ := hLands.grows _ _ _ hSites
  have hGrows₁ := hGrowsA.grows _ _ _ hFirst
  have hGrows₂ : s₂.Adds (some fun n => .prim (types n)) (· = s₂.next) s₃ := branch_adds hDone
  have hGrows₄ : s₄.Grows (fun n => .prim (types n)) s₅ := (Growing.setDepth _).grows _ _ _ hSet
  have hGrows₅ := hGrowsB.grows _ _ _ hSecond
  obtain ⟨hLater₃, hPc₄, hTargets₄⟩ := landed hLand
  obtain ⟨hLater₆, hPc, hTargets⟩ := landed hLast
  have hPc₅ : s₅.code.pc = s₄.code.pc := by obtain rfl := setDepth_ok.1 hSet; rfl
  obtain ⟨hDoneAt, hState₃⟩ := branch_ok.1 hDone
  have hNext : s₃.next = s₂.next + 1 := by rw [← hState₃]; simp [EmitState.next, CodeBuffer.append]
  have hs₁ := hGrows.later.consistent hs
  have hs₂ := hGrows₁.later.consistent hs₁
  have hs₃ := hGrows₂.later.consistent hs₂
  have hs₄ := hLater₃.consistent hs₃
  have hs₅ := hGrows₄.later.consistent hs₄
  have hs₆ := hGrows₅.later.consistent hs₅
  -- What may still change: the two lists of branches, and what was there before.
  have hLe₁ := hGrows.next_le
  have hLe₂ := hGrows₁.next_le
  have hLe₄ := hLater₃.next_le
  have hLe₅ := hGrows₄.next_le
  have hKept₆ : s₆.Later (fun k => k = s₂.next ∨ k < s.next) z :=
    (hLater₆.trans hKept).mono (by simp [← hDoneAt, EmitState.next])
  have hKept₄ : s₄.Later (fun k => k = s₂.next ∨ k < s.next) z :=
    ((hGrows₄.later.trans hGrows₅.later).trans hKept₆).mono (by simp)
  have hKept₃ : s₃.Later (fun k => k ∈ sites ∨ k = s₂.next ∨ k < s.next) z := hLater₃.trans hKept₄
  have hKept₂ : s₂.Later (fun k => k ∈ sites ∨ k < s.next) z := (hGrows₂.later.trans hKept₃).mono (by grind)
  have hKept₁ : s₁.Later (fun k => k ∈ sites ∨ k < s.next) z := (hGrows₁.later.trans hKept₂).mono (by grind)
  have hPcs := And.intro hGrows.later.code.pc_le (And.intro hGrows₁.later.code.pc_le
    (And.intro hGrows₂.later.code.pc_le hGrows₅.later.code.pc_le))
  refine (hJump.carries s sites s₁ s₃.code.pc inside hSites hs (hKept₁.mono (by grind)) ?_
    (hInside.left (by omega))).bind fun c _ => ?_
  · intro site hSite
    refine (hTargets₄ hs₃ site hSite).later hs₄ hKept₄.code ?_
    have := hFresh site hSite
    omega
  · cases c with
    | true =>
      have hTarget : z.code.Targets s₂.next s₆.code.pc :=
        (hTargets hs₆ s₂.next (by simp [← hDoneAt, EmitState.next])).later
          (hLater₆.consistent hs₆) hKept.code (by simp; omega)
      subst hState₃
      obtain ⟨offset, hFetch, hOffset⟩ := EmitState.Kept.fetch_branch hs₂ (hKept₃.mono (by grind)) hTarget
      have hGoto := (hA.carries s₁ x s₂ inside hFirst hs₁ (hKept₂.mono (by grind))
        ((hInside.right hPcs.1).left (by omega))).thenGoto hFetch hOffset
      rw [hPc]
      exact hGoto.fewer fun _ => Nat.sub_le _ _
    | false =>
      have hElse := hB.carries s₅ y s₆ inside hSecond hs₅ (hKept₆.mono (by grind))
        ((hInside.right (by omega)).left (by omega))
      rw [hPc₅, hPc₄] at hElse
      rw [hPc]
      exact hElse.fewer fun _ => Nat.sub_le _ _

end

/-! Truth values. -/

/-- A truth value is pushed by jumping on it. -/
theorem truthValue_does {ev : Evaluation Bool} (hLands : Landing (some fun n => .prim (types n)) id (jump false))
    (hJump : Jumps types z id (jump false) [] ev false) :
    Does types z (truthValue jump) [] (ev >>= fun c => pure (Value.bool c)) Value.words
      (fun t v => t = .prim .boolean ∧ v.fits .boolean) := by
  refine ⟨fun s a t inside h hs hKept hInside => ?_⟩
  unfold truthValue at h
  obtain ⟨_, _, hDepth, h⟩ := bind_ok.1 h
  obtain ⟨-, rfl⟩ := depth_ok.1 hDepth
  obtain ⟨sites, s₁, hSites, h⟩ := bind_ok.1 h
  obtain ⟨_, s₂, hTrue, h⟩ := bind_ok.1 h
  split at h
  · -- No branch was made, so the jump is never taken.
    rename_i hNone
    obtain ⟨rfl, rfl⟩ := pure_ok.1 h
    obtain rfl : sites = [] := by simpa using hNone
    have hGrows := (hLands.grows _ _ _ hSites).1
    have hGrowsTrue : s₁.Grows (fun n => .prim (types n)) s₂ := (Growing.emit _ rfl).grows _ _ _ hTrue
    refine (hJump.carries s [] s₁ 0 inside hSites hs (hKept.before hGrowsTrue.later (by simp)) (by simp)
      (hInside.left hGrowsTrue.later.code.pc_le)).bind fun c hc => ?_
    cases c with
    | false => exact (hc rfl rfl).elim
    | true =>
      refine ((Does.pushTruth true).carries s₁ _ s₂ inside hTrue (hGrows.later.consistent hs)
        (hKept.later hGrows.next_le) (hInside.right hGrows.later.code.pc_le)).mono ?_
      rintro _ rfl
      exact ⟨⟨rfl, rfl⟩, rfl, rfl⟩
  · obtain ⟨done, s₃, hDone, h⟩ := bind_ok.1 h
    obtain ⟨_, s₄, hLand, h⟩ := bind_ok.1 h
    obtain ⟨_, s₅, hSet, h⟩ := bind_ok.1 h
    obtain ⟨_, s₆, hFalse, h⟩ := bind_ok.1 h
    obtain ⟨_, s₇, hLast, h⟩ := bind_ok.1 h
    obtain ⟨rfl, rfl⟩ := pure_ok.1 h
    have hPush (c : Bool) : Does types z (pushTruth c) [] (pure (Value.bool c)) Value.words
        fun _ v => JavaType.boolean = .prim .boolean ∧ v.fits .boolean :=
      (Does.pushTruth c).mono fun _ _ hSame => hSame ▸ ⟨rfl, rfl⟩
    have hBoth := choice_carries hLands hJump (.emit _ rfl) (hPush true) (.emit _ rfl) (hPush false) hSites
      hTrue hDone hLand hSet hFalse hLast hs hKept hInside
    rwa [show (fun c => if c then pure (Value.bool true) else pure (Value.bool false)) =
      fun c => (pure (Value.bool c) : Evaluation Value) from funext fun c => by cases c <;> rfl] at hBoth

theorem Evaluates.ofJump (hKnown : Foreseen ctx e) {ev : Evaluation Bool}
    (hEval : eval ctx e = ev >>= fun c => pure (.bool c))
    (hGrows : (ofJump ctx e jump).Grows ctx (some fun n => .prim (types n)))
    (hJump : ∀ wanted, Jumps types z id (jump wanted) [] ev wanted) :
    (ofJump ctx e jump).Evaluates types z ctx e .boolean := by
  obtain rfl := truthOf_eq hEval
  have hDecided (wanted : Bool) := decided_jumps hKnown (hJump wanted)
  have hValue := truthValue_does (hGrows.jump false) (hDecided false)
  rw [← hEval] at hValue
  exact { Evaluates.ofValue hKnown hGrows.value hValue with
    grows := hGrows
    jump := fun _ wanted => hDecided wanted }

section

variable {go : Bool} {x y : Emit (List Nat)} {evL evR : Evaluation Bool}

/-- The first condition jumps past the second, which jumps to the target. -/
theorem jumps_skipping (hLandsX : Landing (some fun n => .prim (types n)) id x)
    (hx : Jumps types z id x [] evL (!go)) (hLandsY : Landing (some fun n => .prim (types n)) id y)
    (hy : Jumps types z id y [] evR go) :
    Jumps types z id (do let skip ← x; let sites ← y; land skip; return sites) []
      (evL >>= fun a => if a = go then evR else pure a) go := by
  refine ⟨fun s sites t target inside h hs hKept hTargets hInside => ?_⟩
  obtain ⟨skip, s₁, hSkip, h⟩ := bind_ok.1 h
  obtain ⟨sites', s₂, hSites, h⟩ := bind_ok.1 h
  obtain ⟨_, s₃, hLand, h⟩ := bind_ok.1 h
  obtain ⟨rfl, rfl⟩ := pure_ok.1 h
  obtain ⟨hGrows, hFresh⟩ := hLandsX.grows _ _ _ hSkip
  obtain ⟨hGrows₁, hFresh₁⟩ := hLandsY.grows _ _ _ hSites
  obtain ⟨hLater₂, hPc, hTargets₃⟩ := landed hLand
  have hs₁ := hGrows.later.consistent hs
  have hs₂ := hGrows₁.later.consistent hs₁
  have hLe := hGrows.next_le
  have hKept₂ : s₂.Later (fun k => k ∈ skip ∨ k < s.next ∨ k ∈ sites') z := hLater₂.trans hKept
  have hPc₁ := hGrows.later.code.pc_le
  have hPc₂ := hGrows₁.later.code.pc_le
  refine (hx.carries s skip s₁ s₂.code.pc inside hSkip hs ((hGrows₁.later.trans hKept₂).mono (by grind))
    (fun site hSite => ?_) (hInside.left (by omega))).bind fun a _ => ?_
  · refine (hTargets₃ hs₂ site hSite).later (hLater₂.consistent hs₂) hKept.code ?_
    grind
  · rw [hPc]
    by_cases hGo : a = go
    · rw [if_pos hGo, if_neg (by cases a <;> cases go <;> simp_all)]
      exact (hy.carries s₁ sites' s₂ target inside hSites hs₁ (hKept₂.mono (by grind)) hTargets
        ((hInside.right hPc₁).left (by omega))).fewer fun _ => Nat.sub_le _ _
    · rw [if_neg hGo, if_pos (by cases a <;> cases go <;> simp_all)]
      exact .nothing (if_neg hGo) rfl (by simp [hGo]) fun hSame => (hGo hSame).elim

/-- Both conditions jump to the target. -/
theorem jumps_joining (hLandsX : Landing (some fun n => .prim (types n)) id x)
    (hx : Jumps types z id x [] evL (!go)) (hLandsY : Landing (some fun n => .prim (types n)) id y)
    (hy : Jumps types z id y [] evR (!go)) :
    Jumps types z id (do let sites ← x; return sites ++ (← y)) []
      (evL >>= fun a => if a = go then evR else pure a) (!go) := by
  refine ⟨fun s sites t target inside h hs hKept hTargets hInside => ?_⟩
  obtain ⟨first, s₁, hFirst, h⟩ := bind_ok.1 h
  obtain ⟨second, s₂, hSecond, h⟩ := bind_ok.1 h
  obtain ⟨rfl, rfl⟩ := pure_ok.1 h
  obtain ⟨hGrows, hFresh⟩ := hLandsX.grows _ _ _ hFirst
  obtain ⟨hGrows₁, hFresh₁⟩ := hLandsY.grows _ _ _ hSecond
  have hs₁ := hGrows.later.consistent hs
  have hLe := hGrows.next_le
  refine (hx.carries s first s₁ target inside hFirst hs ((hGrows₁.later.trans hKept).mono (by grind))
    (fun site hSite => hTargets site (List.mem_append_left _ hSite))
    (hInside.left hGrows₁.later.code.pc_le)).bind fun a ha => ?_
  by_cases hGo : a = go
  · rw [if_pos hGo, if_neg (by cases a <;> cases go <;> simp_all)]
    refine (hy.carries s₁ second s₂ target inside hSecond hs₁ (hKept.mono (by grind))
      (fun site hSite => hTargets site (List.mem_append_right _ hSite))
      (hInside.right hGrows.later.code.pc_le)).fewer (fun _ => Nat.sub_le _ _) |>.mono
      fun c hc => ⟨fun hWanted => ?_, rfl, rfl⟩
    exact List.append_ne_nil_of_right_ne_nil _ (hc hWanted)
  · have hNot : a = !go := by cases a <;> cases go <;> simp_all
    rw [if_neg hGo, if_pos hNot]
    exact .nothing (if_pos hNot) rfl (by simp [hNot]) fun _ => List.append_ne_nil_of_left_ne_nil (ha hNot) _

end

/-- Two conditions in sequence, of which the second counts only if the first has a given truth. -/
theorem inSequence_jumps (go : Bool) {left : Expr} (hKnown : Foreseen ctx left) {l r : ExprCode}
    (hl : l.Evaluates types z ctx left .boolean) {right : Expr} (hr : r.Evaluates types z ctx right .boolean)
    (wanted : Bool) :
    Jumps types z id (inSequence ctx go left l r wanted) []
      (truthOf ctx left >>= fun a => if a = go then truthOf ctx right else pure a) wanted := by
  unfold inSequence
  cases hTruth : ctx.knownTruth left with
  | some truth =>
    have hEval : (truthOf ctx left >>= fun a => if a = go then truthOf ctx right else pure a) =
        if truth = go then truthOf ctx right else pure truth := by
      rw [truthOf, hKnown truth hTruth]
      rfl
    rw [hEval]
    by_cases hGo : truth = go
    · simp only [hGo, if_true]
      exact hr.jump rfl wanted
    · simp only [hGo, if_false]
      refine .ite (fun hSame => ?_) fun hOther => .never hOther
      subst hSame
      exact .always
  | none =>
    refine .ite (fun hGo => ?_) fun hGo => ?_
    · subst hGo
      exact jumps_skipping (hl.grows.jump _) (hl.jump rfl _) (hr.grows.jump _) (hr.jump rfl _)
    · obtain rfl : wanted = !go := by cases wanted <;> cases go <;> simp_all
      exact jumps_joining (hl.grows.jump _) (hl.jump rfl _) (hr.grows.jump _) (hr.jump rfl _)

end ExprCode

end JavaFragment
