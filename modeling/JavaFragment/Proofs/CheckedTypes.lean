import JavaFragment.Typing.Check
import JavaFragment.Proofs.ConstantTypes
import JavaFragment.Proofs.ValueTypes
/-!
Types before and after checking. The tree that a check leaves has the type that the check gives, and the
tree that was checked had no other. Its code comes with that type as well.
-/
namespace JavaFragment

namespace Checked

variable {α β γ δ : Type} {c : Checked α β} {tree : α}

theorem map_ok {f : α → γ} {tree : γ} {b : β} : c.map f = ⟨tree, .ok b⟩ ↔ ∃ a, c = ⟨a, .ok b⟩ ∧ tree = f a := by
  obtain ⟨a, outcome⟩ := c
  simp only [map, Checked.mk.injEq]
  constructor
  · rintro ⟨rfl, rfl⟩
    exact ⟨a, ⟨rfl, rfl⟩, rfl⟩
  · rintro ⟨_, ⟨rfl, rfl⟩, rfl⟩
    exact ⟨rfl, rfl⟩

theorem andThen_ok {part : γ} {check : Unit → Checked γ δ} {tree : α × γ} {d : δ} :
    c.andThen part check = ⟨tree, .ok d⟩ ↔
      ∃ a b part', c = ⟨a, .ok b⟩ ∧ check () = ⟨part', .ok d⟩ ∧ tree = (a, part') := by
  obtain ⟨a, outcome⟩ := c
  unfold andThen
  cases outcome with
  | error e => simp
  | ok b =>
    simp only [map_ok, Checked.mk.injEq]
    constructor
    · rintro ⟨part', hCheck, rfl⟩
      exact ⟨a, b, part', ⟨rfl, rfl⟩, hCheck, rfl⟩
    · rintro ⟨_, _, part', ⟨rfl, -⟩, hCheck, rfl⟩
      exact ⟨part', hCheck, rfl⟩

theorem bind_ok {next : α → β → Checked α γ} {r : γ} :
    c.bind next = ⟨tree, .ok r⟩ ↔ ∃ a b, c = ⟨a, .ok b⟩ ∧ next a b = ⟨tree, .ok r⟩ := by
  obtain ⟨a, outcome⟩ := c
  unfold bind
  cases outcome with
  | error e => simp
  | ok b =>
    constructor
    · exact fun h => ⟨a, b, rfl, h⟩
    · rintro ⟨_, _, hSame, h⟩
      cases hSame
      exact h

theorem require_ok {condition : α → β → Except CompileError γ} {r : γ} :
    c.require condition = ⟨tree, .ok r⟩ ↔ ∃ b, c = ⟨tree, .ok b⟩ ∧ condition tree b = .ok r := by
  rw [require, bind_ok]
  constructor
  · rintro ⟨a, b, hc, h⟩
    obtain ⟨rfl, hCondition⟩ := Checked.mk.inj h
    exact ⟨b, hc, hCondition⟩
  · rintro ⟨b, hc, h⟩
    exact ⟨tree, b, hc, by rw [h]⟩

theorem done_ok {u : Unit} : c.done = ⟨tree, .ok u⟩ ↔ ∃ b, c = ⟨tree, .ok b⟩ := by simp [done, require_ok]

end Checked

/-- Two computations give no different results. -/
def Agree {ε α : Type} (x y : Except ε α) : Prop := ∀ a b, x = .ok a → y = .ok b → a = b

namespace Agree

variable {ε α β γ : Type} {x y x' y' : Except ε α}

theorem refl (x : Except ε α) : Agree x x := fun _ _ ha hb => Except.ok.inj (ha.symm.trans hb)

theorem fault {e : ε} : Agree (.error e) y := nofun

theorem bind {f g : α → Except ε β} (h : Agree x y) (hf : ∀ a, Agree (f a) (g a)) : Agree (x >>= f) (y >>= g) := by
  intro b c hb hc
  obtain ⟨a, hx, hb⟩ := except_bind_ok.1 hb
  obtain ⟨a', hy, hc⟩ := except_bind_ok.1 hc
  obtain rfl := h a a' hx hy
  exact hf a b c hb hc

/-- Nothing need be known of what comes first. -/
theorem after {z : Except ε γ} {f : α → Except ε β} {g : γ → Except ε β} (hf : ∀ a c, Agree (f a) (g c)) :
    Agree (x >>= f) (z >>= g) := by
  intro b c hb hc
  obtain ⟨a, -, hb⟩ := except_bind_ok.1 hb
  obtain ⟨a', -, hc⟩ := except_bind_ok.1 hc
  exact hf a a' b c hb hc

theorem ite {c : Prop} [Decidable c] (h : Agree x y) (h' : Agree x' y') :
    Agree (if c then x else x') (if c then y else y') := by
  split
  · exact h
  · exact h'

end Agree

/-- Whether an expression is taken by how it is written, as names, `this` and `super` are. -/
def Expr.isMark : Expr → Bool
  | .name _ | .thisRef | .superRef => true
  | _ => false

namespace TypingContext

variable {ctx : TypingContext} {e e' : Expr} {t : JavaType} {β : Type} {u : Unit}

theorem conclude_ok : ctx.conclude e = ⟨e', .ok t⟩ ↔ ctx.typeOf e = .ok t ∧ e' = ctx.simplified e t := by
  unfold conclude
  cases ctx.typeOf e with
  | error fault => simp
  | ok type =>
    simp only [Checked.pass, Checked.mk.injEq, Except.ok.injEq]
    constructor
    · rintro ⟨rfl, rfl⟩
      exact ⟨rfl, rfl⟩
    · rintro ⟨rfl, rfl⟩
      exact ⟨rfl, rfl⟩

theorem concluded_ok {parts : Checked Expr β} : ctx.concluded parts = ⟨e', .ok t⟩ ↔
      ∃ e b, parts = ⟨e, .ok b⟩ ∧ ctx.typeOf e = .ok t ∧ e' = ctx.simplified e t := by
  simp only [concluded, Checked.bind_ok, conclude_ok]

theorem concluded_map {α : Type} {parts : Checked α β} {f : α → Expr} (h : ctx.concluded (parts.map f) = ⟨e', .ok t⟩) :
    ∃ x b, parts = ⟨x, .ok b⟩ ∧ ctx.typeOf (f x) = .ok t ∧ e' = ctx.simplified (f x) t := by
  obtain ⟨inner, b, hParts, hInner⟩ := concluded_ok.1 h
  obtain ⟨x, hx, rfl⟩ := Checked.map_ok.1 hParts
  exact ⟨x, b, hx, hInner⟩

theorem concluded_pair {α γ δ : Type} {first : Checked α β} {part : γ} {check : Unit → Checked γ δ}
    {f : α × γ → Expr} (h : ctx.concluded ((first.andThen part check).map f) = ⟨e', .ok t⟩) :
    ∃ x b y d, first = ⟨x, .ok b⟩ ∧ check () = ⟨y, .ok d⟩ ∧ ctx.typeOf (f (x, y)) = .ok t ∧
      e' = ctx.simplified (f (x, y)) t := by
  obtain ⟨pair, d, hPair, hInner⟩ := concluded_map h
  obtain ⟨x, b, y, hx, hy, rfl⟩ := Checked.andThen_ok.1 hPair
  exact ⟨x, b, y, d, hx, hy, hInner⟩

/-- What stands before a dot is left as it is if it is no value. -/
theorem checkQualifier_ok {check : Unit → Checked Expr JavaType} (h : ctx.checkQualifier e check = ⟨e', .ok u⟩) :
    (∃ a b, ctx.typeOf e = .ok a ∧ check () = ⟨e', .ok b⟩) ∨
      e' = e ∧ ∃ d, ctx.denote e = .ok d ∧ ∀ t, d ≠ .value t := by
  unfold checkQualifier at h
  split at h
  · rename_i type hDenote
    obtain ⟨b, hCheck⟩ := Checked.done_ok.1 h
    exact .inl ⟨type, b, typeOf_ok.2 hDenote, hCheck⟩
  · rename_i d hNot hDenote
    cases h
    exact .inr ⟨rfl, d, hDenote, fun t hValue => hNot t hValue⟩
  · cases h

/-! Simplification keeps the type. -/

theorem typeOf_joined (l r : Expr) : ctx.typeOf (Expr.joined l r) = .ok .string := by
  unfold Expr.joined
  split <;> rw [typeOf_ok, denote, denoteWith]

/-- The type of a branch once it has the rank of the whole. -/
def promotedBranch (own : JavaType) (p : Primitive) : JavaType :=
  if own.base.rank? = p.rank? then own else .prim p

theorem typeOf_promoteBranch {branch : Expr} {own : JavaType} {p : Primitive}
    (hOwn : ctx.typeOf branch = .ok own) (hNumeric : own.isNumeric) (hp : (JavaType.prim p).isNumeric) :
    ctx.typeOf (ctx.promoteBranch (.prim p) branch) = .ok (promotedBranch own p) := by
  unfold promoteBranch promotedBranch
  rw [hOwn, JavaType.primitive?_prim]
  dsimp only
  split
  · exact hOwn
  · exact typeOf_cast.2 ⟨own, hOwn, by simp [isCastable, hNumeric, hp], rfl⟩

theorem isNumeric_prim {a : JavaType} (h : a.isNumeric) : ∃ p, a = .prim p := by
  unfold JavaType.isNumeric at h
  cases hPrim : a.primitive? with
  | none => rw [hPrim] at h; cases h
  | some p => exact ⟨p, JavaType.primitive?_eq_some.1 hPrim⟩

/-- Branches that have a numeric type in common are numbers, and still have it in common once they
are promoted. -/
theorem branchType_numeric {a b : JavaType} {p : Primitive}
    (h : ctx.branchType a b = some (.prim p)) (hp : (JavaType.prim p).isNumeric) :
    a.isNumeric ∧ b.isNumeric ∧ ctx.branchType (promotedBranch a p) (promotedBranch b p) = some (.prim p) := by
  unfold branchType at h
  split at h
  · rename_i hSame
    cases h
    subst hSame
    exact ⟨hp, hp, by simp [promotedBranch, branchType, JavaType.prim, BaseType.rank?]⟩
  · rename_i hDiffer
    split at h
    · rename_i hBoth
      obtain ⟨ha, hb⟩ := Bool.and_eq_true_iff.1 hBoth
      refine ⟨ha, hb, ?_⟩
      obtain ⟨q, rfl⟩ := isNumeric_prim ha
      obtain ⟨r, rfl⟩ := isNumeric_prim hb
      cases q <;> cases r <;> cases h <;> first | rfl | exact absurd rfl hDiffer
    · split at h
      · cases h
      · rename_i hReferences
        exfalso
        simp only [Bool.not_eq_true, Bool.not_eq_false', Bool.and_eq_true] at hReferences
        have hNot : (JavaType.prim p).isReference = false := rfl
        split at h
        · cases h
          rw [hNot] at hReferences
          cases hReferences.2
        · split at h
          · cases h
            rw [hNot] at hReferences
            cases hReferences.1
          · split at h
            · cases h
              rw [hNot] at hReferences
              cases hReferences.2
            · cases h

/-- A choice between numbers keeps its type when its branches are promoted. -/
theorem typeOf_promotedChoice {test a b : Expr} (hType : ctx.typeOf (.conditional test a b) = .ok t)
    (hNumeric : t.isNumeric) :
    ctx.typeOf (.conditional test (ctx.promoteBranch t a) (ctx.promoteBranch t b)) = .ok t := by
  obtain ⟨hTest, ta, tb, ha, hb, hBranch⟩ := typeOf_conditional.1 hType
  obtain ⟨p, rfl⟩ := isNumeric_prim hNumeric
  obtain ⟨hNumericA, hNumericB, hPromoted⟩ := branchType_numeric hBranch hNumeric
  exact typeOf_conditional.2 ⟨hTest, _, _, typeOf_promoteBranch ha hNumericA hNumeric,
    typeOf_promoteBranch hb hNumericB hNumeric, hPromoted⟩

/-- An expression is simplified to one of the same type. -/
theorem simplified_type (hTable : ctx.view.table.constantsFit) (hType : ctx.typeOf e = .ok t) :
    ctx.typeOf (ctx.simplified e t) = .ok t := by
  unfold simplified
  split
  · exact hType
  · cases hConst : ctx.constant e with
    | some c => rw [typeOf_toExpr, constant_type hTable e hType hConst]
    | none =>
      cases e with
      | binary op l r =>
        cases op with
        | add =>
          dsimp only
          split
          · rename_i hString
            rw [JavaType.isString_iff.1 hString]
            exact typeOf_joined l r
          · exact hType
        | _ => exact hType
      | conditional test a b =>
        dsimp only
        split
        · exact typeOf_promotedChoice hType ‹_›
        · exact hType
      | _ => exact hType

/-- Checking ends with the simplification of a tree of the type that the check gives. What has no parts is
that tree itself, and no other tree becomes one without parts before. -/
theorem check_concludes (h : ctx.check e = ⟨e', .ok t⟩) : ∃ inner, ctx.typeOf inner = .ok t ∧
    e' = ctx.simplified inner t ∧ (inner = e ∨ inner.isLiteral = false ∧ inner.isMark = false) := by
  have hConcluded {β : Type} {parts : Checked Expr β} (h : ctx.concluded parts = ⟨e', .ok t⟩)
      (hParts : parts.tree.isLiteral = false ∧ parts.tree.isMark = false) : ∃ inner, ctx.typeOf inner = .ok t ∧
        e' = ctx.simplified inner t ∧ (inner = e ∨ inner.isLiteral = false ∧ inner.isMark = false) := by
    obtain ⟨inner, b, rfl, hType, hTo⟩ := concluded_ok.1 h
    exact ⟨inner, hType, hTo, .inr hParts⟩
  have hConclude (h : ctx.conclude e = ⟨e', .ok t⟩) : ∃ inner, ctx.typeOf inner = .ok t ∧
      e' = ctx.simplified inner t ∧ (inner = e ∨ inner.isLiteral = false ∧ inner.isMark = false) :=
    ⟨e, (conclude_ok.1 h).1, (conclude_ok.1 h).2, .inl rfl⟩
  unfold check at h
  split at h
  case h_15 =>
    split at h
    · exact hConclude h
    · exact hConcluded h ⟨rfl, rfl⟩
  case h_22 => exact hConclude h
  all_goals exact hConcluded h ⟨rfl, rfl⟩

/-- The tree that a check leaves has the type that the check gives. -/
theorem check_type (hTable : ctx.view.table.constantsFit) (h : ctx.check e = ⟨e', .ok t⟩) : ctx.typeOf e' = .ok t := by
  obtain ⟨inner, hInner, rfl, -⟩ := check_concludes h
  exact simplified_type hTable hInner

/-- What is simplified stays as it is or becomes no mark. -/
theorem simplified_mark (e : Expr) (t : JavaType) : ctx.simplified e t = e ∨ (ctx.simplified e t).isMark = false := by
  unfold simplified
  split
  · exact .inl rfl
  · cases ctx.constant e with
    | some c => exact .inr (by cases c <;> rfl)
    | none =>
      cases e with
      | binary op l r =>
        cases op with
        | add =>
          right
          dsimp only
          split
          · unfold Expr.joined
            split <;> rfl
          · rfl
        | _ => exact .inl rfl
      | conditional test a b =>
        right
        dsimp only
        split <;> rfl
      | _ => exact .inl rfl

theorem check_mark (h : ctx.check e = ⟨e', .ok t⟩) : e' = e ∨ e'.isMark = false := by
  obtain ⟨inner, -, rfl, hInner⟩ := check_concludes h
  rcases simplified_mark inner t with hSame | hMark
  · rw [hSame]
    exact hInner.imp id And.right
  · exact .inr hMark

/-- Two expressions have no different types. -/
def SameType (ctx : TypingContext) (e e' : Expr) : Prop := Agree (ctx.typeOf e) (ctx.typeOf e')

/-- Two expressions stand for nothing different. -/
def DenotesSame (ctx : TypingContext) (e e' : Expr) : Prop := Agree (ctx.denote e) (ctx.denote e')

/-- Two lists of arguments have no different types. -/
def SameTypes (ctx : TypingContext) (args args' : List Expr) : Prop :=
  Agree (typesWith ctx ctx.forward args) (typesWith ctx ctx.forward args')

/-- Two places have no different types. -/
def SameLocation (ctx : TypingContext) (e e' : Expr) : Prop := Agree (ctx.locationOf e) (ctx.locationOf e')

theorem DenotesSame.type (h : ctx.DenotesSame e e') : ctx.SameType e e' :=
  fun _ _ ha hb => Denotation.value.inj (h _ _ (typeOf_ok.1 ha) (typeOf_ok.1 hb))

/-- Simplification adds no difference. -/
theorem SameType.simplified (hTable : ctx.view.table.constantsFit) {inner : Expr}
    (h : ctx.SameType e inner) (hInner : ctx.typeOf inner = .ok t) :
    ctx.SameType e (ctx.simplified inner t) := by
  intro a b ha hb
  rw [simplified_type hTable hInner] at hb
  cases hb
  exact h a t ha hInner

/-! What a phrase stands for is decided by what its parts stand for. -/

namespace SameType

variable {l l' r r' c c' : Expr}

theorem unary (op : UnaryOp) (h : ctx.SameType e e') : ctx.SameType (.unary op e) (.unary op e') := by
  intro a b ha hb
  obtain ⟨ta, ha, hOp⟩ := typeOf_unary.1 ha
  obtain ⟨tb, hb, hOp'⟩ := typeOf_unary.1 hb
  obtain rfl := h ta tb ha hb
  exact Option.some.inj (hOp.symm.trans hOp')

theorem binary (op : BinaryOp) (hl : ctx.SameType l l') (hr : ctx.SameType r r') :
    ctx.SameType (.binary op l r) (.binary op l' r') := by
  intro a b ha hb
  obtain ⟨ta, ua, hla, hra, hOp⟩ := typeOf_binary.1 ha
  obtain ⟨tb, ub, hlb, hrb, hOp'⟩ := typeOf_binary.1 hb
  obtain rfl := hl ta tb hla hlb
  obtain rfl := hr ua ub hra hrb
  exact Option.some.inj (hOp.symm.trans hOp')

theorem compare (op : CompareOp) : ctx.SameType (.compare op l r) (.compare op l' r') := by
  intro a b ha hb
  obtain ⟨_, _, _, _, _, rfl⟩ := typeOf_compare.1 ha
  obtain ⟨_, _, _, _, _, rfl⟩ := typeOf_compare.1 hb
  rfl

theorem and : ctx.SameType (.and l r) (.and l' r') :=
  fun _ _ ha hb => (typeOf_and.1 ha).2.2.trans (typeOf_and.1 hb).2.2.symm

theorem or : ctx.SameType (.or l r) (.or l' r') := fun _ _ ha hb => (typeOf_or.1 ha).2.2.trans (typeOf_or.1 hb).2.2.symm

theorem not : ctx.SameType (.not e) (.not e') := fun _ _ ha hb => (typeOf_not.1 ha).2.trans (typeOf_not.1 hb).2.symm

theorem instanceOf (written : WrittenType) : ctx.SameType (.instanceOf e written) (.instanceOf e' written) :=
  fun _ _ ha hb => (typeOf_instanceOf ha).2.trans (typeOf_instanceOf hb).2.symm

theorem cast (written : WrittenType) (h : ctx.SameType e e') : ctx.SameType (.cast written e) (.cast written e') := by
  intro a b ha hb
  obtain ⟨ta, ha, hCast⟩ := castType_of_typeOf ha
  obtain ⟨tb, hb, hCast'⟩ := castType_of_typeOf hb
  obtain rfl := h ta tb ha hb
  have hAgree : Agree (ctx.castType (.cast written e) written ta) (ctx.castType (.cast written e') written ta) :=
    .ite (.refl _) (.ite (.refl _) (.bind (.refl _) fun _ => .ite (.refl _) .fault))
  exact hAgree a b hCast hCast'

theorem conditional (hl : ctx.SameType l l') (hr : ctx.SameType r r') :
    ctx.SameType (.conditional c l r) (.conditional c' l' r') := by
  intro a b ha hb
  obtain ⟨-, ta, ua, hla, hra, hBranch⟩ := typeOf_conditional.1 ha
  obtain ⟨-, tb, ub, hlb, hrb, hBranch'⟩ := typeOf_conditional.1 hb
  obtain rfl := hl ta tb hla hlb
  obtain rfl := hr ua ub hra hrb
  exact Option.some.inj (hBranch.symm.trans hBranch')

end SameType

/-- How the target is written matters only to what is said of a fault. -/
theorem memberTarget_agree (e e' : Expr) (n : String) (d : Denotation) :
    Agree (ctx.memberTarget e n d) (ctx.memberTarget e' n d) := by
  cases d with
  | value type =>
    refine .ite (.ite (.refl _) .fault) ?_
    split
    · exact .fault
    · exact .refl _
  | «class» owner =>
    rw [memberTarget, memberTarget]
    split
    · exact .ite (.refl _) .fault
    · exact .ite (.refl _) .fault
  | package => exact .refl _

theorem SameType.field {n : String} (h : ctx.DenotesSame e e') : ctx.SameType (.field e n) (.field e' n) := by
  apply DenotesSame.type
  rw [DenotesSame, denote, denote, denoteWith, denoteWith]
  refine .bind h fun d => .bind (memberTarget_agree e e' n d) fun found => ?_
  cases found with
  | some target => exact .refl _
  | none =>
    cases d with
    | value => exact .fault
    | «class» | package => exact .refl _

theorem SameLocation.field {n : String} (h : ctx.DenotesSame e e') : ctx.SameLocation (.field e n) (.field e' n) := by
  rw [SameLocation, locationOf, locationOf, locationWith, locationWith]
  refine .bind h fun d => .bind (memberTarget_agree e e' n d) fun found => ?_
  unfold fieldLocation
  split
  · exact .refl _
  · exact .refl _
  · exact .fault
  · exact .fault

theorem SameType.index {i i' : Expr} (h : ctx.SameType e e') : ctx.SameType (.index e i) (.index e' i') := by
  intro a b ha hb
  obtain ⟨ta, _, ha, -, hElement, -⟩ := typeOf_index ha
  obtain ⟨tb, _, hb, -, hElement', -⟩ := typeOf_index hb
  obtain rfl := h ta tb ha hb
  exact Option.some.inj (hElement.symm.trans hElement')

theorem SameLocation.index {i i' : Expr} (h : ctx.SameType e e') : ctx.SameLocation (.index e i) (.index e' i') :=
  fun a b ha hb => h.index a b (typeOf_of_locationOf_index ha) (typeOf_of_locationOf_index hb)

/-! Calls. -/

theorem memberCall_agree (e e' : Expr) (name : String) (args : List JavaType) (d : Denotation) :
    Agree (ctx.memberCall e name args d) (ctx.memberCall e' name args d) := by
  cases d with
  | value type =>
    refine .ite (.refl _) ?_
    split
    · exact .refl _
    · exact .fault
  | «class» | package => exact .refl _

theorem callTarget_of_not_mark {name : String} {args : List JavaType}
    {d : Except CompileError Denotation} {found : CallTarget} (hMark : e.isMark = false ∨ e.isKeyword = false)
    (h : ctx.callTarget e d name args = .ok found) :
    ∃ d', d = .ok d' ∧ ctx.memberCall e name args d' = .ok found := by
  unfold callTarget at h
  split at h
  · rcases hMark with hMark | hMark <;> cases hMark
  · rcases hMark with hMark | hMark <;> cases hMark
  · exact except_bind_ok.1 h

theorem SameType.callOn {name : String} {args args' : List Expr} (hArgs : ctx.SameTypes args args')
    (hTarget : e' = e ∨ ctx.DenotesSame e e' ∧ e.isKeyword = false ∧ (e'.isMark = false ∨ e'.isKeyword = false)) :
    ctx.SameType (.callOn e name args) (.callOn e' name args') := by
  apply DenotesSame.type
  rw [DenotesSame, denote, denote, denoteWith, denoteWith]
  refine .after fun _ _ => .bind hArgs fun types => .bind ?_ fun _ => .refl _
  rcases hTarget with rfl | ⟨hSame, hKeyword, hMark⟩
  · exact .refl _
  · intro found found' hFound hFound'
    obtain ⟨d, hd, hFound⟩ := callTarget_of_not_mark (.inr hKeyword) hFound
    obtain ⟨d', hd', hFound'⟩ := callTarget_of_not_mark hMark hFound'
    obtain rfl := hSame d d' hd hd'
    exact memberCall_agree e e' name types d found found' hFound hFound'

theorem SameType.call (name : String) {args args' : List Expr} (h : ctx.SameTypes args args') :
    ctx.SameType (.call name args) (.call name args') := by
  apply DenotesSame.type
  rw [DenotesSame, denote, denote, denoteWith, denoteWith]
  refine .ite (.after fun _ _ => .bind (.refl _) fun call => ?_) <|
    .ite (.after fun _ _ => .refl _) (.after fun _ _ => .bind h fun _ => .refl _)
  split
  · exact .bind h fun _ => .refl _
  · exact .ite .fault (.ite (.after fun _ _ => .refl _) (.bind h fun _ => .refl _))

/-! The check. -/

theorem checkQualifier_same (hTable : ctx.view.table.constantsFit) {check : Unit → Checked Expr JavaType}
    (hCheck : ∀ {b}, check () = ⟨e', .ok b⟩ → ctx.check e = ⟨e', .ok b⟩ ∧ ctx.SameType e e')
    (h : ctx.checkQualifier e check = ⟨e', .ok u⟩) : ctx.DenotesSame e e' := by
  intro d d' hd hd'
  rcases checkQualifier_ok h with ⟨a, b, ha, hChecked⟩ | ⟨rfl, -⟩
  · obtain ⟨hChecked, hSame⟩ := hCheck hChecked
    have hb := check_type hTable hChecked
    rw [typeOf_ok.1 ha] at hd
    rw [typeOf_ok.1 hb] at hd'
    cases hd
    cases hd'
    rw [hSame a b ha hb]
  · exact Except.ok.inj (hd.symm.trans hd')

theorem check_assign {op : Option BinaryOp} {target value : Expr}
    (h : ctx.check (.assign op target value) = ⟨e', .ok t⟩) :
    ∃ place value' u, ctx.checkLocation target = ⟨place, .ok u⟩ ∧
      ((∃ items items', value = .arrayInit items ∧ value' = .arrayInit items' ∧
          ctx.checkAll items = ⟨items', .ok ()⟩) ∨ ∃ b, ctx.check value = ⟨value', .ok b⟩) ∧
      ctx.typeOf (.assign op place value') = .ok t ∧ e' = ctx.simplified (.assign op place value') t := by
  by_cases hInit : ∃ items, value = .arrayInit items
  · obtain ⟨items, rfl⟩ := hInit
    rw [check] at h
    obtain ⟨place, _, items', _, hPlace, hItems, hInner⟩ := concluded_pair h
    exact ⟨place, _, _, hPlace, .inl ⟨items, items', rfl, rfl, hItems⟩, hInner⟩
  · rw [check] at h
    · obtain ⟨place, _, value', b, hPlace, hValue, hInner⟩ := concluded_pair h
      exact ⟨place, _, _, hPlace, .inr ⟨b, hValue⟩, hInner⟩
    · exact fun items h => hInit ⟨items, h⟩

theorem checkAll_length {es es' : List Expr} (h : ctx.checkAll es = ⟨es', .ok u⟩) : es'.length = es.length := by
  induction es generalizing es' with
  | nil =>
    rw [checkAll] at h
    cases h
    rfl
  | cons e rest ih =>
    rw [checkAll] at h
    obtain ⟨⟨_, _⟩, hParts, rfl⟩ := Checked.map_ok.1 h
    obtain ⟨_, _, rest', -, hRest, hPair⟩ := Checked.andThen_ok.1 hParts
    cases hPair
    exact congrArg (· + 1) (ih hRest)

mutual

/-- A check leaves no tree of another type than the tree had before. -/
theorem check_same (hTable : ctx.view.table.constantsFit) : (e : Expr) → ∀ {e' t},
    ctx.check e = ⟨e', .ok t⟩ → ctx.SameType e e'
  | .unary op e, _, _, h => by
    rw [check] at h
    obtain ⟨x, _, hx, hInner, rfl⟩ := concluded_map h
    exact ((check_same hTable e hx).unary op).simplified hTable hInner
  | .not e, _, _, h => by
    rw [check] at h
    obtain ⟨x, _, -, hInner, rfl⟩ := concluded_map h
    exact SameType.not.simplified hTable hInner
  | .cast written e, _, _, h => by
    rw [check] at h
    obtain ⟨x, _, hx, hInner, rfl⟩ := concluded_map h
    exact ((check_same hTable e hx).cast written).simplified hTable hInner
  | .instanceOf e written, _, _, h => by
    rw [check] at h
    obtain ⟨x, _, -, hInner, rfl⟩ := concluded_map h
    exact (SameType.instanceOf written).simplified hTable hInner
  | .binary op l r, _, _, h => by
    rw [check] at h
    obtain ⟨x, _, y, _, hx, hy, hInner, rfl⟩ := concluded_pair h
    exact ((check_same hTable l hx).binary op (check_same hTable r hy)).simplified hTable hInner
  | .compare op l r, _, _, h => by
    rw [check] at h
    obtain ⟨x, _, y, _, -, -, hInner, rfl⟩ := concluded_pair h
    exact (SameType.compare op).simplified hTable hInner
  | .and l r, _, _, h => by
    rw [check] at h
    obtain ⟨x, _, y, _, -, -, hInner, rfl⟩ := concluded_pair h
    exact SameType.and.simplified hTable hInner
  | .or l r, _, _, h => by
    rw [check] at h
    obtain ⟨x, _, y, _, -, -, hInner, rfl⟩ := concluded_pair h
    exact SameType.or.simplified hTable hInner
  | .conditional c a b, _, _, h => by
    rw [check] at h
    obtain ⟨pair, _, z, _, hPair, hz, hInner, rfl⟩ := concluded_pair h
    obtain ⟨x, _, y, -, hy, rfl⟩ := Checked.andThen_ok.1 hPair
    exact (SameType.conditional (check_same hTable a hy) (check_same hTable b hz)).simplified
      hTable hInner
  | .assign op target value, _, _, h => by
    obtain ⟨place, value', u, hPlace, -, hInner, rfl⟩ := check_assign h
    refine SameType.simplified hTable (fun a b ha hb => ?_) hInner
    exact checkLocation_same hTable target hPlace a b (location_of_assign ha) (location_of_assign hb)
  | .incDec increment before target, _, _, h => by
    rw [check] at h
    obtain ⟨place, _, hPlace, hInner, rfl⟩ := concluded_map h
    refine SameType.simplified hTable (fun a b ha hb => ?_) hInner
    exact checkLocation_same hTable target hPlace a b (location_of_incDec ha) (location_of_incDec hb)
  | .field target name, _, _, h => by
    rw [check] at h
    obtain ⟨x, _, hx, hInner, rfl⟩ := concluded_map h
    have hSame : ctx.DenotesSame target x :=
      checkQualifier_same hTable (fun hCheck => ⟨hCheck, check_same hTable target hCheck⟩) hx
    exact (SameType.field hSame).simplified hTable hInner
  | .index a i, _, _, h => by
    rw [check] at h
    obtain ⟨x, _, y, _, hx, -, hInner, rfl⟩ := concluded_pair h
    exact (check_same hTable a hx).index.simplified hTable hInner
  | .call name args, _, _, h => by
    rw [check] at h
    split at h
    · obtain ⟨hInner, rfl⟩ := conclude_ok.1 h
      exact SameType.simplified hTable (Agree.refl _) hInner
    · obtain ⟨args', _, hArgs, hInner, rfl⟩ := concluded_map h
      exact (SameType.call name (checkArgs_same hTable args hArgs)).simplified hTable hInner
  | .callOn target name args, _, _, h => by
    rw [check] at h
    obtain ⟨x, _, args', _, hx, hArgs, hInner, rfl⟩ := concluded_pair h
    refine (SameType.callOn (checkArgs_same hTable args hArgs) ?_).simplified hTable hInner
    split at hx
    · cases hx
      exact .inl rfl
    · rename_i hKeyword
      rcases checkQualifier_ok hx with ⟨_, _, -, hCheck⟩ | ⟨rfl, -⟩
      · rcases check_mark hCheck with rfl | hMark
        · exact .inl rfl
        · have hSame : ctx.DenotesSame target x :=
            checkQualifier_same hTable (fun hCheck => ⟨hCheck, check_same hTable target hCheck⟩) hx
          exact .inr ⟨hSame, by simpa using hKeyword, .inl hMark⟩
      · exact .inl rfl
  | .new written args, _, _, h => by
    rw [check] at h
    obtain ⟨args', _, -, hInner, rfl⟩ := concluded_map h
    refine SameType.simplified hTable (fun a b ha hb => ?_) hInner
    exact Except.ok.inj ((typeOf_new ha).1.symm.trans (typeOf_new hb).1)
  | .newArray element lengths extra, _, _, h => by
    rw [check] at h
    obtain ⟨lengths', _, hLengths, hInner, rfl⟩ := concluded_map h
    refine SameType.simplified hTable (fun a b ha hb => ?_) hInner
    obtain ⟨base, hBase, -, rfl⟩ := typeOf_newArray ha
    obtain ⟨base', hBase', -, rfl⟩ := typeOf_newArray hb
    rw [Except.ok.inj (hBase.symm.trans hBase'), checkAll_length hLengths]
  | .arrayOf element dims items, _, _, h => by
    rw [check] at h
    obtain ⟨items', _, -, hInner, rfl⟩ := concluded_map h
    refine SameType.simplified hTable (fun a b ha hb => ?_) hInner
    obtain ⟨base, _, hBase, -, -, rfl⟩ := typeOf_arrayOf ha
    obtain ⟨base', _, hBase', -, -, rfl⟩ := typeOf_arrayOf hb
    rw [Except.ok.inj (hBase.symm.trans hBase')]
  | .arrayInit items, _, _, _ => by
    intro a b ha
    rw [typeOf_ok, denote, denoteWith] at ha
    cases ha
  | .concat parts, _, _, h => by
    rw [check] at h
    obtain ⟨parts', _, -, hInner, rfl⟩ := concluded_map h
    refine SameType.simplified hTable (fun a b ha hb => ?_) hInner
    rw [typeOf_ok, denote, denoteWith] at ha hb
    exact Denotation.value.inj (Except.ok.inj (ha.symm.trans hb))
  | .int _ _, _, _, h | .long _, _, _, h | .float _, _, _, h | .double _, _, _, h | .string _, _, _, h
  | .thisRef, _, _, h | .superRef, _, _, h | .nullRef, _, _, h | .bool _, _, _, h | .name _, _, _, h
  | .var _, _, _, h | .classLit _, _, _, h => by
    simp only [check] at h
    obtain ⟨hInner, rfl⟩ := conclude_ok.1 h
    exact SameType.simplified hTable (Agree.refl _) hInner

theorem checkLocation_same (hTable : ctx.view.table.constantsFit) : (e : Expr) → ∀ {e' u},
    ctx.checkLocation e = ⟨e', .ok u⟩ → ctx.SameLocation e e'
  | .index a i, _, _, h => by
    rw [checkLocation] at h
    obtain ⟨_, hPlace⟩ := Checked.done_ok.1 h
    obtain ⟨pair, hPair, rfl⟩ := Checked.map_ok.1 hPlace
    obtain ⟨x, _, y, hx, -, rfl⟩ := Checked.andThen_ok.1 hPair
    exact SameLocation.index (check_same hTable a hx)
  | .field target name, _, _, h => by
    rw [checkLocation] at h
    obtain ⟨x, hx, rfl⟩ := Checked.map_ok.1 h
    exact SameLocation.field
      (checkQualifier_same hTable (fun hCheck => ⟨hCheck, check_same hTable target hCheck⟩) hx)
  | .int _ _, _, _, h | .long _, _, _, h | .float _, _, _, h | .double _, _, _, h | .string _, _, _, h
  | .thisRef, _, _, h | .superRef, _, _, h | .nullRef, _, _, h | .bool _, _, _, h | .name _, _, _, h
  | .var _, _, _, h | .classLit _, _, _, h | .unary _ _, _, _, h | .binary _ _ _, _, _, h
  | .compare _ _ _, _, _, h | .and _ _, _, _, h | .or _ _, _, _, h | .not _, _, _, h
  | .instanceOf _ _, _, _, h | .cast _ _, _, _, h | .conditional _ _ _, _, _, h
  | .assign _ _ _, _, _, h | .incDec _ _ _, _, _, h | .call _ _, _, _, h | .callOn _ _ _, _, _, h
  | .new _ _, _, _, h | .newArray _ _ _, _, _, h | .arrayOf _ _ _, _, _, h | .arrayInit _, _, _, h
  | .concat _, _, _, h => by
    simp only [checkLocation] at h
    cases h
    exact Agree.refl _

theorem checkArgs_same (hTable : ctx.view.table.constantsFit) : (args : List Expr) → ∀ {args' u},
    ctx.checkArgs args = ⟨args', .ok u⟩ → ctx.SameTypes args args'
  | [], _, _, h => by
    rw [checkArgs] at h
    cases h
    exact Agree.refl _
  | arg :: rest, _, _, h => by
    rw [checkArgs] at h
    obtain ⟨pair, hPair, rfl⟩ := Checked.map_ok.1 h
    obtain ⟨arg', _, rest', hArg, hRest, rfl⟩ := Checked.andThen_ok.1 hPair
    have hTail := checkArgs_same hTable rest hRest
    rw [SameTypes, typesWith, typesWith]
    split at hArg
    · rename_i hSplice
      cases hArg
      rw [if_pos hSplice, if_pos hSplice]
      exact .bind (.refl _) fun _ => .bind (.refl _) fun _ => .bind hTail fun _ => .refl _
    · rename_i hSplice
      obtain ⟨type, hCheck⟩ := Checked.done_ok.1 hArg
      have hSplice' : arg'.isSplice = false := by
        rcases check_mark hCheck with rfl | hMark
        · simpa using hSplice
        · cases arg' <;> first | rfl | cases hMark
      rw [if_neg hSplice, if_neg (by simp [hSplice']), ← bind_assoc, ← bind_assoc]
      exact .bind (check_same hTable arg hCheck) fun _ => .bind hTail fun _ => .refl _

end

end TypingContext

/-- The three ways to the type of an expression agree. The check gives the type of the tree that it
leaves, which is also the type of the tree as it was, if that had one, and the type that comes with the
code. -/
theorem type_derivations_agree {ctx : TypingContext} (hTable : ctx.view.table.constantsFit)
    {e e' : Expr} {t : JavaType} (h : ctx.check e = ⟨e', .ok t⟩) :
    ctx.typeOf e' = .ok t ∧ (∀ before, ctx.typeOf e = .ok before → before = t) ∧
      ∀ s emitted z, (ctx.compile e').value s = .ok emitted z → emitted = t := by
  have hType := TypingContext.check_type hTable h
  refine ⟨hType, ?_, ?_⟩
  · intro before hBefore
    exact TypingContext.check_same hTable e h before t hBefore hType
  · intro s emitted z hEmit
    exact (compileWith_returns e' hType).result s emitted z hEmit

/-- Of a choice between an `int` and a `long`, the `int` is cast. -/
theorem type_derivations_agree_choice : let test : Expr := .var ⟨0, "b", .primitive .boolean⟩
    let checked : Expr := .conditional test (.cast (.primitive .long) (.int 1 .int)) (.long 2)
    (default : TypingContext).check (.conditional test (.int 1 .int) (.long 2)) = ⟨checked, .ok .long⟩ ∧
      (default : TypingContext).typeOf checked = .ok .long := by
  intro test checked
  have h : (default : TypingContext).check (.conditional test (.int 1 .int) (.long 2)) = ⟨checked, .ok .long⟩ := rfl
  exact ⟨h, (type_derivations_agree rfl h).1⟩

end JavaFragment
