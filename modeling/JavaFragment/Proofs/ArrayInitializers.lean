import JavaFragment.Proofs.CheckedTypes
/-!
Array initializers. Braces fit a type if every brace stands where the type is an array and every expression
in them can be assigned at its depth. The check accepts just those that fit and have no braces in braces:
it asks for the type of every item on its own, and braces have none.
-/
namespace JavaFragment

/-- Whether an expression is items in braces. -/
def Expr.isGroup : Expr → Bool
  | .arrayInit _ => true
  | _ => false

/-- Whether no braces stand within braces. -/
def Expr.isFlat : Expr → Bool
  | .arrayInit items => items.all (!·.isGroup)
  | _ => true

namespace TypingContext

/-- An initializer fits a type, the elements of which its items are given to. -/
inductive Initializes (ctx : TypingContext) : JavaType → Expr → Prop where
  | leaf {e e' : Expr} {source target : JavaType} (hLeaf : e.isGroup = false)
      (hCheck : ctx.check e = ⟨e', .ok source⟩) (hAssign : ctx.assignable e' source target = .ok ()) :
      Initializes ctx target e
  | group {items : List Expr} {type element : JavaType} (hElement : type.element? = some element)
      (hItems : ∀ item ∈ items, Initializes ctx element item) : Initializes ctx type (.arrayInit items)

variable {ctx : TypingContext} {e e' : Expr} {items items' : List Expr} {type element t : JavaType}

theorem initializes_leaf (hLeaf : e.isGroup = false) : ctx.Initializes type e ↔
    ∃ e' source, ctx.check e = ⟨e', .ok source⟩ ∧ ctx.assignable e' source type = .ok () := by
  constructor
  · rintro (⟨-, hCheck, hAssign⟩ | -)
    · exact ⟨_, _, hCheck, hAssign⟩
    · cases hLeaf
  · rintro ⟨e', source, hCheck, hAssign⟩
    exact .leaf hLeaf hCheck hAssign

theorem initializes_group : ctx.Initializes type (.arrayInit items) ↔
    ∃ element, type.element? = some element ∧ ∀ item ∈ items, ctx.Initializes element item := by
  constructor
  · rintro (⟨hLeaf, -, -⟩ | ⟨hElement, hItems⟩)
    · cases hLeaf
    · exact ⟨_, hElement, hItems⟩
  · rintro ⟨element, hElement, hItems⟩
    exact .group hElement hItems

theorem itemType_ok : itemType type = .ok element ↔ type.element? = some element := by
  unfold itemType
  cases type.element? <;> simp

theorem typeOf_group (hType : ctx.typeOf e = .ok t) : e.isGroup = false := by
  cases e with
  | arrayInit items =>
    rw [typeOf_ok, denote, denoteWith] at hType
    cases hType
  | _ => rfl

/-- The check of braces on their own fails whatever stands in them. -/
theorem check_group (h : ctx.check e = ⟨e', .ok t⟩) : e.isGroup = false := by
  cases e with
  | arrayInit items =>
    rw [check] at h
    obtain ⟨items', -, -, hType, -⟩ := concluded_map h
    cases typeOf_group hType
  | _ => rfl

theorem checkAll_cons {u : Unit} : ctx.checkAll (e :: items) = ⟨items', .ok u⟩ ↔
    ∃ e' t rest, ctx.check e = ⟨e', .ok t⟩ ∧ ctx.checkAll items = ⟨rest, .ok u⟩ ∧ items' = e' :: rest := by
  rw [checkAll, Checked.map_ok]
  simp only [Checked.andThen_ok]
  constructor
  · rintro ⟨_, ⟨e', t, rest, hCheck, hRest, rfl⟩, rfl⟩
    exact ⟨e', t, rest, hCheck, hRest, rfl⟩
  · rintro ⟨e', t, rest, hCheck, hRest, rfl⟩
    exact ⟨_, ⟨e', t, rest, hCheck, hRest, rfl⟩, rfl⟩

theorem fitWith_cons (hType : ctx.typeOf e = .ok t) : fitWith ctx ctx.forward (e :: items) element = .ok () ↔
    ctx.assignable e t element = .ok () ∧ fitWith ctx ctx.forward items element = .ok () := by
  have hLeaf := typeOf_group hType
  rw [fitWith]
  · simp only [except_bind_ok, Denotation.valueOf_ok]
    constructor
    · rintro ⟨_, hDenote, source, rfl, _, hAssign, hItems⟩
      cases hDenote.symm.trans (typeOf_ok.1 hType)
      exact ⟨hAssign, hItems⟩
    · rintro ⟨hAssign, hItems⟩
      exact ⟨_, typeOf_ok.1 hType, t, rfl, (), hAssign, hItems⟩
  · rintro inner rfl
    cases hLeaf

/-- Items pass the check and fit their elements if each of them does and none is in braces itself. -/
theorem items_fit_iff (hTable : ctx.view.table.constantsFit) :
    (∃ items', ctx.checkAll items = ⟨items', .ok ()⟩ ∧ fitWith ctx ctx.forward items' element = .ok ()) ↔
      ∀ item ∈ items, item.isGroup = false ∧ ctx.Initializes element item := by
  induction items with
  | nil => exact ⟨fun _ _ h => absurd h List.not_mem_nil, fun _ => ⟨[], by rw [checkAll]; rfl, by rw [fitWith]⟩⟩
  | cons e rest ih =>
    rw [List.forall_mem_cons, ← ih]
    constructor
    · rintro ⟨_, hAll, hFits⟩
      obtain ⟨e', t, rest', hCheck, hRest, rfl⟩ := checkAll_cons.1 hAll
      obtain ⟨hAssign, hFits⟩ := (fitWith_cons (check_type hTable hCheck)).1 hFits
      exact ⟨⟨check_group hCheck, .leaf (check_group hCheck) hCheck hAssign⟩, rest', hRest, hFits⟩
    · rintro ⟨⟨hLeaf, hFirst⟩, rest', hRest, hFits⟩
      obtain ⟨e', t, hCheck, hAssign⟩ := (initializes_leaf hLeaf).1 hFirst
      exact ⟨_, checkAll_cons.2 ⟨e', t, rest', hCheck, hRest, rfl⟩,
        (fitWith_cons (check_type hTable hCheck)).2 ⟨hAssign, hFits⟩⟩

theorem group_fits_iff (hTable : ctx.view.table.constantsFit) :
    (∃ items', ctx.checkAll items = ⟨items', .ok ()⟩ ∧ ctx.fits items' type = .ok ()) ↔
      ctx.Initializes type (.arrayInit items) ∧ (Expr.arrayInit items).isFlat := by
  simp only [fits, except_bind_ok, itemType_ok, initializes_group, Expr.isFlat, List.all_eq_true, Bool.not_eq_true']
  constructor
  · rintro ⟨items', hAll, element, hElement, hFits⟩
    have hEach := (items_fit_iff hTable).1 ⟨items', hAll, hFits⟩
    exact ⟨⟨element, hElement, fun item h => (hEach item h).2⟩, fun item h => (hEach item h).1⟩
  · rintro ⟨⟨element, hElement, hItems⟩, hFlat⟩
    obtain ⟨items', hAll, hFits⟩ := (items_fit_iff hTable).2 fun item h => ⟨hFlat item h, hItems item h⟩
    exact ⟨items', hAll, element, hElement, hFits⟩

theorem checkInitial_ok_iff (hTable : ctx.view.table.constantsFit) :
    (ctx.checkInitial type e).outcome = .ok () ↔ ctx.Initializes type e ∧ e.isFlat := by
  have hOutcome (c : Checked Expr Unit) : c.outcome = .ok () ↔ ∃ tree, c = ⟨tree, .ok ()⟩ :=
    ⟨fun h => ⟨c.tree, by rw [← h]⟩, by rintro ⟨tree, rfl⟩; rfl⟩
  rw [hOutcome]
  by_cases hGroup : e.isGroup
  · cases e with
    | arrayInit items =>
      simp only [checkInitial, Checked.map_ok, Checked.require_ok, ← group_fits_iff hTable]
      constructor
      · rintro ⟨_, items', ⟨_, hAll, hFits⟩, -⟩
        exact ⟨items', hAll, hFits⟩
      · rintro ⟨items', hAll, hFits⟩
        exact ⟨_, items', ⟨_, hAll, hFits⟩, rfl⟩
    | _ => cases hGroup
  · rw [Bool.not_eq_true] at hGroup
    have hFlat : e.isFlat := by cases e <;> first | rfl | cases hGroup
    rw [checkInitial, initializes_leaf hGroup, and_iff_left hFlat]
    · simp only [Checked.require_ok]
    · rintro items rfl
      cases hGroup

/-- The check accepts the initializer of a place, or of a new array, exactly if it fits the type and has no
braces within braces. -/
theorem array_initializers_fit (hTable : ctx.view.table.constantsFit) (type : JavaType) (init : Expr)
    (written : WrittenType) (dims : Nat) (items : List Expr) :
    ((ctx.checkInitial type init).outcome = .ok () ↔ ctx.Initializes type init ∧ init.isFlat) ∧
      ((∃ e' t, ctx.check (.arrayOf written dims items) = ⟨e', .ok t⟩) ↔
        ∃ base, ctx.view.resolveType written = .ok base ∧
          ctx.Initializes (base.arrayOf dims) (.arrayInit items) ∧ (Expr.arrayInit items).isFlat) := by
  refine ⟨checkInitial_ok_iff hTable, ?_⟩
  simp only [← group_fits_iff hTable, fits, except_bind_ok, itemType_ok]
  rw [check]
  constructor
  · rintro ⟨e', t, h⟩
    obtain ⟨items', _, hAll, hType, -⟩ := concluded_map h
    obtain ⟨base, element, hBase, hElement, hFits, -⟩ := typeOf_arrayOf hType
    exact ⟨base, hBase, items', hAll, element, hElement, hFits⟩
  · rintro ⟨base, hBase, items', hAll, element, hElement, hFits⟩
    have hType : ctx.typeOf (.arrayOf written dims items') = .ok (base.arrayOf dims) := by
      rw [typeOf_ok, denote, denoteWith]
      simp only [hBase, itemType_ok.2 hElement, hFits, bind, Except.bind, pure, Except.pure]
    exact ⟨_, _, concluded_ok.2 ⟨_, _, Checked.map_ok.2 ⟨items', hAll, rfl⟩, hType, rfl⟩⟩

/-- Braces in braces fit an array of arrays and are refused. -/
theorem array_initializers_fit_nested : let init : Expr := .arrayInit [.arrayInit [.int 1 .int]]
    (default : TypingContext).Initializes (JavaType.int.arrayOf 2) init ∧
      ((default : TypingContext).checkInitial (JavaType.int.arrayOf 2) init).outcome ≠ .ok () := by
  intro init
  have hOne : (default : TypingContext).Initializes .int (.int 1 .int) := .leaf rfl rfl rfl
  refine ⟨.group rfl fun item hItem => ?_, fun h => ?_⟩
  · rw [List.mem_singleton.1 hItem]
    exact .group rfl fun item hItem => List.mem_singleton.1 hItem ▸ hOne
  · cases ((array_initializers_fit rfl (JavaType.int.arrayOf 2) init .null 0 []).1.1 h).2

end TypingContext

end JavaFragment
