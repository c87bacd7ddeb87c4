import JavaFragment.Proofs.ReadingRules
/-!
Everything that is read follows the rules of reading: each production does if its parts do, and so do phrases of any
depth and whole texts.
-/
namespace JavaFragment

namespace Grammar

open Reader

variable {source : List PlacedToken} {token : Token} {still : Prop}

/-- No label was found. -/
def unlabeled (found : List Expr × Bool) : Bool := found.1.isEmpty && !found.2

/-- What follows the rules as a phrase. Most phrases declare nothing in the scope that they begin in. Lists go on with
what was read of them so far. A phrase uses up a token, but for one that goes on with something. -/
def Reading (R : TreeRules source) (m : Nat) (u : Bool) : (p : Phrase) → Reader p.Tree → Reader p.Tree → Prop
  | .expression, x, y | .ternary, x, y | .binary _, x, y | .unary, x, y | .primary, x, y =>
    ∀ {pre s₀}, Leaves R m u true pre s₀ (R.expr · s₀) x y
  | .binaryTail _ first, x, y | .postfixTail first, x, y =>
    ∀ {pre s₀}, Leaves R m u u pre s₀ (fun P e => R.expr P s₀ first → R.expr P s₀ e) x y
  | .arguments, x, y => ∀ {pre s₀}, Leaves R m u true pre s₀ (fun P es => ∀ e ∈ es, R.expr P s₀ e) x y
  | .expressions found, x, y => ∀ {pre s₀}, Leaves R m u true pre s₀
    (fun P es => (∀ e ∈ found, R.expr P s₀ e) → ∀ e ∈ es, R.expr P s₀ e) x y
  | .lengths found, x, y => ∀ {pre s₀} {c : Prop}, (∀ ahead, pre ahead → c → found ≠ [] ∨ LengthAhead ahead) →
    Leaves R m u u pre s₀ (fun P es => (∀ e ∈ found, R.expr P s₀ e) → (c → es ≠ []) ∧ ∀ e ∈ es, R.expr P s₀ e) x y
  | .initializer, x, y => ∀ {pre s₀}, Leaves R m u true pre s₀ (R.initial · s₀) x y
  | .arrayItems found, x, y => ∀ {pre s₀}, Leaves R m u true pre s₀
    (fun P es => (∀ e ∈ found, R.initial P s₀ e) → ∀ e ∈ es, R.initial P s₀ e) x y
  | .statement, x, y => ∀ {pre s₀}, Agree R m u (fun _ => true) pre s₀ False (fun _ _ => True) (R.stmt · s₀) x y
  | .branch, x, y => ∀ {pre s₀}, Leaves R m u true pre s₀ (R.branch · s₀) x y
  | .block, x, y => ∀ {pre s₀}, Leaves R m u true pre s₀ (R.facts.block · s₀) x y
  | .statements stop found, x, y => ∀ {pre s₀}, Agree R m u (fun _ => u) pre s₀ False
    (fun _ ahead => stop.includes (first ahead).token = true)
    (fun P body t => ∀ base : Scope, base.Chain (R.stmt P) found.reverse s₀ → base.Chain (R.stmt P) body t) x y
  | .declarators _ found, x, y => ∀ {pre s₀}, Agree R m u (fun _ => true) pre s₀ False (fun _ _ => True) (fun P decls t =>
    ∀ base : Scope, base.Chain (R.declarator P) found.reverse s₀ → base.Chain (R.declarator P) decls t) x y
  | .switchCases found, x, y => ∀ {pre s₀}, Agree R m u (fun _ => u) pre s₀ False (fun _ _ => True)
    (fun P cases t => found.countP SwitchCase.isDefault ≤ 1 → cases.countP SwitchCase.isDefault ≤ 1 ∧
      ∀ base : Scope, base.Chain (R.group P) found.reverse s₀ → base.Chain (R.group P) cases t) x y
  | .caseLabels seen labels isDefault, x, y => ∀ {pre s₀}, Agree R m u
    (fun found => u || unlabeled (labels, isDefault) && !unlabeled found) pre s₀ True (fun _ _ => True)
    (fun P found _ => (found.2 = true → isDefault = true ∨ seen = false) ∧
      ((∀ e ∈ labels, R.expr P s₀ e) → ∀ e ∈ found.1, R.expr P s₀ e)) x y
  | .catches found, x, y => ∀ {pre s₀}, Leaves R m u u pre s₀
    (fun P cs => (∀ c ∈ found, R.clause P s₀ c) → ∀ c ∈ cs, R.clause P s₀ c) x y
  | .parameters found, x, y => ∀ {pre s₀}, Agree R m u (fun _ => true) pre s₀ False (fun _ _ => True)
    (fun _ params t => ∀ base : Scope, base.Extended found.reverse s₀ → base.Extended params t) x y

/-- Phrases follow the rules after a token was used up. -/
def AllRead (m : Nat) (R : TreeRules source) (read read' : PhraseReader) : Prop :=
  ∀ p, Reading R m true p (read p) (read' p)

variable {m : Nat} {u : Bool} {R : TreeRules source} {read read' : PhraseReader} {pre : List PlacedToken → Prop}
  {s₀ : Scope}

theorem assignment?_isPlain {op : Option BinaryOp} (h : assignment? token = some op) : token.isPlain = true := by
  cases token with
  | bad | eof => cases h
  | _ => rfl

theorem operator?_isPlain {entry : Nat × Infix} (h : operator? token = some entry) : token.isPlain = true := by
  cases token with
  | bad | eof => cases h
  | _ => rfl

theorem isPlain_first (h : token.isPlain = true) (ahead : List PlacedToken)
    (hAt : pre ahead ∧ (first ahead).token = token) : (first ahead).token.isPlain = true := hAt.2 ▸ h

theorem expression_reads (h : AllRead m R read read')
    (hFirst : Reading R m false .ternary (read .ternary) (read' .ternary)) :
    Reading R m false .expression (expression read) (expression read') := by
  refine .after hFirst fun target => .step .peek fun token => ?_
  split
  · exact .pure fun _ hTarget => hTarget
  · next op hOp =>
    exact .ite (fun hAssignable => .step (.advanceAt (assignment?_isPlain hOp)) fun _ => .after (h .expression) fun value =>
      .pure fun _ hValue hTarget => R.assign hAssignable hTarget hValue) fun _ => .failThen ..

theorem parenthesized_reads (h : AllRead m R read read') :
    Leaves R m u true pre s₀ (R.expr · s₀) (parenthesized read) (parenthesized read') :=
  .step (.expect rfl) fun _ => .after (h .expression) fun _ => .step (.expect rfl) fun _ => .pure fun _ he => he

theorem ternary_reads (h : AllRead m R read read')
    (hFirst : Reading R m false (.binary 1) (read (.binary 1)) (read' (.binary 1))) :
    Reading R m false .ternary (ternary read) (ternary read') :=
  .after hFirst fun _ => .step (.eat rfl) fun _ => .ite
    (fun _ => .after (h .expression) fun _ => .step (.expect rfl) fun _ => .after (h .ternary) fun _ =>
      .pure fun _ hFalse hTrue hTest => R.conditional hTest hTrue hFalse)
    fun _ => .pure fun _ hTest => hTest

theorem binaryTail_reads (h : AllRead m R read read') (level : Nat) (left : Expr) :
    Reading R m false (.binaryTail level left) (binaryTail read level left) (binaryTail read' level left) := by
  refine .step .peek fun token => ?_
  split
  · exact .pure fun _ hLeft => hLeft
  · next own op hOp =>
    refine .ite (fun _ => .pure fun _ hLeft => hLeft) fun _ => .step (.advanceAt (operator?_isPlain hOp)) fun _ =>
      .weaken ?_
    cases op with
    | instanceOf =>
      exact .after .writtenType fun _ => (h (.binaryTail ..)).gives fun _ _ _ hTail _ hLeft => hTail (R.instanceOf hLeft)
    | or =>
      exact .after (h (.binary _)) fun _ => (h (.binaryTail ..)).gives fun _ _ _ hTail hRight hLeft => hTail (R.or hLeft hRight)
    | and =>
      exact .after (h (.binary _)) fun _ => (h (.binaryTail ..)).gives fun _ _ _ hTail hRight hLeft => hTail (R.and hLeft hRight)
    | arith op =>
      exact .after (h (.binary _)) fun _ => (h (.binaryTail ..)).gives fun _ _ _ hTail hRight hLeft =>
        hTail (R.binary hLeft hRight)
    | compare op =>
      exact .after (h (.binary _)) fun _ => (h (.binaryTail ..)).gives fun _ _ _ hTail hRight hLeft =>
        hTail (R.compare hLeft hRight)

theorem first_after {before : List PlacedToken} (h : (first (before.drop 1)).token = token)
    (hPlain : token.isPlain = true) : (first (Reader.after before)).token = token := by
  subst h
  cases before with
  | nil => cases hPlain
  | cons placed rest =>
    cases rest with
    | nil => cases hPlain
    | cons second rest => rfl

/-- A literal that is read after a minus sign stands directly after it. -/
theorem tokensMeet_of_after {before : List PlacedToken} {next : Token} (hSuffix : before <:+ source)
    (hToken : (first before).token = token) (hNext : (first (Reader.after before)).token = next)
    (hPlain : token.isPlain = true) (hOther : token ≠ next) : TokensMeet source token next := by
  cases before with
  | nil =>
    subst hToken
    cases hPlain
  | cons placed rest =>
    cases rest with
    | nil => exact absurd (hToken.symm.trans hNext) hOther
    | cons second rest =>
      cases hToken
      cases hNext
      exact ⟨_, _, _, hSuffix⟩

/-- What follows a minus sign. -/
theorem negated_reads (h : AllRead m R read read') (hMinus : ∀ ahead, pre ahead → ∃ before, before <:+ source ∧
      (first before).token = .symbol .minus ∧ Reader.after before = ahead) :
    Leaves R m true true pre s₀ (R.expr · s₀) (negated read) (negated read') := by
  refine .step .peek fun token => ?_
  split
  · next value =>
    refine .ofPre (c := TokensMeet source (.symbol .minus) (.int value)) (fun ahead _ hAt => ?_) fun hMeet =>
      .step (.advanceAt rfl) fun _ => .pure fun _ => R.negated hMeet
    obtain ⟨before, hSuffix, hToken, rfl⟩ := hMinus ahead hAt.1
    exact tokensMeet_of_after hSuffix hToken hAt.2 rfl nofun
  · exact .step (.advanceAt rfl) fun _ => .pure fun _ => R.leaf rfl
  · exact .step (.advanceAt rfl) fun _ => .pure fun _ => R.leaf rfl
  · exact .step (.advanceAt rfl) fun _ => .pure fun _ => R.leaf rfl
  · exact .after (h .unary) fun _ => .pure fun _ he => R.unary he

theorem unary_reads (h : AllRead m R read read')
    (hFirst : Reading R m false .primary (read .primary) (read' .primary)) :
    Reading R m false .unary (unary read) (unary read') := by
  intro _ s₀
  have hStep {pre : List PlacedToken → Prop} (hPlain : ∀ ahead, pre ahead → (first ahead).token.isPlain = true)
      (increment : Bool) :
      Leaves R m false true pre s₀ (R.expr · s₀) (unary.step read increment) (unary.step read' increment) :=
    .step (.advance hPlain) fun _ => .after (h .unary) fun _ => .ite
      (fun hAssignable => .pure fun _ hTarget => R.incDec hAssignable hTarget) fun _ => .failThen ..
  have hOther {pre : List PlacedToken → Prop} : Leaves R m false true pre s₀ (R.expr · s₀)
      (do read (.postfixTail (← read .primary))) (do read' (.postfixTail (← read' .primary))) :=
    .after hFirst fun _ => h (.postfixTail _)
  refine .step .peek fun token => ?_
  split
  · exact .step (.advanceAt rfl) fun _ => negated_reads h fun _ ⟨before, hSuffix, hAt, hAfter⟩ =>
      ⟨before, hSuffix, hAt.2, hAfter⟩
  · exact .step (.advanceAt rfl) fun _ => .after (h .unary) fun _ => .pure fun _ he => R.unary he
  · exact .step (.advanceAt rfl) fun _ => .after (h .unary) fun _ => .pure fun _ he => R.unary he
  · exact .step (.advanceAt rfl) fun _ => .after (h .unary) fun _ => .pure fun _ he => R.not he
  · exact hStep (isPlain_first rfl) true
  · exact hStep (isPlain_first rfl) false
  · exact .step .get fun _ => .ite
      (fun _ => .step (.advance fun _ hAt => hAt.1.2 ▸ rfl) fun _ => .after .writtenType fun _ =>
        .step (.expect rfl) fun _ => .after (h .unary) fun _ => .pure fun _ he _ => R.cast he)
      fun _ => hOther
  · exact hOther

theorem namedType_reads (e : Expr) :
    Leaves R m u u pre s₀ (fun _ type => type.isWritten = true) (namedType e) (namedType e) := by
  unfold namedType
  split
  · exact .pure fun _ => rfl
  · exact .fail _

theorem postfixTail_reads (h : AllRead m R read read') (operand : Expr) :
    Reading R m false (.postfixTail operand) (postfixTail read operand) (postfixTail read' operand) := by
  intro _ s₀
  have hStep {pre : List PlacedToken → Prop} (hPlain : ∀ ahead, pre ahead → (first ahead).token.isPlain = true)
      (increment : Bool) : Leaves R m false true pre s₀ (fun P e => R.expr P s₀ operand → R.expr P s₀ e)
        (postfixTail.step read operand increment) (postfixTail.step read' operand increment) :=
    .ite (fun hAssignable => .step (.advance hPlain) fun _ => (h (.postfixTail _)).gives fun _ _ _ hTail hOperand =>
      hTail (R.incDec hAssignable hOperand)) fun _ => .failThen ..
  refine .step .peek fun token => ?_
  split
  · refine .weaken (.step (.advanceAt rfl) fun _ => .eatThen rfl ?_ ?_)
    · exact .after (namedType_reads _) fun _ => (h (.postfixTail _)).gives fun _ _ _ hTail hType _ =>
        hTail (R.classLit hType)
    · exact .after .expectIdent fun name => .step (.isAt _) fun _ => .ite
        (fun _ => .after (h .arguments) fun _ => (h (.postfixTail _)).gives fun _ _ _ hTail hArgs hName hOperand =>
          hTail (R.callOn hName hOperand hArgs))
        fun _ => (h (.postfixTail _)).gives fun _ _ _ hTail _ hOperand => hTail (R.field hOperand)
  · refine .weaken (.step (.peekAt _) fun _ => .ite (fun _ => ?_) fun _ =>
      .step (.advance fun _ hAt => hAt.1.2 ▸ rfl) fun _ => ?_)
    · exact .after (namedType_reads _) fun _ => .after (.bracketsAfter _) fun _ => .step (.expect rfl) fun _ =>
        .step (.expect rfl) fun _ => (h (.postfixTail _)).gives fun _ _ _ hTail hType hNamed _ =>
          hTail (R.classLit (hType hNamed))
    · exact .after (h .expression) fun _ => .step (.expect rfl) fun _ => (h (.postfixTail _)).gives
        fun _ _ _ hTail hPosition hOperand => hTail (R.index hOperand hPosition)
  · exact .weaken (hStep (isPlain_first rfl) true)
  · exact .weaken (hStep (isPlain_first rfl) false)
  · exact .pure fun _ hOperand => hOperand

theorem creation_reads (h : AllRead m R read read') :
    Leaves R m true true pre s₀ (R.expr · s₀) (creation read) (creation read') := by
  refine .after .writtenType fun type => ?_
  split
  · next element dims _ =>
    exact .step (.expect rfl) fun _ => .after (h (.arrayItems [])) fun _ => .pure fun _ hItems _ =>
      R.arrayOf (Nat.le_add_left 1 dims) (hItems nofun)
  · refine .step (.isAt _) fun _ => .ite (fun _ => ?_) fun _ => .step (.isAt _) fun _ => .ite (fun hBracket => ?_)
      fun _ => .failThen ..
    · split
      · exact .after (h .arguments) fun _ => .pure fun _ hArgs _ => R.new hArgs
      · exact .fail _
    · -- The type took all the empty brackets, so that there is a length.
      refine .after (h (.lengths []) fun _ hAt (_ : True) => .inr (hAt.1.1 (beq_iff_eq.1 (hAt.2.trans hBracket)))) fun _ => ?_
      exact .step .brackets fun _ => .pureAt (fun _ _ => trivial) fun _ hLengths _ =>
        R.newArray ((hLengths nofun).1 trivial) (hLengths nofun).2

theorem selfReference_reads (h : AllRead m R read read') {reference : Expr}
    (hReference : reference = .thisRef ∨ reference = .superRef)
    (hPlain : ∀ ahead, pre ahead → (first ahead).token.isPlain = true) :
    Leaves R m u true pre s₀ (R.expr · s₀) (selfReference read reference) (selfReference read' reference) := by
  have hLeaf : reference.isLeaf = true := by rcases hReference with rfl | rfl <;> rfl
  exact .step (.advance hPlain) fun _ => .step (.isAt _) fun _ => .ite
    (fun _ => .after (h .arguments) fun _ => .pure fun _ hArgs => R.callConstructor hReference hArgs)
    fun _ => .pure fun _ => R.leaf hLeaf

theorem literal_reads {e : Expr} (he : ∀ P, R.expr P s₀ e)
    (hPlain : ∀ ahead, pre ahead → (first ahead).token.isPlain = true) :
    Leaves R m u true pre s₀ (R.expr · s₀) (literal e) (literal e) :=
  .step (.advance hPlain) fun _ => .pure he

/-- A name that is no call stands for the innermost variable so named, or for itself where there is none. -/
theorem reference_reads (name : String) {x : Reader Expr} (hx : x = do
    match ← lookup name with
    | some v => return .var v
    | none => return .name name) : Leaves R m u u pre s₀ (R.expr · s₀) x x := by
  subst hx
  refine .after (.lookup name) fun found => ?_
  cases found with
  | none => exact .pure fun _ hFound => R.name hFound.2
  | some v => exact .pure fun _ hFound => R.var hFound.1 hFound.2

theorem primary_reads (h : AllRead m R read read') : Reading R m false .primary (primary read) (primary read') := by
  refine .step .peek fun token => ?_
  cases token with
  | int value =>
    refine .ofPre (fun _ hSuffix hAt => Agree.among hSuffix hAt.2 rfl) fun hAmong => ?_
    exact .ite (fun _ => .failThen ..) fun hFits =>
      literal_reads (fun _ => R.int hAmong (Int64.not_lt.1 hFits)) (isPlain_first rfl)
  | char _ => exact literal_reads (fun _ => R.char) (isPlain_first rfl)
  | long _ | float _ | double _ | string _ => exact literal_reads (fun _ => R.leaf rfl) (isPlain_first rfl)
  | keyword k =>
    cases k with
    | trueKw | falseKw | nullKw => exact literal_reads (fun _ => R.leaf rfl) (isPlain_first rfl)
    | thisKw => exact selfReference_reads h (.inl rfl) (isPlain_first rfl)
    | superKw => exact selfReference_reads h (.inr rfl) (isPlain_first rfl)
    | newKw => exact .step (.advanceAt rfl) fun _ => creation_reads h
    | _ => exact .fail _
  | symbol s =>
    cases s with
    | leftParen => exact parenthesized_reads h
    | _ => exact .fail _
  | ident name =>
    refine .ofPre (fun _ hSuffix hAt => Agree.among hSuffix hAt.2 rfl) fun hAmong => ?_
    exact .step (.advanceAt rfl) fun _ => .step (.isAt _) fun _ => .ite
      (fun _ => .after (h .arguments) fun _ => .pure fun _ hArgs => R.call hAmong hArgs) fun _ => reference_reads name rfl
  | primitive _ =>
    exact .after .writtenType fun _ => .step (.expect rfl) fun _ => .step (.expect rfl) fun _ =>
      .pure fun _ hType => R.classLit hType
  | _ => exact .fail _

/-! Lists of expressions. -/

theorem forall_mem_reverse {α : Type} {p : α → Prop} {as : List α} (h : ∀ a ∈ as, p a) : ∀ a ∈ as.reverse, p a :=
  fun a ha => h a (List.mem_reverse.1 ha)

theorem expressions_reads (h : AllRead m R read read')
    (hFirst : Reading R m false .expression (read .expression) (read' .expression)) (found : List Expr) :
    Reading R m false (.expressions found) (expressions read found) (expressions read' found) :=
  .after hFirst fun _ => .step (.eat rfl) fun _ => .ite
    (fun _ => (h (.expressions _)).gives fun _ _ _ hMore he hFound => hMore (List.forall_mem_cons.2 ⟨he, hFound⟩))
    fun _ => .pure fun _ he hFound => forall_mem_reverse (List.forall_mem_cons.2 ⟨he, hFound⟩)

theorem arguments_reads (h : AllRead m R read read') : Reading R m false .arguments (arguments read) (arguments read') :=
  .step (.expect rfl) fun _ => .step (.isAt _) fun _ => .join (.pure fun _ => List.forall_mem_nil _)
    ((h (.expressions [])).gives fun _ _ _ hArgs => hArgs nofun) fun _ => .step (.expect rfl) fun _ =>
      .pure fun _ hArgs => hArgs

theorem lengths_reads (h : AllRead m R read read') (found : List Expr) :
    Reading R m false (.lengths found) (lengths read found) (lengths read' found) := by
  intro pre s₀ c hSome
  refine .step (.isAt _) fun atBracket => .step (.peekAt _) fun second => .ite (fun hMore => ?_) fun hNone => ?_
  · rw [Bool.and_eq_true] at hMore
    refine .weaken (.step (.advance fun _ hAt => ?_) fun _ => .after (h .expression) fun _ =>
      .step (.expect rfl) fun _ => ?_)
    · rw [beq_iff_eq.1 (hAt.1.2.trans hMore.1)]
      rfl
    · exact (h (.lengths _) fun _ _ _ => .inl (List.cons_ne_nil _ _)).gives fun _ _ _ hAll he hFound =>
        hAll (List.forall_mem_cons.2 ⟨he, hFound⟩)
  · refine .ofPre (c := c → found ≠ []) (fun ahead _ ⟨⟨hAt, hFirst⟩, hSecond⟩ hc => ?_) fun hFound => .pure fun _ hAll =>
      ⟨by simpa using hFound, forall_mem_reverse hAll⟩
    refine (hSome ahead hAt hc).resolve_right fun hLength => hNone ?_
    rw [← hFirst, ← hSecond, hLength.1]
    simpa using hLength.2

theorem initializer_reads (h : AllRead m R read read')
    (hFirst : Reading R m false .expression (read .expression) (read' .expression)) :
    Reading R m false .initializer (initializer read) (initializer read') :=
  .eatThen rfl (.after (h (.arrayItems [])) fun _ => .pure fun _ hItems => R.items (hItems nofun))
    (hFirst.gives fun _ _ _ he => R.value he)

theorem arrayItems_reads (h : AllRead m R read read')
    (hFirst : Reading R m false .initializer (read .initializer) (read' .initializer)) (found : List Expr) :
    Reading R m false (.arrayItems found) (arrayItems read found) (arrayItems read' found) :=
  .eatThen rfl (.pure fun _ hFound => forall_mem_reverse hFound) (.after hFirst fun _ => .eatThen rfl
    ((h (.arrayItems _)).gives fun _ _ _ hMore he hFound => hMore (List.forall_mem_cons.2 ⟨he, hFound⟩))
    (.step (.expect rfl) fun _ => .pure fun _ he hFound => forall_mem_reverse (List.forall_mem_cons.2 ⟨he, hFound⟩)))

/-! Statements. -/

theorem statements_reads (h : AllRead m R read read')
    (hFirst : Reading R m false .statement (read .statement) (read' .statement)) (stop : StatementsEnd)
    (found : List Stmt) :
    Reading R m false (.statements stop found) (statements read stop found) (statements read' stop found) := by
  refine .step .peek fun _ => .ite (fun hEnd => .pureAt (fun _ hAt => hAt.2 ▸ hEnd) fun _ _ hFound => hFound) fun _ =>
    .weaken <| .bind hFirst fun st t => (h (.statements ..)).gives fun _ _ _ hMore hStmt base hFound => hMore base ?_
  rw [List.reverse_cons]
  exact hFound.snoc hStmt

theorem block_reads (h : AllRead m R read read') : Reading R m false .block (block read) (block read') :=
  .step (.expect rfl) fun _ => .inScope (.bind (h (.statements ..)) fun _ _ => .step (.expect rfl) fun _ =>
    .pure fun _ hBody => hBody _ .nil)

theorem absent {M : (Variable → Prop) → Expr → Prop} :
    Leaves R m u u pre s₀ (fun P found => ∀ e ∈ found, M P e) (pure none : Reader (Option Expr)) (pure none) :=
  .pure fun _ => nofun

theorem declarators_reads (h : AllRead m R read read') (type : WrittenType) (found : List VariableDecl) :
    Reading R m false (.declarators type found) (declarators read type found) (declarators read' type found) := by
  refine .after .expectIdent fun name => .after (.bracketsAfter _) fun _ => .declaring _ _ fun v hNew =>
    .step (.eat rfl) fun _ => .join (.present (h .initializer)) absent fun init => .eatThen rfl
      ((h (.declarators ..)).gives fun _ _ _ hMore hInit hv _ _ base hFound => hMore base ?_)
      (.pure fun _ hInit hv _ _ base hFound => ?_)
  all_goals
    rw [List.reverse_cons]
    exact hFound.snoc ⟨hNew, hv, rfl, hInit⟩

theorem declaration_reads (h : AllRead m R read read') :
    Agree R m u (fun _ => true) pre s₀ False (fun _ _ => True) (R.stmt · s₀) (declaration read) (declaration read') :=
  .after .writtenType fun _ => .bind (h (.declarators ..)) fun _ _ => .pure fun _ hDecls _ => R.decl (hDecls _ .nil)

theorem declarationStatement_reads (h : AllRead m R read read') :
    Agree R m u (fun _ => true) pre s₀ False (fun _ _ => True) (R.stmt · s₀) (declarationStatement read)
      (declarationStatement read') :=
  .bind (declaration_reads h) fun _ _ => .step (.expect rfl) fun _ => .pure fun _ hDecl => hDecl

section Statements

/-- A statement from after its first word on. -/
abbrev Statement (R : TreeRules source) (m : Nat) (s₀ : Scope) (still : Prop) (x y : Reader Stmt) : Prop :=
  ∀ {pre}, Agree R m true (fun _ => true) pre s₀ still (fun _ _ => True) (R.stmt · s₀) x y

variable {still : Prop}

theorem ifStatement_reads (h : AllRead m R read read') :
    Statement R m s₀ still (ifStatement read) (ifStatement read') :=
  .after (parenthesized_reads h) fun _ => .after (h .branch) fun _ => .step (.eat rfl) fun _ => .ite
    (fun _ => .after (h .branch) fun _ => .pure fun _ hElse hBody hTest => R.ifElse hTest hBody hElse)
    fun _ => .pure fun _ hBody hTest => R.ifThen hTest hBody

theorem whileStatement_reads (h : AllRead m R read read') :
    Statement R m s₀ still (whileStatement read) (whileStatement read') :=
  .after (parenthesized_reads h) fun _ => .after (h .branch) fun _ => .pure fun _ hBody hTest => R.whileLoop hTest hBody

theorem doStatement_reads (h : AllRead m R read read') :
    Statement R m s₀ still (doStatement read) (doStatement read') :=
  .after (h .branch) fun _ => .step (.expect rfl) fun _ => .after (parenthesized_reads h) fun _ =>
    .step (.expect rfl) fun _ => .pure fun _ hTest hBody => R.doLoop hBody hTest

theorem forDeclares_reads : Steps R m u u pre s₀ (fun _ _ => True) forDeclares := by
  refine .step .peek fun _ => ?_
  split
  · exact .pure fun _ => trivial
  · exact .pure fun _ => trivial
  · exact .step .get fun _ => .pure fun _ => trivial

theorem chain_exprs {P : Variable → Prop} {es : List Expr} (h : ∀ e ∈ es, R.expr P s₀ e) :
    s₀.Chain (R.stmt P) (es.map .expr) s₀ := by
  induction es with
  | nil => exact .nil
  | cons e es ih =>
    obtain ⟨he, hRest⟩ := List.forall_mem_cons.1 h
    exact .cons (R.exprStmt he) (ih hRest)

theorem forInit_reads (h : AllRead m R read read') :
    Agree R m true (fun _ => true) pre s₀ False (fun _ _ => True) (fun P init t => s₀.Chain (R.stmt P) init t)
      (forInit read) (forInit read') :=
  .step (.isAt _) fun _ => .ite (fun _ => .pure fun _ => .nil) fun _ => .step forDeclares_reads fun _ => .ite
    (fun _ => .step .modifiers fun _ => .bind (declaration_reads h) fun _ _ => .pure fun _ hDecl => .cons hDecl .nil)
    fun _ => .after (h (.expressions [])) fun _ => .pure fun _ hExprs => chain_exprs (hExprs nofun)

theorem forStatement_reads (h : AllRead m R read read') :
    Statement R m s₀ still (forStatement read) (forStatement read') :=
  .step (.expect rfl) fun _ => .enclosed <| .bind (forInit_reads h) fun _ _ => .step (.expect rfl) fun _ =>
    .step (.isAt _) fun _ => .join absent (.present (h .expression)) fun _ => .step (.expect rfl) fun _ =>
      .step (.isAt _) fun _ => .join (.pure fun _ => List.forall_mem_nil _)
        ((h (.expressions [])).gives fun _ _ _ hAll => hAll nofun) fun _ => .step (.expect rfl) fun _ =>
          .after (h .branch) fun _ => .pure fun _ hBody hUpdate hTest hInit => R.forLoop hInit hTest hUpdate hBody

/-- Labels use up tokens unless none was found. -/
theorem caseLabels_reads (h : AllRead m R read read') (seen : Bool) (labels : List Expr) (isDefault : Bool) :
    Reading R m false (.caseLabels seen labels isDefault) (caseLabels read seen labels isDefault)
      (caseLabels read' seen labels isDefault) := by
  refine .eatThen rfl (.weaken ?_) (.eatThen rfl (.weaken ?_) ?_)
  · exact .after (h .ternary) fun _ => .step (.expect rfl) fun _ => (h (.caseLabels ..)).gives
      fun _ _ _ hAll hLabel => ⟨hAll.1, fun hLabels => hAll.2 (List.forall_mem_cons.2 ⟨hLabel, hLabels⟩)⟩
  · refine .ite (fun _ => .failThen ..) fun hFirst => .step (.expect rfl) fun _ => (h (.caseLabels ..)).gives
      fun _ _ _ hAll => ⟨fun _ => .inr ?_, hAll.2⟩
    simp only [Bool.or_eq_true, not_or, Bool.not_eq_true] at hFirst
    exact hFirst.1
  · exact .pureAs (fun _ _ => trivial) (fun _ => ⟨.inl, forall_mem_reverse⟩) (by simp [unlabeled])

theorem switchCases_reads (h : AllRead m R read read') (found : List SwitchCase) (hFirst : ∀ seen,
      Reading R m false (.caseLabels seen [] false) (read (.caseLabels seen [] false)) (read' (.caseLabels seen [] false))) :
    Reading R m false (.switchCases found) (switchCases read found) (switchCases read' found) := by
  refine .step .peek fun _ => .ite (fun _ => .pure fun _ hOne => ⟨by rwa [List.countP_reverse], fun _ h => h⟩) fun _ => ?_
  refine .after (hFirst _) fun ⟨labels, isDefault⟩ => .ite (fun _ => .failThen ..) fun hLed => ?_
  have hUsed : (false || unlabeled ([], false) && !unlabeled (labels, isDefault)) = true := by
    simpa [unlabeled, Classical.or_iff_not_imp_left] using hLed
  rw [hUsed]
  refine .weaken <| .bind (h (.statements ..)) fun body t => (h (.switchCases _)).gives
    fun P cases _ hMore hBody ⟨hDefault, hLabels⟩ hOne => ?_
  have hCount : (SwitchCase.mk labels isDefault body :: found).countP SwitchCase.isDefault ≤ 1 := by
    rw [List.countP_cons]
    cases isDefault with
    | false => simpa [SwitchCase.isDefault] using hOne
    | true =>
      have hNone : found.any SwitchCase.isDefault = false := by simpa using hDefault
      have hZero : found.countP SwitchCase.isDefault = 0 := by simpa using hNone
      simp [hZero, SwitchCase.isDefault]
  refine ⟨(hMore hCount).1, fun base hFound => (hMore hCount).2 base ?_⟩
  rw [List.reverse_cons]
  refine hFound.snoc ⟨?_, hLabels nofun, hBody _ .nil⟩
  simpa [SwitchCase.labels, SwitchCase.isDefault, Classical.or_iff_not_imp_left] using hLed

theorem switchStatement_reads (h : AllRead m R read read') :
    Statement R m s₀ still (switchStatement read) (switchStatement read') :=
  .after (parenthesized_reads h) fun _ => .step (.expect rfl) fun _ => (.enclosed (.bind (h (.switchCases []))
    fun _ _ => .step (.expect rfl) fun _ => .pure fun _ hCases hSelector =>
      have ⟨hOne, hAll⟩ := hCases (Nat.zero_le _)
      R.switch hSelector (hAll _ .nil) hOne))

theorem catches_reads (h : AllRead m R read read') (found : List CatchClause) :
    Reading R m false (.catches found) (catches read found) (catches read' found) := by
  intro _ s₀
  refine .eatThen rfl (.weaken ?_) (.pure fun _ => forall_mem_reverse)
  refine .step (.expect rfl) fun _ => .after (.enclosed ?_ : Leaves R m true true _ s₀ (R.clause · s₀) _ _) fun _ =>
    (h (.catches _)).gives fun _ _ _ hMore hOne hFound => hMore (List.forall_mem_cons.2 ⟨hOne, hFound⟩)
  refine .step .modifiers fun _ => .after .writtenType fun type => .step (.isAt _) fun _ => .ite (fun hPipe => ?_)
    fun _ => .after .expectIdent fun _ => .declaring _ _ fun param _ => .step (.expect rfl) fun _ =>
      .after (h .block) fun _ => .pure fun _ hBody hParam _ _ => ⟨hParam, hBody⟩
  refine .throwThen (fun ahead hAt fault hBad => ?_) _ _
  cases (beq_iff_eq.1 (hAt.2.trans hPipe)).symm.trans hBad

theorem tryStatement_reads (h : AllRead m R read read') :
    Statement R m s₀ still (tryStatement read) (tryStatement read') := by
  refine .after (h .block) fun _ => .after (h (.catches [])) fun clauses => .step (.eat rfl) fun _ => .ite
    (fun _ => .after (h .block) fun _ => .pure fun _ hLast hCatches hBody => R.tryFinally hBody (hCatches nofun) hLast)
    fun _ => .ite (fun _ => .failThen ..) fun hSome => .pure fun _ hCatches hBody =>
      R.tryCatch hBody ?_ (hCatches nofun)
  simpa using hSome

theorem synchronizedStatement_reads (h : AllRead m R read read') :
    Statement R m s₀ still (synchronizedStatement read) (synchronizedStatement read') :=
  .after (parenthesized_reads h) fun _ => .after (h .block) fun _ => .pure fun _ hBody hLock => R.synchronized hLock hBody

theorem returnStatement_reads (h : AllRead m R read read') :
    Statement R m s₀ still (returnStatement read) (returnStatement read') :=
  .step (.isAt _) fun _ => .join absent (.present (h .expression)) fun _ => .step (.expect rfl) fun _ =>
    .pure fun _ => R.ret

theorem throwStatement_reads (h : AllRead m R read read') :
    Statement R m s₀ still (throwStatement read) (throwStatement read') :=
  .after (h .expression) fun _ => .step (.expect rfl) fun _ => .pure fun _ => R.raise

theorem jumpLabel_reads : Steps R m true true pre s₀ (fun _ _ => True) jumpLabel := by
  have hEnd {pre : List PlacedToken → Prop} (label : Option String) :
      Steps R m true true pre s₀ (fun _ _ => True) (do expectSymbol .semicolon; return label) :=
    .step (.expect rfl) fun _ => .pure fun _ => trivial
  refine .step .peek fun _ => ?_
  split
  · exact .after (.present ((Agree.expectIdent).mono (fun _ h => h) (fun _ _ _ => trivial) fun _ _ _ h => h))
      fun _ => (hEnd _).gives fun _ _ _ h _ => h
  · exact hEnd none

theorem expressionStatement_reads
    (hFirst : Reading R m u .expression (read .expression) (read' .expression)) :
    Agree R m u (fun _ => true) pre s₀ still (fun _ _ => True) (R.stmt · s₀) (expressionStatement read)
      (expressionStatement read') :=
  .after hFirst fun _ => .step (.expect rfl) fun _ => .pure fun _ => R.exprStmt

end Statements

/-- Whether a statement that begins with some tokens is a declaration. -/
def startsWithDeclaration (ahead : List PlacedToken) : Bool :=
  match (first ahead).token with
  | .modifier _ => true
  | .ident _ => (first (ahead.drop 1)).token != .symbol .colon && startsDeclaration ahead
  | .primitive _ => (first (ahead.drop 1)).token != .symbol .dot
  | _ => false

theorem nameStatement_reads (h : AllRead m R read read')
    (hFirst : Reading R m false .expression (read .expression) (read' .expression)) {name : String}
    (hName : ∀ ahead, pre ahead → (first ahead).token = .ident name)
    (hPre : ∀ ahead, pre ahead → still → startsWithDeclaration ahead = false) :
    Agree R m false (fun _ => true) pre s₀ still (fun _ _ => True) (R.stmt · s₀) (nameStatement read)
      (nameStatement read') := by
  refine .step (.peekAt 1) fun second => .ite (fun hColon => ?_) fun hOther => .step .get fun s => .ite (fun hDeclares =>
    .ofNot (fun ahead hAt hStill => ?_) (declarationStatement_reads h)) fun _ => expressionStatement_reads hFirst
  · refine .after .expectIdent fun _ => .step (.advance fun ahead hAt => ?_) fun _ => .after (h .branch) fun _ =>
      .pure fun _ hBody _ => R.labeled hBody
    obtain ⟨before, -, hAt, rfl⟩ := hAt
    rw [first_after (hAt.2.trans hColon) rfl]
    rfl
  · obtain ⟨⟨hAt, rfl⟩, rfl⟩ := hAt
    simpa [startsWithDeclaration, hName _ hAt, hOther, hDeclares, -List.drop_one] using hPre _ hAt hStill

/-- A statement that is no declaration declares nothing in the scope that it stands in. -/
theorem statement_reads (h : AllRead m R read read')
    (hBlock : Reading R m false .block (read .block) (read' .block))
    (hFirst : Reading R m false .expression (read .expression) (read' .expression))
    (hPre : ∀ ahead, pre ahead → still → startsWithDeclaration ahead = false) :
    Agree R m false (fun _ => true) pre s₀ still (fun _ _ => True) (R.stmt · s₀) (statement read)
      (statement read') := by
  refine .step .peek fun token => ?_
  split
  · exact .after hBlock fun _ => .pure fun _ => R.block
  · exact .step (.advanceAt rfl) fun _ => .pure fun _ => R.leafStmt rfl
  · exact .step (.advanceAt rfl) fun _ => ifStatement_reads h
  · exact .step (.advanceAt rfl) fun _ => whileStatement_reads h
  · exact .step (.advanceAt rfl) fun _ => doStatement_reads h
  · exact .step (.advanceAt rfl) fun _ => forStatement_reads h
  · exact .step (.advanceAt rfl) fun _ => switchStatement_reads h
  · exact .step (.advanceAt rfl) fun _ => synchronizedStatement_reads h
  · exact .step (.advanceAt rfl) fun _ => tryStatement_reads h
  · exact .step (.advanceAt rfl) fun _ => returnStatement_reads h
  · exact .step (.advanceAt rfl) fun _ => throwStatement_reads h
  · exact .step (.advanceAt rfl) fun _ => .step jumpLabel_reads fun _ => .pure fun _ => R.leafStmt rfl
  · exact .step (.advanceAt rfl) fun _ => .step jumpLabel_reads fun _ => .pure fun _ => R.leafStmt rfl
  · refine .ofNot (fun ahead hAt hStill => ?_) (.step .modifiers fun _ => declarationStatement_reads h)
    simpa [startsWithDeclaration, hAt.2] using hPre ahead hAt.1 hStill
  · exact nameStatement_reads h hFirst (fun _ hAt => hAt.2) fun ahead hAt => hPre ahead hAt.1
  · refine .step (.peekAt 1) fun second => .ite (fun _ => expressionStatement_reads hFirst) fun hOther =>
      .ofNot (fun ahead hAt hStill => ?_) (declarationStatement_reads h)
    obtain ⟨⟨hAt, hFirst⟩, rfl⟩ := hAt
    simpa [startsWithDeclaration, hFirst, hOther, -List.drop_one] using hPre _ hAt hStill
  · exact expressionStatement_reads hFirst

theorem parameters_reads (h : AllRead m R read read') (found : List Variable) :
    Reading R m false (.parameters found) (parameters read found) (parameters read' found) := by
  refine .step .modifiers fun _ => .after .writtenType fun type => .after .expectIdent fun name =>
    .after (.bracketsAfter _) fun _ => .declaring _ _ fun v hNew => .step (.eat rfl) fun _ => .ite
      (fun _ => (h (.parameters _)).gives fun _ _ _ hMore _ _ _ _ base hFound => hMore base ?_)
      fun _ => .pure fun _ _ _ _ _ base hFound => ?_
  all_goals
    rw [List.reverse_cons]
    exact hFound.trans (.declare hNew (.refl _))

/-- How many productions may be entered below a phrase without a token in between. -/
def rank : Phrase → Nat
  | .unary | .switchCases _ => 1
  | .binary _ => 2
  | .ternary => 3
  | .expression => 4
  | .expressions _ | .initializer | .statement => 5
  | .arrayItems _ | .branch | .statements .. => 6
  | _ => 0

theorem rank_le (p : Phrase) : rank p ≤ 6 := by
  unfold rank
  split <;> omega

/-- A production follows the rules if its parts do, those that it begins with before a token was used up. -/
theorem production_reads (h : AllRead m R read read') (p : Phrase)
    (hFirst : ∀ q, rank q < rank p → Reading R m false q (read q) (read' q)) :
    Reading R m false p (production read p) (production read' p) := by
  cases p with
  | expression => exact expression_reads h (hFirst .ternary (by decide))
  | ternary => exact ternary_reads h (hFirst (.binary 1) (Nat.lt_succ_self 2))
  | binary => exact .after (hFirst .unary (Nat.lt_succ_self 1)) fun _ => h (.binaryTail ..)
  | binaryTail => exact binaryTail_reads h ..
  | unary => exact unary_reads h (hFirst .primary (by decide))
  | postfixTail => exact postfixTail_reads h _
  | primary => exact primary_reads h
  | arguments => exact arguments_reads h
  | expressions => exact expressions_reads h (hFirst .expression (Nat.lt_succ_self 4)) _
  | lengths => exact lengths_reads h _
  | initializer => exact initializer_reads h (hFirst .expression (by decide))
  | arrayItems => exact arrayItems_reads h (hFirst .initializer (Nat.lt_succ_self 5)) _
  | statement =>
    exact statement_reads h (hFirst .block (by decide)) (hFirst .expression (by decide)) fun _ _ => False.elim
  | branch => exact .inScope (hFirst .statement (by decide))
  | block => exact block_reads h
  | statements => exact statements_reads h (hFirst .statement (Nat.lt_succ_self 5)) ..
  | declarators => exact declarators_reads h ..
  | switchCases => exact switchCases_reads h _ fun _ => hFirst (.caseLabels ..) Nat.zero_lt_one
  | caseLabels => exact caseLabels_reads h ..
  | catches => exact catches_reads h _
  | parameters => exact parameters_reads h _

/-- The productions unfolded so many times, with a reader at the bottom. -/
def unfolded (bottom : PhraseReader) : Nat → PhraseReader
  | 0 => bottom
  | n + 1 => production (unfolded bottom n)

theorem Reading.later {p : Phrase} {x y : Reader p.Tree} (h : Reading R (m - 1) false p x y) : Reading R m true p x y := by
  cases p with
  | lengths => exact fun hSome => Agree.later (h hSome)
  | _ => exact Agree.later h

/-- A token weighs more than the ranks of all phrases. What stands at the bottom does not matter to phrases that weigh
less than the productions unfolded. -/
theorem phrase_reads (bottom : PhraseReader) {n m : Nat} {p : Phrase} (hm : 16 * m + rank p < n + 16) :
    Reading R m false p (phrase n p) (unfolded bottom n p) := by
  induction n generalizing m p with
  | zero =>
    obtain rfl : m = 0 := by omega
    cases p <;> (repeat intro _) <;> exact .unread (u := false) (v := fun _ => false) (.fail _)
  | succ n ih =>
    refine production_reads (fun q => (ih ?_).later) p fun q hq => ih ?_
    · have := rank_le q
      omega
    · omega

/-- Phrases are read whatever the number of tokens. -/
theorem entered (fuel : Nat) (p : Phrase) : Reading R 0 false p (phrase fuel p) (unfolded Grammar.read fuel p) := by
  refine phrase_reads _ ?_
  have := rank_le p
  omega

/-- Enough fuel does not depend on what is read. -/
theorem read_reads {p : Phrase} {v : p.Tree → Bool} {y : Nat → Reader p.Tree} {post : p.Tree → List PlacedToken → Prop}
    {Q : (Variable → Prop) → p.Tree → Scope → Prop}
    (h : ∀ fuel, Agree R 0 false v pre s₀ still post Q (phrase fuel p) (y fuel)) :
    Reads R pre s₀ still post Q (Grammar.read p) where
  ok s := (h _).ok s
  error s := (h _).error s
  alike _ _ _ h := absurd h (Nat.not_lt_zero _)

end Grammar

/-! Whole texts. -/

open Reader Grammar

variable {source : List PlacedToken} {R : TreeRules source} {m : Nat} {pre : List PlacedToken → Prop} {s₀ : Scope}

/-- An expression is read up to the end of input. -/
theorem readExpression_reads :
    Reads R pre s₀ True (fun _ ahead => (first ahead).token = .eof) (fun P e _ => R.expr P s₀ e) readExpression :=
  .after (read_reads (entered · .expression)) fun _ => .step .expectEnd fun _ =>
    .pureAt (fun _ hEnd => hEnd) fun _ he => he

/-- Statements are read up to the end of input. -/
theorem readStatements_reads : Reads R pre s₀ False (fun _ ahead => (first ahead).token = .eof)
    (fun P body t => s₀.Chain (R.stmt P) body t) readStatements := by
  refine (read_reads (p := .statements .input []) (entered · (.statements ..))).mono (fun _ h => h)
    (fun _ ahead hEnd => ?_) fun _ _ _ hBody => hBody _ .nil
  generalize (first ahead).token = token at hEnd
  unfold StatementsEnd.includes at hEnd
  split at hEnd
  · rfl
  all_goals contradiction

theorem readThrows_succ {n n' : Nat} (h : ∀ {pre}, Agree R (m - 1 - 1) false (fun _ => false) pre s₀ True
      (fun _ _ => True) (fun _ _ _ => True) (readThrows n) (readThrows n')) :
    Agree R m false (fun _ => false) pre s₀ True (fun _ _ => True) (fun _ _ _ => True) (readThrows (n + 1))
      (readThrows (n' + 1)) :=
  .weaken (.after .writtenType fun _ => .later (v := fun _ => false) (.eatThen rfl
    (.weaken (.step (.later h) fun _ => .pure fun _ _ => trivial)) (.pure fun _ _ => trivial)))

/-- Exceptions that a method declares are no more than its tokens. -/
theorem readThrows_reads {n n' : Nat} (hn : m ≤ n) (hn' : m ≤ n') : Agree R m false (fun _ => false) pre s₀ True
    (fun _ _ => True) (fun _ _ _ => True) (readThrows n) (readThrows n') := by
  induction n generalizing m n' pre with
  | zero =>
    obtain rfl := Nat.le_zero.1 hn
    exact .unread (u := false) (v := fun _ => false) (.pure fun _ => trivial)
  | succ n ih =>
    cases n' with
    | zero =>
      obtain rfl := Nat.le_zero.1 hn'
      exact .unread (readThrows_succ (ih (Nat.zero_le _) (Nat.zero_le n)))
    | succ n' => exact readThrows_succ (ih (by omega) (by omega))

theorem readMethod_reads (flags : AccessFlags) (result : WrittenType) (name : String) :
    Reads R pre s₀ True (fun _ _ => True) (fun P decl _ => R.member P s₀ (.method decl)) (readMethod flags result name) := by
  have hThrows {pre : List PlacedToken → Prop} {t : Scope} (params : List Variable) :
      Reads R pre t False (fun _ _ => True)
        (fun P decl _ => s₀.enter.Extended params t → R.member P s₀ (.method decl)) (do
        expectSymbol .rightParen
        let throws ← if ← eatKeyword .throwsKw then readThrows (← get).ahead.length else pure []
        let body ← if ← eatSymbol .semicolon then pure none else some <$> read .block
        return (⟨flags, result, name, params, throws, body⟩ : MethodDecl)) :=
    .step (.expect rfl) fun _ => .step (.eat rfl) fun _ => .join (M := fun _ _ => True)
      (.step .get fun _ => .unread (readThrows_reads (Nat.zero_le _) (Nat.zero_le 0))) (.pure fun _ => trivial) fun _ =>
        .step (.eat rfl) fun _ => .join (.pure fun _ => nofun) (.present (read_reads (entered · .block))) fun _ =>
          .pure fun _ hBody _ hParams => ⟨_, hParams, hBody⟩
  refine .enclosed (.step (.expect rfl) fun _ => .step (.isAt _) fun _ => .ite
    (fun _ => (hThrows []).gives fun _ _ _ h => h (.refl _)) fun _ => ?_)
  exact .bind (read_reads (p := .parameters []) (entered · (.parameters _))) fun _ _ =>
    (hThrows _).gives fun _ _ _ h hParams => h (hParams _ (.refl _))

theorem readField_reads (flags : AccessFlags) (type : WrittenType) (name : String) :
    Reads R pre s₀ True (fun _ _ => True) (fun P decl _ => R.member P s₀ (.field decl)) (readField flags type name) :=
  .after (.bracketsAfter _) fun _ => .step (.eat rfl) fun _ =>
    .join (.present (read_reads (entered · .initializer))) absent fun _ => .step (.expect rfl) fun _ =>
      .pure fun _ hInit _ => hInit

/-- A member is read up to the end of input. -/
theorem readMember_reads :
    Reads R pre s₀ True (fun _ ahead => (first ahead).token = .eof) (fun P m _ => R.member P s₀ m) readMember := by
  have hEnd {pre : List PlacedToken → Prop} (member : Member) : Reads R pre s₀ True
      (fun _ ahead => (first ahead).token = .eof) (fun P m _ => R.member P s₀ member → R.member P s₀ m) (do
        expectEnd
        return member) := .step .expectEnd fun _ => .pureAt (fun _ hEnd => hEnd) fun _ hMember => hMember
  refine .step .modifiers fun flags => .after .writtenType fun type => .step (.isAt _) fun _ => .ite (fun _ => ?_)
    fun _ => .after .expectIdent fun name => .step (.isAt _) fun _ => .join (M := (R.member · s₀))
      (.map (readMethod_reads ..)) (.map (readField_reads ..)) fun _ =>
        (hEnd _).gives fun _ _ _ h hMember _ _ => h hMember
  split
  · exact .after (.map (readMethod_reads ..) : Leaves R 0 true true _ s₀ (R.member · s₀) _ _) fun _ =>
      (hEnd _).gives fun _ _ _ h hMember _ => h hMember
  · exact .failThen ..

/-- What is read from tokens is what the rules of reading tell. -/
theorem Reader.Reads.of_readTokens {α : Type} {tokens : List PlacedToken} {R : TreeRules tokens} {scope : Scope}
    {still : Prop} {post : α → List PlacedToken → Prop} {Q : (Variable → Prop) → α → Scope → Prop} {reader : Reader α}
    (h : Reads R (fun _ => True) scope still post Q reader) {next : Nat} {tree : α}
    (hTree : (readTokens reader tokens scope next).result = .ok tree) (hFits : R.fits (fun _ => True) scope) :
    ∃ t, Q (fun _ => True) tree t := by
  unfold readTokens at hTree
  split at hTree
  · next found s hRun =>
    cases hTree
    obtain ⟨-, vs, -, hQ⟩ := h.ok _ tree s ⟨rfl, List.suffix_refl _, trivial⟩ hRun
    exact ⟨s.scope, hQ _ (fun _ _ => trivial) hFits⟩
  · cases hTree

end JavaFragment
