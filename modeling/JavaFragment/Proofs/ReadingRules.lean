import JavaFragment.Proofs.ReadingMoves
/-!
Rules of reading. A fact of trees that follows from facts of their parts holds of everything that is read: `TreeRules`
says what there is to show of it, one rule for each kind of phrase. Each reader is judged by the tokens that it begins
with and leaves, the moves that it makes and what it builds, and the judgements of its parts give its own.
-/
namespace JavaFragment

/-! Tokens of a text. -/

/-- A token is among those of a text. -/
def TokenAmong (tokens : List PlacedToken) (token : Token) : Prop := ∃ placed ∈ tokens, placed.token = token

/-- One token stands directly before another. -/
def TokensMeet (tokens : List PlacedToken) (token next : Token) : Prop :=
  ∃ p q rest, ⟨token, p⟩ :: ⟨next, q⟩ :: rest <:+ tokens

/-- Whether a type can be written. That of `null` cannot. -/
def WrittenType.isWritten : WrittenType → Bool
  | .null => false
  | .primitive _ | .named _ => true
  | .array element => element.isWritten

theorem WrittenType.isWritten_arrayOf {type : WrittenType} (h : type.isWritten = true) (dims : Nat) :
    (type.arrayOf dims).isWritten = true := by
  induction dims with
  | zero => exact h
  | succ dims ih => exact ih

/-- Literals other than those of `int` and `char`, and references to the object. -/
def Expr.isLeaf : Expr → Bool
  | .long _ | .float _ | .double _ | .string _ | .bool _ | .thisRef | .superRef | .nullRef => true
  | _ => false

/-- Statements without parts. -/
def Stmt.isLeaf : Stmt → Bool
  | .breakTo _ | .continueTo _ | .empty => true
  | _ => false

/-- Things that stand one after another, each in the scope that the one before it leaves. -/
inductive Scope.Chain {α : Type} (step : Scope → α → Scope → Prop) : Scope → List α → Scope → Prop
  | nil {s : Scope} : Chain step s [] s
  | cons {s t u : Scope} {a : α} {rest : List α} (h : step s a t) (hRest : Chain step t rest u) :
      Chain step s (a :: rest) u

namespace Scope.Chain

variable {α : Type} {step : Scope → α → Scope → Prop} {s t u : Scope}

theorem snoc {as : List α} {a : α} (h : Chain step s as t) (ha : step t a u) : Chain step s (as ++ [a]) u := by
  induction h with
  | nil => exact .cons ha .nil
  | cons h _ ih => exact .cons h (ih ha)

theorem forall_mem {p : α → Prop} {as : List α} (h : Chain step s as t) (hStep : ∀ {s a t}, step s a t → p a) :
    ∀ a ∈ as, p a := by
  induction h with
  | nil => exact List.forall_mem_nil _
  | cons h _ ih => exact List.forall_mem_cons.2 ⟨hStep h, ih⟩

end Scope.Chain

/-! Facts of trees. -/

/-- Facts of trees in a scope, and of scopes, given a condition on the variables that are declared. A statement comes
with the scope after it. -/
structure TreeFacts where
  fits : (Variable → Prop) → Scope → Prop
  expr : (Variable → Prop) → Scope → Expr → Prop
  initial : (Variable → Prop) → Scope → Expr → Prop
  stmt : (Variable → Prop) → Scope → Stmt → Scope → Prop

namespace TreeFacts

variable (F : TreeFacts) (P : Variable → Prop)

/-- A declared variable is seen in its own initial value. -/
def declarator (s : Scope) (d : VariableDecl) (t : Scope) : Prop :=
  s.declares d.declared.name = false ∧ P d.declared ∧ t = s.declare d.declared ∧ ∀ e ∈ d.init, F.initial P t e

/-- A group of a switch has a label or is the default. -/
def group (s : Scope) (c : SwitchCase) (t : Scope) : Prop :=
  (c.labels ≠ [] ∨ c.isDefault = true) ∧ (∀ e ∈ c.labels, F.expr P s e) ∧ s.Chain (F.stmt P) c.body t

/-- Statements in a scope of their own. -/
def block (s : Scope) (body : List Stmt) : Prop := ∃ t, s.enter.Chain (F.stmt P) body t

/-- A statement in a scope of its own. -/
def branch (s : Scope) (body : Stmt) : Prop := ∃ t, F.stmt P s.enter body t

/-- The parameter of a handler is seen in its block. -/
def clause (s : Scope) (c : CatchClause) : Prop := P c.param ∧ F.block P (s.enter.declare c.param) c.body

/-- Parameters have a scope of their own, in which the body stands. -/
def member (s : Scope) : Member → Prop
  | .field decl => ∀ e ∈ decl.init, F.initial P s e
  | .method decl => ∃ t, s.enter.Extended decl.params t ∧ ∀ body ∈ decl.body, F.block P t body

end TreeFacts

/-- Facts that follow from those of the parts in everything that is read from some tokens. -/
structure TreeLaws (source : List PlacedToken) (F : TreeFacts) : Prop where
  enter : ∀ {P s}, F.fits P s → F.fits P s.enter
  exit : ∀ {P s}, F.fits P s → F.fits P s.exit
  declare : ∀ {P s v}, F.fits P s → P v → F.fits P (s.declare v)
  int : ∀ {P s value}, TokenAmong source (.int value) → value ≤ 2147483647 → F.expr P s (.int value .int)
  negated : ∀ {P s value}, TokensMeet source (.symbol .minus) (.int value) → F.expr P s (.int (-value) .int)
  char : ∀ {P s} {unit : UInt16}, F.expr P s (.int (Int64.ofNat unit.toNat) .char)
  leaf : ∀ {P s e}, e.isLeaf = true → F.expr P s e
  name : ∀ {P s n}, s.lookup n = none → F.expr P s (.name n)
  var : ∀ {P s n v}, F.fits P s → s.lookup n = some v → F.expr P s (.var v)
  unary : ∀ {P s op e}, F.expr P s e → F.expr P s (.unary op e)
  binary : ∀ {P s op l r}, F.expr P s l → F.expr P s r → F.expr P s (.binary op l r)
  compare : ∀ {P s op l r}, F.expr P s l → F.expr P s r → F.expr P s (.compare op l r)
  and : ∀ {P s l r}, F.expr P s l → F.expr P s r → F.expr P s (.and l r)
  or : ∀ {P s l r}, F.expr P s l → F.expr P s r → F.expr P s (.or l r)
  not : ∀ {P s e}, F.expr P s e → F.expr P s (.not e)
  instanceOf : ∀ {P s e type}, F.expr P s e → F.expr P s (.instanceOf e type)
  cast : ∀ {P s type e}, F.expr P s e → F.expr P s (.cast type e)
  conditional : ∀ {P s c a b}, F.expr P s c → F.expr P s a → F.expr P s b → F.expr P s (.conditional c a b)
  assign : ∀ {P s op target value}, target.isAssignable = true → F.expr P s target → F.expr P s value →
    F.expr P s (.assign op target value)
  incDec : ∀ {P s increment before target}, target.isAssignable = true → F.expr P s target →
    F.expr P s (.incDec increment before target)
  field : ∀ {P s e name}, F.expr P s e → F.expr P s (.field e name)
  classLit : ∀ {P s type}, type.isWritten = true → F.expr P s (.classLit type)
  index : ∀ {P s array position}, F.expr P s array → F.expr P s position → F.expr P s (.index array position)
  call : ∀ {P s name args}, TokenAmong source (.ident name) → (∀ e ∈ args, F.expr P s e) → F.expr P s (.call name args)
  callOn : ∀ {P s target name args}, TokenAmong source (.ident name) → F.expr P s target → (∀ e ∈ args, F.expr P s e) →
    F.expr P s (.callOn target name args)
  callConstructor : ∀ {P s target args}, target = .thisRef ∨ target = .superRef → (∀ e ∈ args, F.expr P s e) →
    F.expr P s (.callOn target constructorName args)
  new : ∀ {P s type args}, (∀ e ∈ args, F.expr P s e) → F.expr P s (.new type args)
  newArray : ∀ {P s element lengths extra}, lengths ≠ [] → (∀ e ∈ lengths, F.expr P s e) →
    F.expr P s (.newArray element lengths extra)
  arrayOf : ∀ {P s element dims items}, 1 ≤ dims → (∀ e ∈ items, F.initial P s e) →
    F.expr P s (.arrayOf element dims items)
  value : ∀ {P s e}, F.expr P s e → F.initial P s e
  items : ∀ {P s items}, (∀ e ∈ items, F.initial P s e) → F.initial P s (.arrayInit items)
  block : ∀ {P s body}, F.block P s body → F.stmt P s (.block body) s
  decl : ∀ {P s t decls}, s.Chain (F.declarator P) decls t → F.stmt P s (.decl decls) t
  exprStmt : ∀ {P s e}, F.expr P s e → F.stmt P s (.expr e) s
  ifThen : ∀ {P s test body}, F.expr P s test → F.branch P s body → F.stmt P s (.ifThen test body) s
  ifElse : ∀ {P s test body otherwise}, F.expr P s test → F.branch P s body →
    F.branch P s otherwise → F.stmt P s (.ifElse test body otherwise) s
  whileLoop : ∀ {P s test body}, F.expr P s test → F.branch P s body → F.stmt P s (.whileLoop test body) s
  doLoop : ∀ {P s test body}, F.branch P s body → F.expr P s test → F.stmt P s (.doLoop body test) s
  forLoop : ∀ {P s t init test update body}, s.enter.Chain (F.stmt P) init t → (∀ e ∈ test, F.expr P t e) →
    (∀ e ∈ update, F.expr P t e) → F.branch P t body → F.stmt P s (.forLoop init test update body) s
  switch : ∀ {P s t selector cases}, F.expr P s selector → s.enter.Chain (F.group P) cases t →
    cases.countP SwitchCase.isDefault ≤ 1 → F.stmt P s (.switch selector cases) s
  tryCatch : ∀ {P s body catches}, F.block P s body → catches ≠ [] →
    (∀ c ∈ catches, F.clause P s c) → F.stmt P s (.tryCatch body catches) s
  tryFinally : ∀ {P s body catches last}, F.block P s body → (∀ c ∈ catches, F.clause P s c) →
    F.block P s last → F.stmt P s (.tryFinally body catches last) s
  synchronized : ∀ {P s lock body}, F.expr P s lock → F.block P s body → F.stmt P s (.synchronized lock body) s
  ret : ∀ {P s value}, (∀ e ∈ value, F.expr P s e) → F.stmt P s (.ret value) s
  raise : ∀ {P s value}, F.expr P s value → F.stmt P s (.raise value) s
  labeled : ∀ {P s label body}, F.branch P s body → F.stmt P s (.labeled label body) s
  leafStmt : ∀ {P s body}, body.isLeaf = true → F.stmt P s body s

/-- Facts with their laws. -/
structure TreeRules (source : List PlacedToken) extends facts : TreeFacts, TreeLaws source facts

/-- Tokens that end with the end of input, which stands nowhere else. -/
def IsEnded (tokens : List PlacedToken) : Prop :=
  ∃ body last, tokens = body ++ [⟨.eof, last⟩] ∧ ∀ placed ∈ body, placed.token ≠ .eof

namespace Reader

variable {α β : Type} {source : List PlacedToken} {R : TreeRules source} {m : Nat} {u : Bool} {v : α → Bool}
  {pre : List PlacedToken → Prop} {s₀ : Scope} {still : Prop} {post : α → List PlacedToken → Prop}
  {Q : (Variable → Prop) → α → Scope → Prop}

/-! Judgements. -/

/-- A fault at a malformed token is that of the token. -/
def Blames (e : SyntaxError) (ahead : List PlacedToken) : Prop :=
  ∀ fault, (first ahead).token = .bad fault → e = .at (first ahead).position (.lexical fault)

/-- Reading begins with the last tokens of a text, which meet a condition, and in a given scope. -/
structure Begins (source : List PlacedToken) (pre : List PlacedToken → Prop) (s₀ : Scope) (s : ReaderState) : Prop where
  scope : s.scope = s₀
  ahead : s.ahead <:+ source
  pre : pre s.ahead

/-- A reader makes moves. If it comes to an end, the tokens that are left and what was built meet conditions, the
latter given one on the variables that are declared. If not, it blames a token. In a text with an end, another reader
does the same on fewer tokens than a number, or than the one before if a token was used up already, and it is told
whether one was used up then. -/
structure Agree (R : TreeRules source) (m : Nat) (u : Bool) (v : α → Bool) (pre : List PlacedToken → Prop) (s₀ : Scope)
    (still : Prop) (post : α → List PlacedToken → Prop) (Q : (Variable → Prop) → α → Scope → Prop)
    (x y : Reader α) : Prop where
  ok : ∀ s a t, Begins source pre s₀ s → x s = .ok a t → post a t.ahead ∧
    ∃ vs, s.Moves true still vs t ∧ ∀ P, (∀ v ∈ vs, P v) → R.fits P s₀ → Q P a t.scope
  error : ∀ s e t, Begins source pre s₀ s → x s = .error e t → Blames e t.ahead ∧ ∃ vs, s.Moves false still vs t
  alike : IsEnded source → ∀ s, Begins source pre s₀ s → s.ahead.length < m - u.toNat →
    x s = y s ∧ ∀ a t, x s = .ok a t → t.ahead.length < m - (v a).toNat

/-- Reading whatever the number of tokens. -/
abbrev Reads (R : TreeRules source) (pre : List PlacedToken → Prop) (s₀ : Scope) (still : Prop)
    (post : α → List PlacedToken → Prop) (Q : (Variable → Prop) → α → Scope → Prop) (x : Reader α) : Prop :=
  Agree R 0 true (fun _ => true) pre s₀ still post Q x x

/-- Reading that leaves the scope as it is. -/
abbrev Leaves (R : TreeRules source) (m : Nat) (u v : Bool) (pre : List PlacedToken → Prop) (s₀ : Scope)
    (M : (Variable → Prop) → α → Prop) (x y : Reader α) : Prop :=
  Agree R m u (fun _ => v) pre s₀ True (fun _ _ => True) (fun P a _ => M P a) x y

/-- Reading of tokens of which nothing is built. -/
abbrev Steps (R : TreeRules source) (m : Nat) (u v : Bool) (pre : List PlacedToken → Prop) (s₀ : Scope)
    (post : α → List PlacedToken → Prop) (x : Reader α) : Prop :=
  Agree R m u (fun _ => v) pre s₀ True post (fun _ _ _ => True) x x

theorem bind_ok {x : Reader α} {f : α → Reader β} {s t : ReaderState} {b : β} (h : (x >>= f) s = .ok b t) :
    ∃ a r, x s = .ok a r ∧ f a r = .ok b t := by
  simp only [Bind.bind, EStateM.bind] at h
  cases hx : x s with
  | ok a r =>
    rw [hx] at h
    exact ⟨a, r, rfl, h⟩
  | error e r =>
    rw [hx] at h
    cases h

theorem bind_error {x : Reader α} {f : α → Reader β} {s t : ReaderState} {e : SyntaxError}
    (h : (x >>= f) s = .error e t) : x s = .error e t ∨ ∃ a r, x s = .ok a r ∧ f a r = .error e t := by
  simp only [Bind.bind, EStateM.bind] at h
  cases hx : x s with
  | ok a r =>
    rw [hx] at h
    exact .inr ⟨a, r, rfl, h⟩
  | error e' r =>
    rw [hx] at h
    cases h
    exact .inl rfl

theorem get_bind (f : ReaderState → Reader α) (s : ReaderState) : (MonadState.get >>= f) s = f s s := rfl

/-- A failure changes nothing and blames the token that it is noticed at. -/
theorem fail_run (fault : ParseFault) (s : ReaderState) :
    ∃ e, (Reader.fail fault : Reader α) s = .error e s ∧ Blames e s.ahead := by
  simp only [Reader.fail, get_bind]
  cases hToken : (first s.ahead).token with
  | bad lexical =>
    refine ⟨_, rfl, fun fault hFault => ?_⟩
    cases hToken.symm.trans hFault
    rfl
  | _ => exact ⟨_, rfl, fun fault hFault => by cases hToken.symm.trans hFault⟩

/-- A variable gets the next number and a name that the open scope does not declare. -/
theorem declare_run (type : WrittenType) (name : String) (s : ReaderState) :
    (∃ e, Reader.declare type name s = .error e s ∧ Blames e s.ahead) ∨
    ∃ v : Variable, s.scope.declares v.name = false ∧ v.number = s.next ∧
      Reader.declare type name s = .ok v { s with scope := s.scope.declare v, next := s.next + 1 } := by
  simp only [Reader.declare, get_bind]
  cases hHere : s.scope.declares name with
  | true =>
    obtain ⟨e, hFail, hBlames⟩ := fail_run (α := Unit) (.alreadyDefined name) s
    exact .inl ⟨e, by simp only [if_true, Bind.bind, EStateM.bind, hFail], hBlames⟩
  | false => exact .inr ⟨⟨s.next, name, type⟩, hHere, rfl, rfl⟩

/-! Tokens that are taken together. -/

theorem leaving_after {ahead : List PlacedToken} (h : (first ahead).token.isPlain = true) :
    Leaving ahead (Reader.after ahead) := by
  cases ahead with
  | nil => exact .refl
  | cons placed rest =>
    cases rest with
    | nil => exact .refl
    | cons second rest => exact .cons h .refl

theorem leaving_splitModifiers (flags : AccessFlags) (ahead : List PlacedToken) :
    Leaving ahead (splitModifiers flags ahead).2 := by
  fun_induction splitModifiers flags ahead with
  | case1 flags m position rest ih => exact .cons rfl ih
  | case2 flags position rest h => exact .refl
  | case3 flags position rest h ih => exact .cons rfl ih
  | case4 flags ahead => exact .refl

theorem leaving_splitDotted (name : String) (ahead : List PlacedToken) : Leaving ahead (splitDotted name ahead).2 := by
  fun_induction splitDotted name ahead with
  | case1 name p part q rest ih => exact .cons rfl (.cons rfl ih)
  | case2 name ahead => exact .refl

theorem leaving_splitBrackets (dims : Nat) (ahead : List PlacedToken) : Leaving ahead (splitBrackets dims ahead).2 := by
  fun_induction splitBrackets dims ahead with
  | case1 dims p q rest ih => exact .cons rfl (.cons rfl ih)
  | case2 dims ahead => exact .refl

/-- A length in brackets stands first. -/
def LengthAhead (ahead : List PlacedToken) : Prop :=
  (first ahead).token = .symbol .leftBracket ∧ (first (ahead.drop 1)).token ≠ .symbol .rightBracket

/-- A type takes all the empty brackets that follow it, so that a length comes next where there are any left. -/
theorem splitBrackets_rest (dims : Nat) (ahead : List PlacedToken)
    (h : (first (splitBrackets dims ahead).2).token = .symbol .leftBracket) :
    LengthAhead (splitBrackets dims ahead).2 := by
  fun_induction splitBrackets dims ahead with
  | case1 dims p q rest ih => exact ih h
  | case2 dims ahead hOther =>
    refine ⟨h, fun hRight => ?_⟩
    match ahead, h, hRight with
    | ⟨.symbol .leftBracket, p⟩ :: ⟨.symbol .rightBracket, q⟩ :: rest, _, _ => exact hOther p q rest rfl

namespace Begins

variable {s t : ReaderState} {mid : List PlacedToken → Prop} {vs : List Variable}

/-- What follows begins where the first part ended. -/
theorem next (h : Begins source pre s₀ s) (hMoves : s.Moves true still vs t) (hMid : mid t.ahead) :
    Begins source mid t.scope t :=
  ⟨rfl, hMoves.leaving.suffix.trans h.ahead, hMid⟩

theorem fits {P : Variable → Prop} (h : Begins source pre s₀ s) (hMoves : s.Moves true still vs t)
    (hFits : R.fits P s₀) (hvs : ∀ v ∈ vs, P v) : R.fits P t.scope :=
  hMoves.keeps R.enter R.exit R.declare (h.scope ▸ hFits) hvs

end Begins

/-- A token other than the end of input is not the last of a text with an end. -/
theorem length_after_lt {ahead : List PlacedToken} (hEnd : IsEnded source) (hSuffix : ahead <:+ source)
    (h : (first ahead).token.isPlain = true) : (Reader.after ahead).length < ahead.length := by
  cases ahead with
  | nil => cases h
  | cons placed rest =>
    cases rest with
    | nil =>
      obtain ⟨body, last, rfl, -⟩ := hEnd
      obtain ⟨front, hFront⟩ := hSuffix
      obtain ⟨-, rfl⟩ := List.append_singleton_inj.1 hFront
      cases h
    | cons second rest => exact Nat.lt_succ_self _

namespace Agree

variable {x y : Reader α} {token : Token}

/-- Reading that does nothing. -/
theorem pureAs {a : α} (hPost : ∀ ahead, pre ahead → post a ahead) (hQ : ∀ P, Q P a s₀) (hv : v a = u) :
    Agree R m u v pre s₀ still post Q (pure a) (pure a) where
  ok s b t h hRun := by
    cases hRun
    exact ⟨hPost _ h.pre, [], .refl, fun P _ _ => h.scope ▸ hQ P⟩
  error s e t h hRun := by cases hRun
  alike _ _ _ hm := ⟨rfl, fun b t hRun => by cases hRun; exact hv ▸ hm⟩

theorem pureAt {a : α} (hPost : ∀ ahead, pre ahead → post a ahead) (hQ : ∀ P, Q P a s₀) :
    Agree R m u (fun _ => u) pre s₀ still post Q (pure a) (pure a) :=
  pureAs hPost hQ rfl

theorem pure {a : α} (hQ : ∀ P, Q P a s₀) : Agree R m u (fun _ => u) pre s₀ still (fun _ _ => True) Q (pure a) (pure a) :=
  pureAt (fun _ _ => trivial) hQ

section Bind

variable {x x' : Reader α} {f f' : α → Reader β} {w : α → Bool} {v : β → Bool} {mid : α → List PlacedToken → Prop}
  {M : (Variable → Prop) → α → Scope → Prop} {post : β → List PlacedToken → Prop}
  {Q : (Variable → Prop) → β → Scope → Prop}

/-- What the first part built is known when the second one has ended, and where that begins is known before. -/
theorem bindAt {N : α → Scope → Prop} (hx : Agree R m u w pre s₀ still mid M x x')
    (hN : ∀ s a r, Begins source pre s₀ s → x s = .ok a r → N a r.scope)
    (hf : ∀ a r₀, N a r₀ → Agree R m (w a) v (mid a) r₀ still post (fun P b t => M P a r₀ → Q P b t) (f a) (f' a)) :
    Agree R m u v pre s₀ still post Q (x >>= f) (x' >>= f') where
  ok s b t h hRun := by
    obtain ⟨a, r, hFirst, hRest⟩ := bind_ok hRun
    obtain ⟨hMid, vs, hMoves, hM⟩ := hx.ok s a r h hFirst
    obtain ⟨hPost, ws, hMoves', hQ⟩ := (hf a r.scope (hN s a r h hFirst)).ok r b t (h.next hMoves hMid) hRest
    refine ⟨hPost, vs ++ ws, hMoves.trans hMoves', fun P hAll hFits => ?_⟩
    obtain ⟨hvs, hws⟩ := List.forall_mem_append.1 hAll
    exact hQ P hws (h.fits hMoves hFits hvs) (hM P hvs hFits)
  error s e t h hRun := by
    rcases bind_error hRun with hFirst | ⟨a, r, hFirst, hRest⟩
    · exact hx.error s e t h hFirst
    · obtain ⟨hMid, vs, hMoves, -⟩ := hx.ok s a r h hFirst
      obtain ⟨hBlames, ws, hMoves'⟩ := (hf a r.scope (hN s a r h hFirst)).error r e t (h.next hMoves hMid) hRest
      exact ⟨hBlames, vs ++ ws, hMoves.trans hMoves'⟩
  alike hEnd s h hm := by
    obtain ⟨hSame, hLess⟩ := hx.alike hEnd s h hm
    have hRest {a : α} {r : ReaderState} (hFirst : x s = .ok a r) :
        f a r = f' a r ∧ ∀ b t, f a r = .ok b t → t.ahead.length < m - (v b).toNat := by
      obtain ⟨hMid, vs, hMoves, -⟩ := hx.ok s a r h hFirst
      exact (hf a r.scope (hN s a r h hFirst)).alike hEnd r (h.next hMoves hMid) (hLess a r hFirst)
    refine ⟨?_, fun b t hRun => ?_⟩
    · simp only [Bind.bind, EStateM.bind, ← hSame]
      cases hFirst : x s with
      | ok a r => exact (hRest hFirst).1
      | error e r => rfl
    · obtain ⟨a, r, hFirst, hRun⟩ := bind_ok hRun
      exact (hRest hFirst).2 b t hRun

theorem bind (hx : Agree R m u w pre s₀ still mid M x x')
    (hf : ∀ a r₀, Agree R m (w a) v (mid a) r₀ still post (fun P b t => M P a r₀ → Q P b t) (f a) (f' a)) :
    Agree R m u v pre s₀ still post Q (x >>= f) (x' >>= f') :=
  bindAt (N := fun _ _ => True) hx (fun _ _ _ _ _ => trivial) fun a r₀ _ => hf a r₀

end Bind

theorem mono {pre' : List PlacedToken → Prop} {post' : α → List PlacedToken → Prop}
    {Q' : (Variable → Prop) → α → Scope → Prop} (hx : Agree R m u v pre' s₀ still post' Q' x y)
    (hPre : ∀ ahead, pre ahead → pre' ahead) (hPost : ∀ a ahead, post' a ahead → post a ahead)
    (hQ : ∀ P a t, Q' P a t → Q P a t) : Agree R m u v pre s₀ still post Q x y where
  ok s a t h hRun := by
    obtain ⟨hEnd, vs, hMoves, hQ'⟩ := hx.ok s a t ⟨h.scope, h.ahead, hPre _ h.pre⟩ hRun
    exact ⟨hPost _ _ hEnd, vs, hMoves, fun P hvs hFits => hQ P _ _ (hQ' P hvs hFits)⟩
  error s e t h hRun := hx.error s e t ⟨h.scope, h.ahead, hPre _ h.pre⟩ hRun
  alike hEnd s h := hx.alike hEnd s ⟨h.scope, h.ahead, hPre _ h.pre⟩

/-- What is built is more than what is asked for. -/
theorem gives {Q' : (Variable → Prop) → α → Scope → Prop} (hx : Agree R m u v pre s₀ still post Q' x y)
    (hQ : ∀ P a t, Q' P a t → Q P a t) : Agree R m u v pre s₀ still post Q x y :=
  hx.mono (fun _ h => h) (fun _ _ h => h) hQ

/-- Reading that declares nothing where something may be declared. -/
theorem loosen (hx : Agree R m u v pre s₀ True post Q x y) (still : Prop) : Agree R m u v pre s₀ still post Q x y where
  ok s a t h hRun := by
    obtain ⟨hPost, vs, hMoves, hQ⟩ := hx.ok s a t h hRun
    exact ⟨hPost, vs, hMoves.loosen still, hQ⟩
  error s e t h hRun := by
    obtain ⟨hBlames, vs, hMoves⟩ := hx.error s e t h hRun
    exact ⟨hBlames, vs, hMoves.loosen still⟩
  alike := hx.alike

/-- Reading that declares nothing ends in the scope that it began in. -/
theorem stays (hx : Agree R m u v pre s₀ True post (fun P a _ => Q P a s₀) x y) :
    Agree R m u v pre s₀ True post Q x y where
  ok s a t h hRun := by
    obtain ⟨hPost, vs, hMoves, hQ⟩ := hx.ok s a t h hRun
    have hSame : t.scope = s₀ := hMoves.scope_eq.trans h.scope
    exact ⟨hPost, vs, hMoves, hSame ▸ hQ⟩
  error := hx.error
  alike := hx.alike

section After

variable {x x' : Reader α} {f f' : α → Reader β} {w : α → Bool} {v : β → Bool} {mid : α → List PlacedToken → Prop}
  {M : (Variable → Prop) → α → Prop} {post : β → List PlacedToken → Prop} {Q : (Variable → Prop) → β → Scope → Prop}

/-- The first part leaves the scope as it is. -/
theorem after (hx : Agree R m u w pre s₀ True mid (fun P a _ => M P a) x x')
    (hf : ∀ a, Agree R m (w a) v (mid a) s₀ still post (fun P b t => M P a → Q P b t) (f a) (f' a)) :
    Agree R m u v pre s₀ still post Q (x >>= f) (x' >>= f') := by
  refine bindAt (N := fun _ r₀ => r₀ = s₀) (hx.loosen still) (fun s a r h hRun => ?_) ?_
  · obtain ⟨-, vs, hMoves, -⟩ := hx.ok s a r h hRun
    exact hMoves.scope_eq.trans h.scope
  · rintro a _ rfl
    exact hf a

theorem step (hx : Agree R m u w pre s₀ True mid (fun _ _ _ => True) x x')
    (hf : ∀ a, Agree R m (w a) v (mid a) s₀ still post Q (f a) (f' a)) :
    Agree R m u v pre s₀ still post Q (x >>= f) (x' >>= f') :=
  after hx fun a => (hf a).gives fun _ _ _ h _ => h

end After

theorem map {f : α → β} {v : β → Bool} {post : β → List PlacedToken → Prop}
    {Q : (Variable → Prop) → β → Scope → Prop}
    (hx : Agree R m u (fun a => v (f a)) pre s₀ still (fun a => post (f a)) (fun P a => Q P (f a)) x y) :
    Agree R m u v pre s₀ still post Q (f <$> x) (f <$> y) := by
  have hBind (z : Reader α) : f <$> z = z >>= fun a => Pure.pure (f a) := by
    funext s
    simp only [Functor.map, EStateM.map, Bind.bind, EStateM.bind, Pure.pure, EStateM.pure]
  rw [hBind, hBind]
  exact bind hx fun _ _ => pureAs (fun _ h => h) (fun _ h => h) rfl

/-- A part that may be missing and is there. -/
theorem present {w : Bool} {M : (Variable → Prop) → α → Prop} (hx : Leaves R m u w pre s₀ M x y) :
    Leaves R m u w pre s₀ (fun P found => ∀ a ∈ found, M P a) (some <$> x) (some <$> y) :=
  map (hx.gives fun _ _ _ h _ hMem => Option.some.inj hMem ▸ h)

theorem ite {c : Prop} [Decidable c] {x' y' : Reader α} (hx : c → Agree R m u v pre s₀ still post Q x x')
    (hy : ¬ c → Agree R m u v pre s₀ still post Q y y') :
    Agree R m u v pre s₀ still post Q (if c then x else y) (if c then x' else y') := by
  split
  · next h => exact hx h
  · next h => exact hy h

/-- A choice after which the same is done. -/
theorem join {c : Prop} [Decidable c] {x y x' y' : Reader α} {f f' : α → Reader β} {v : β → Bool} {w : Bool}
    {M : (Variable → Prop) → α → Prop} {post : β → List PlacedToken → Prop}
    {Q : (Variable → Prop) → β → Scope → Prop} (hx : Leaves R m u w pre s₀ M x x') (hy : Leaves R m u w pre s₀ M y y')
    (hf : ∀ a, Agree R m w v (fun _ => True) s₀ still post (fun P b t => M P a → Q P b t) (f a) (f' a)) :
    Agree R m u v pre s₀ still post Q (if c then x >>= f else y >>= f) (if c then x' >>= f' else y' >>= f') :=
  ite (fun _ => after hx hf) fun _ => after hy hf

/-- What the tokens at the start tell. -/
theorem ofPre {c : Prop} (h : ∀ ahead, ahead <:+ source → pre ahead → c)
    (hx : c → Agree R m u v pre s₀ still post Q x y) : Agree R m u v pre s₀ still post Q x y where
  ok s a t hBegins := (hx (h _ hBegins.ahead hBegins.pre)).ok s a t hBegins
  error s e t hBegins := (hx (h _ hBegins.ahead hBegins.pre)).error s e t hBegins
  alike hEnd s hBegins := (hx (h _ hBegins.ahead hBegins.pre)).alike hEnd s hBegins

/-- The tokens at the start tell that something may be declared. -/
theorem ofNot (h : ∀ ahead, pre ahead → ¬ still) (hx : Agree R m u v pre s₀ False post Q x y) :
    Agree R m u v pre s₀ still post Q x y :=
  ofPre (fun ahead _ => h ahead) fun hNot => eq_false hNot ▸ hx

/-- It is enough to know that a token was used up. -/
theorem weaken (hx : Agree R m u (fun _ => true) pre s₀ still post Q x y) : Agree R m u v pre s₀ still post Q x y :=
  { hx with alike := fun hEnd s h hm => (hx.alike hEnd s h hm).imp_right fun hLess a t hRun =>
      Nat.lt_of_lt_of_le (hLess a t hRun) (Nat.sub_le_sub_left (Bool.toNat_le _) m) }

/-- What is done on fewer tokens is done after one was used up. -/
theorem later (hx : Agree R (m - 1) false v pre s₀ still post Q x y) :
    Agree R m true (fun _ => true) pre s₀ still post Q x y :=
  { hx with alike := fun hEnd s h hm => (hx.alike hEnd s h hm).imp_right fun hLess a t hRun =>
      Nat.lt_of_lt_of_le (hLess a t hRun) (Nat.sub_le ..) }

/-- Nothing is said of another reader where there are no tokens. -/
theorem unread {u' : Bool} {v' : α → Bool} {y' : Reader α} (hx : Agree R 0 u v pre s₀ still post Q x y) :
    Agree R 0 u' v' pre s₀ still post Q x y' :=
  ⟨hx.ok, hx.error, fun _ _ _ h => absurd (Nat.lt_of_lt_of_le h (Nat.sub_le ..)) (Nat.not_lt_zero _)⟩

/-! Faults. -/

theorem fail (fault : ParseFault) : Agree R m u v pre s₀ still post Q (fail fault) (Reader.fail fault) where
  ok s a t h hRun := by
    obtain ⟨e, hFail, -⟩ := fail_run (α := α) fault s
    cases hFail.symm.trans hRun
  error s e t h hRun := by
    obtain ⟨e', hFail, hBlames⟩ := fail_run (α := α) fault s
    cases hFail.symm.trans hRun
    exact ⟨hBlames, [], .refl⟩
  alike _ s _ _ := by
    obtain ⟨e, hFail, -⟩ := fail_run (α := α) fault s
    exact ⟨rfl, fun a t hRun => by cases hFail.symm.trans hRun⟩

/-- What would follow a fault does not matter. -/
theorem failThen (fault : ParseFault) (f f' : β → Reader α) :
    Agree R m u v pre s₀ still post Q (Reader.fail fault >>= f) (Reader.fail fault >>= f') := by
  have hFail : Agree R m u (fun _ => u) pre s₀ still (fun _ _ => True) (fun _ _ _ => True) (Reader.fail fault : Reader β) _ :=
    fail fault
  refine bindAt (N := fun _ _ => False) hFail (fun s a r _ hRun => ?_) nofun
  obtain ⟨e, hFail, -⟩ := fail_run (α := β) fault s
  cases hFail.symm.trans hRun

theorem throwThen {e : SyntaxError} (h : ∀ ahead, pre ahead → Blames e ahead) (f f' : β → Reader α) :
    Agree R m u v pre s₀ still post Q (MonadExcept.throw e >>= f) (MonadExcept.throw e >>= f') where
  ok s a t hBegins hRun := by cases hRun
  error s e t hBegins hRun := by
    cases hRun
    exact ⟨h _ hBegins.pre, [], .refl⟩
  alike _ _ _ _ := ⟨rfl, fun a t hRun => by cases hRun⟩

/-! Tokens. -/

theorem get : Steps R m u u pre s₀ (fun s ahead => pre ahead ∧ s.ahead = ahead) (get : Reader ReaderState) where
  ok s a t h hRun := by
    cases hRun
    exact ⟨⟨h.pre, rfl⟩, [], .refl, fun _ _ _ => trivial⟩
  error s e t h hRun := by cases hRun
  alike _ _ _ hm := ⟨rfl, fun a t hRun => by cases hRun; exact hm⟩

/-- Looking ahead changes nothing. -/
theorem look {f : List PlacedToken → α} : Steps R m u u pre s₀ (fun a ahead => pre ahead ∧ f ahead = a)
    (do return f (← MonadState.get).ahead) :=
  step get fun _ => pureAt (fun _ h => ⟨h.1, h.2 ▸ rfl⟩) fun _ => trivial

theorem peek : Steps R m u u pre s₀ (fun token ahead => pre ahead ∧ (first ahead).token = token) peek := look

theorem peekAt (distance : Nat) :
    Steps R m u u pre s₀ (fun token ahead => pre ahead ∧ (first (ahead.drop distance)).token = token) (peekAt distance) :=
  look

theorem isAt (token : Token) :
    Steps R m u u pre s₀ (fun found ahead => pre ahead ∧ ((first ahead).token == token) = found) (isAt token) :=
  step peek fun _ => pureAt (fun _ h => ⟨h.1, by rw [h.2]⟩) fun _ => trivial

/-- A token that is read is among those of the text. -/
theorem among {ahead : List PlacedToken} (h : ahead <:+ source) (hToken : (first ahead).token = token)
    (hPlain : token.isPlain = true) : TokenAmong source token := by
  cases ahead with
  | nil =>
    subst hToken
    cases hPlain
  | cons placed rest => exact ⟨placed, h.mem List.mem_cons_self, hToken⟩

/-- Steps that use up plain tokens from the front. -/
theorem ofTokens {w : Bool} {f : ReaderState → α × ReaderState} (hState : ∀ s, (f s).2 = { s with ahead := (f s).2.ahead })
    (hLeaving : ∀ s, pre s.ahead → Leaving s.ahead (f s).2.ahead)
    (hPost : ∀ s, pre s.ahead → s.ahead <:+ source → post (f s).1 (f s).2.ahead)
    (hLess : IsEnded source → ∀ s, pre s.ahead → s.ahead <:+ source → s.ahead.length < m - u.toNat →
      (f s).2.ahead.length < m - w.toNat) : Steps R m u w pre s₀ post (modifyGet f) where
  ok s a t h hRun := by
    obtain ⟨rfl, rfl⟩ := EStateM.Result.ok.inj hRun
    refine ⟨hPost s h.pre h.ahead, [], ?_, fun _ _ _ => trivial⟩
    have hMoves : s.Moves true True [] { s with ahead := (f s).2.ahead } := .tokens (hLeaving s h.pre)
    rwa [← hState s] at hMoves
  error s e t h hRun := by cases hRun
  alike hEnd s h hm := ⟨rfl, fun a t hRun => by
    obtain ⟨-, rfl⟩ := EStateM.Result.ok.inj hRun
    exact hLess hEnd s h.pre h.ahead hm⟩

theorem splitting {f : ReaderState → α × ReaderState} (hState : ∀ s, (f s).2 = { s with ahead := (f s).2.ahead })
    (hLeaving : ∀ s, Leaving s.ahead (f s).2.ahead) (hPost : ∀ s, post (f s).1 (f s).2.ahead) :
    Steps R m u u pre s₀ post (modifyGet f) :=
  ofTokens hState (fun s _ => hLeaving s) (fun s _ _ => hPost s) fun _ s _ _ hm =>
    Nat.lt_of_le_of_lt (hLeaving s).suffix.length_le hm

/-- What is left after the first token. -/
theorem advance (h : ∀ ahead, pre ahead → (first ahead).token.isPlain = true) : Steps R m u true pre s₀
    (fun _ ahead => ∃ before, before <:+ source ∧ pre before ∧ Reader.after before = ahead) advance :=
  ofTokens (fun _ => rfl) (fun _ hs => leaving_after (h _ hs)) (fun s hs hSuffix => ⟨s.ahead, hSuffix, hs, rfl⟩)
    fun hEnd _ hs hSuffix hm => Nat.lt_of_lt_of_le (length_after_lt hEnd hSuffix (h _ hs))
      (Nat.le_sub_one_of_lt (Nat.lt_of_lt_of_le hm (Nat.sub_le ..)))

theorem advanceAt (h : token.isPlain = true) : Steps R m u true (fun ahead => pre ahead ∧ (first ahead).token = token) s₀
      (fun _ ahead => ∃ before, before <:+ source ∧ (pre before ∧ (first before).token = token) ∧
        Reader.after before = ahead) Reader.advance :=
  advance fun _ hToken => hToken.2 ▸ h

theorem eat (h : token.isPlain = true) : Agree R m u (fun found => u || found) pre s₀ True (fun _ _ => True)
    (fun _ _ _ => True) (eat token) (Reader.eat token) :=
  step (isAt token) fun _ => ite
    (fun hFound => step (advance fun _ hAt => by rwa [beq_iff_eq.1 (hAt.2.trans hFound)]) fun _ =>
      pureAs (fun _ _ => trivial) (fun _ => trivial) (Bool.or_true u))
    fun _ => pureAs (fun _ _ => trivial) (fun _ => trivial) (Bool.or_false u)

/-- What is done where a token was found and used up, and what else. -/
theorem eatThen (h : token.isPlain = true) {x' y' : Reader α}
    (hx : Agree R m true v (fun _ => True) s₀ still post Q x x')
    (hy : Agree R m u v (fun _ => True) s₀ still post Q y y') : Agree R m u v pre s₀ still post Q
      (do if ← Reader.eat token then x else y) (do if ← Reader.eat token then x' else y') := by
  refine step (eat h) fun found => ?_
  cases found with
  | true => rwa [Bool.or_true, if_pos rfl, if_pos rfl]
  | false => rwa [Bool.or_false, if_neg nofun, if_neg nofun]

theorem expect (h : token.isPlain = true) : Steps R m u true pre s₀ (fun _ _ => True) (expect token) :=
  eatThen h (pure fun _ => trivial) (step peek fun _ => fail _)

theorem expectIdent : Agree R m u (fun _ => true) pre s₀ True
    (fun _ ahead => ∃ before, before <:+ source ∧ pre before ∧ Reader.after before = ahead)
    (fun _ name _ => TokenAmong source (.ident name)) expectIdent Reader.expectIdent := by
  refine step peek fun token => ?_
  split
  · next name =>
    refine ofPre (fun _ hSuffix hAt => among hSuffix hAt.2 rfl) fun hAmong => step (advanceAt rfl) fun _ => ?_
    exact pureAt (fun _ ⟨before, hSuffix, hBefore, hAfter⟩ => ⟨before, hSuffix, hBefore.1, hAfter⟩) fun _ => hAmong
  · exact fail _

theorem expectEnd : Steps R m u u pre s₀ (fun _ ahead => (first ahead).token = .eof) expectEnd :=
  step (isAt _) fun _ => ite (fun hEnd => pureAt (fun _ hAt => beq_iff_eq.1 (hAt.2.trans hEnd)) fun _ => trivial)
    fun _ => step peek fun _ => fail _

theorem modifiers : Steps R m u u pre s₀ (fun _ _ => True) modifiers :=
  splitting (fun _ => rfl) (fun _ => leaving_splitModifiers ..) fun _ => trivial

theorem brackets :
    Steps R m u u pre s₀ (fun _ ahead => (first ahead).token = .symbol .leftBracket → LengthAhead ahead) brackets :=
  splitting (fun _ => rfl) (fun _ => leaving_splitBrackets ..) fun s => splitBrackets_rest 0 s.ahead

theorem bracketsAfter (type : WrittenType) : Agree R m u (fun _ => u) pre s₀ True
    (fun _ ahead => (first ahead).token = .symbol .leftBracket → LengthAhead ahead)
    (fun _ found _ => type.isWritten = true → found.isWritten = true) (bracketsAfter type) (Reader.bracketsAfter type) :=
  step brackets fun _ => pureAt (fun _ h => h) fun _ h => WrittenType.isWritten_arrayOf h _

theorem writtenType : Agree R m u (fun _ => true) pre s₀ True
    (fun _ ahead => (first ahead).token = .symbol .leftBracket → LengthAhead ahead)
    (fun _ found _ => found.isWritten = true) writtenType Reader.writtenType := by
  refine step peek fun token => ?_
  split
  · exact step (advanceAt rfl) fun _ => (bracketsAfter _).gives fun _ _ _ h => h rfl
  · exact step (advanceAt rfl) fun _ => step (splitting (fun _ => rfl) (fun _ => leaving_splitDotted ..)
      fun _ => trivial : Steps R m true true _ s₀ (fun _ _ => True) _) fun _ => (bracketsAfter _).gives fun _ _ _ h => h rfl
  · exact fail _

/-! Scopes. -/

/-- What is read in a scope of its own leaves the scope around it. A fault inside leaves one more scope to close. -/
theorem inScope (hx : Agree R m u v pre s₀.enter False post Q x y) :
    Agree R m u v pre s₀ True post (fun P a _ => ∃ t, Q P a t) (inScope x) (Reader.inScope y) where
  ok s a t h hRun := by
    obtain ⟨⟨⟩, r, hEnter, hRun⟩ := bind_ok hRun
    cases hEnter
    obtain ⟨b, r, hBody, hRun⟩ := bind_ok hRun
    cases hRun
    obtain ⟨hPost, vs, hMoves, hQ⟩ := hx.ok s.opened a r ⟨congrArg Scope.enter h.scope, h.ahead, h.pre⟩ hBody
    exact ⟨hPost, vs, .closed hMoves, fun P hvs hFits => ⟨r.scope, hQ P hvs (R.enter hFits)⟩⟩
  error s e t h hRun := by
    rcases bind_error hRun with hEnter | ⟨⟨⟩, r, hEnter, hRun⟩
    · cases hEnter
    · cases hEnter
      rcases bind_error hRun with hBody | ⟨b, r, -, hExit⟩
      · obtain ⟨hBlames, vs, hMoves⟩ := hx.error s.opened e t ⟨congrArg Scope.enter h.scope, h.ahead, h.pre⟩ hBody
        exact ⟨hBlames, vs, .inside hMoves⟩
      · cases hExit
  alike hEnd s h hm := by
    obtain ⟨hSame, hLess⟩ := hx.alike hEnd s.opened ⟨congrArg Scope.enter h.scope, h.ahead, h.pre⟩ hm
    refine ⟨?_, fun a t hRun => ?_⟩
    · have hOpen (z : Reader α) : Reader.inScope z s = (z >>= fun a => do
          modify fun s : ReaderState => { s with scope := s.scope.exit, depth := s.depth - 1 }
          return a) s.opened := rfl
      simp only [hOpen, Bind.bind, EStateM.bind, hSame]
    · obtain ⟨⟨⟩, r, hEnter, hRun⟩ := bind_ok hRun
      cases hEnter
      obtain ⟨b, r, hBody, hRun⟩ := bind_ok hRun
      cases hRun
      exact hLess _ r hBody

/-- What is built in a scope of its own may be known to stand around it. -/
theorem enclosed (hx : Agree R m u v pre s₀.enter False post (fun P a _ => Q P a s₀) x y) :
    Agree R m u v pre s₀ still post Q (Reader.inScope x) (Reader.inScope y) :=
  (stays (hx.inScope.gives fun _ _ _ ⟨_, hQ⟩ => hQ)).loosen still

/-- Names are looked up in the open scopes. -/
theorem lookup (name : String) :
    Leaves R m u u pre s₀ (fun P found => R.fits P s₀ ∧ s₀.lookup name = found) (lookup name) (Reader.lookup name) where
  ok s a t h hRun := by
    cases hRun
    exact ⟨trivial, [], .refl, fun P _ hFits => ⟨hFits, h.scope ▸ rfl⟩⟩
  error s e t h hRun := by cases hRun
  alike _ _ _ hm := ⟨rfl, fun a t hRun => by cases hRun; exact hm⟩

/-- What follows a declaration. -/
theorem declaring {w : α → Bool} {f f' : Variable → Reader α} (type : WrittenType) (name : String)
    (hf : ∀ v, s₀.declares v.name = false →
      Agree R m u w (fun _ => True) (s₀.declare v) False post (fun P b t => P v → Q P b t) (f v) (f' v)) :
    Agree R m u w pre s₀ False post Q (declare type name >>= f) (declare type name >>= f') := by
  have hDeclare : Agree R m u (fun _ => u) pre s₀ False (fun _ _ => True) (fun P v _ => P v) (declare type name)
      (declare type name) := by
    refine ⟨fun s v t h hRun => ?_, fun s e t h hRun => ?_, fun _ s _ hm => ⟨rfl, fun v t hRun => ?_⟩⟩
    all_goals rcases declare_run type name s with ⟨e', hFail, hBlames⟩ | ⟨w, hNew, hNumber, hDeclared⟩
    · cases hFail.symm.trans hRun
    · cases hDeclared.symm.trans hRun
      exact ⟨trivial, [v], .declare id hNew hNumber, fun P hvs _ => hvs v List.mem_cons_self⟩
    · cases hFail.symm.trans hRun
      exact ⟨hBlames, [], .refl⟩
    · cases hDeclared.symm.trans hRun
    · cases hFail.symm.trans hRun
    · cases hDeclared.symm.trans hRun
      exact hm
  refine bindAt (N := fun v r₀ => s₀.declares v.name = false ∧ r₀ = s₀.declare v) hDeclare (fun s v r h hRun => ?_) ?_
  · rcases declare_run type name s with ⟨e, hFail, -⟩ | ⟨w, hNew, -, hDeclared⟩
    · cases hFail.symm.trans hRun
    · cases hDeclared.symm.trans hRun
      rw [h.scope] at hNew ⊢
      exact ⟨hNew, rfl⟩
  · rintro v _ ⟨hNew, rfl⟩
    exact hf v hNew

end Agree

end Reader

end JavaFragment
