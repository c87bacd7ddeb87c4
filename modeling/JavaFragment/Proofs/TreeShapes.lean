import JavaFragment.Proofs.Productions
import JavaFragment.Proofs.Tokens
/-!
The shape of what is read. Rules say in which scope each part of a tree stands: a declaration is seen from its
own initial value on to the end of the block around it, and blocks, branches, loops, switches, handlers and
methods have scopes of their own. A variable stands for the innermost declaration of its name. The rules also
tell which trees there are: what can be assigned to, where items in braces may stand, which calls are of
constructors. Everything that is read, from any tokens and in any scope, stands by these rules.
-/
namespace JavaFragment

/-! Rules for trees. -/

section Rules

-- the words that occur as names
variable (word : String → Prop)

mutual

/-- An expression in a scope. There is no rule for items in braces, which are no expression, nor for texts
that are put together, which are not written as such. -/
inductive Expr.Stands (s : Scope) : Expr → Prop
  | int {value : Int64} {kind : IntKind} (h : kind = .int ∨ kind = .char) : Stands s (.int value kind)
  | long {value : Int64} : Stands s (.long value)
  | float {value : Binary32} : Stands s (.float value)
  | double {value : Binary64} : Stands s (.double value)
  | string {text : String} : Stands s (.string text)
  | thisRef : Stands s .thisRef
  | superRef : Stands s .superRef
  | nullRef : Stands s .nullRef
  | bool {value : Bool} : Stands s (.bool value)
  | name {n : String} (h : s.lookup n = none) : Stands s (.name n)
  | var {v : Variable} (h : s.lookup v.name = some v) : Stands s (.var v)
  | unary {op : UnaryOp} {e : Expr} (h : Stands s e) : Stands s (.unary op e)
  | binary {op : BinaryOp} {l r : Expr} (hl : Stands s l) (hr : Stands s r) : Stands s (.binary op l r)
  | compare {op : CompareOp} {l r : Expr} (hl : Stands s l) (hr : Stands s r) : Stands s (.compare op l r)
  | and {l r : Expr} (hl : Stands s l) (hr : Stands s r) : Stands s (.and l r)
  | or {l r : Expr} (hl : Stands s l) (hr : Stands s r) : Stands s (.or l r)
  | not {e : Expr} (h : Stands s e) : Stands s (.not e)
  | instanceOf {e : Expr} {type : WrittenType} (h : Stands s e) : Stands s (.instanceOf e type)
  | cast {type : WrittenType} {e : Expr} (h : Stands s e) : Stands s (.cast type e)
  | conditional {c a b : Expr} (hc : Stands s c) (ha : Stands s a) (hb : Stands s b) : Stands s (.conditional c a b)
  | assign {op : Option BinaryOp} {target value : Expr} (hAssignable : target.isAssignable = true)
      (hTarget : Stands s target) (hValue : Stands s value) : Stands s (.assign op target value)
  | incDec {increment before : Bool} {target : Expr} (hAssignable : target.isAssignable = true)
      (hTarget : Stands s target) : Stands s (.incDec increment before target)
  | field {e : Expr} {name : String} (h : Stands s e) : Stands s (.field e name)
  | classLit {type : WrittenType} (hType : type.isWritten = true) : Stands s (.classLit type)
  | index {array position : Expr} (ha : Stands s array) (hp : Stands s position) : Stands s (.index array position)
  | call {name : String} {args : List Expr} (hName : word name) (hArgs : ∀ e ∈ args, Stands s e) :
      Stands s (.call name args)
  | callOn {target : Expr} {name : String} {args : List Expr} (hName : word name) (hTarget : Stands s target)
      (hArgs : ∀ e ∈ args, Stands s e) : Stands s (.callOn target name args)
  | callConstructor {target : Expr} {args : List Expr} (hTarget : target = .thisRef ∨ target = .superRef)
      (hArgs : ∀ e ∈ args, Stands s e) : Stands s (.callOn target constructorName args)
  | new {type : WrittenType} {args : List Expr} (hArgs : ∀ e ∈ args, Stands s e) : Stands s (.new type args)
  | newArray {element : WrittenType} {lengths : List Expr} {extra : Nat} (hSome : lengths ≠ [])
      (hLengths : ∀ e ∈ lengths, Stands s e) : Stands s (.newArray element lengths extra)
  | arrayOf {element : WrittenType} {dims : Nat} {items : List Expr} (hDims : 1 ≤ dims)
      (hItems : ∀ e ∈ items, Initializes s e) : Stands s (.arrayOf element dims items)

/-- What may stand as an initial value: an expression, or items in braces that are initial values. -/
inductive Expr.Initializes (s : Scope) : Expr → Prop
  | expr {e : Expr} (h : Expr.Stands s e) : Initializes s e
  | items {items : List Expr} (h : ∀ e ∈ items, Initializes s e) : Initializes s (.arrayInit items)

end

/-- Variables declared one after another. Each is seen in its own initial value and after it. -/
inductive VariableDecl.StandAll : Scope → List VariableDecl → Scope → Prop
  | nil {s : Scope} : StandAll s [] s
  | cons {s t : Scope} {v : Variable} {init : Option Expr} {rest : List VariableDecl}
      (hNew : s.declares v.name = false) (hInit : ∀ e ∈ init, e.Initializes word (s.declare v))
      (hRest : StandAll (s.declare v) rest t) : StandAll s (⟨v, init⟩ :: rest) t

mutual

/-- A statement in a scope, and the scope after it. -/
inductive Stmt.Stands : Scope → Stmt → Scope → Prop
  | block {s t : Scope} {body : List Stmt} (h : Stmt.StandAll s.enter body t) : Stmt.Stands s (.block body) s
  | decl {s t : Scope} {decls : List VariableDecl} (h : VariableDecl.StandAll word s decls t) :
      Stmt.Stands s (.decl decls) t
  | expr {s : Scope} {e : Expr} (h : e.Stands word s) : Stmt.Stands s (.expr e) s
  | ifThen {s t : Scope} {test : Expr} {body : Stmt} (hTest : test.Stands word s)
      (hBody : Stmt.Stands s.enter body t) : Stmt.Stands s (.ifThen test body) s
  | ifElse {s t u : Scope} {test : Expr} {body otherwise : Stmt} (hTest : test.Stands word s)
      (hBody : Stmt.Stands s.enter body t) (hElse : Stmt.Stands s.enter otherwise u) :
      Stmt.Stands s (.ifElse test body otherwise) s
  | whileLoop {s t : Scope} {test : Expr} {body : Stmt} (hTest : test.Stands word s)
      (hBody : Stmt.Stands s.enter body t) : Stmt.Stands s (.whileLoop test body) s
  | doLoop {s t : Scope} {test : Expr} {body : Stmt} (hBody : Stmt.Stands s.enter body t)
      (hTest : test.Stands word s) : Stmt.Stands s (.doLoop body test) s
  | forLoop {s t u : Scope} {init : List Stmt} {test : Option Expr} {update : List Expr} {body : Stmt}
      (hInit : Stmt.StandAll s.enter init t) (hTest : ∀ e ∈ test, e.Stands word t)
      (hUpdate : ∀ e ∈ update, e.Stands word t) (hBody : Stmt.Stands t.enter body u) :
      Stmt.Stands s (.forLoop init test update body) s
  | switch {s t : Scope} {selector : Expr} {cases : List SwitchCase} (hSelector : selector.Stands word s)
      (hCases : SwitchCase.StandAll s.enter cases t) (hDefault : cases.countP SwitchCase.isDefault ≤ 1) :
      Stmt.Stands s (.switch selector cases) s
  | tryCatch {s t : Scope} {body : List Stmt} {catches : List CatchClause} (hBody : Stmt.StandAll s.enter body t)
      (hSome : catches ≠ []) (hCatches : ∀ c ∈ catches, CatchClause.Stands s c) :
      Stmt.Stands s (.tryCatch body catches) s
  | tryFinally {s t u : Scope} {body : List Stmt} {catches : List CatchClause} {last : List Stmt}
      (hBody : Stmt.StandAll s.enter body t) (hCatches : ∀ c ∈ catches, CatchClause.Stands s c)
      (hLast : Stmt.StandAll s.enter last u) : Stmt.Stands s (.tryFinally body catches last) s
  | synchronized {s t : Scope} {lock : Expr} {body : List Stmt} (hLock : lock.Stands word s)
      (hBody : Stmt.StandAll s.enter body t) : Stmt.Stands s (.synchronized lock body) s
  | ret {s : Scope} {value : Option Expr} (h : ∀ e ∈ value, e.Stands word s) : Stmt.Stands s (.ret value) s
  | raise {s : Scope} {value : Expr} (h : value.Stands word s) : Stmt.Stands s (.raise value) s
  | breakTo {s : Scope} {label : Option String} : Stmt.Stands s (.breakTo label) s
  | continueTo {s : Scope} {label : Option String} : Stmt.Stands s (.continueTo label) s
  | labeled {s t : Scope} {label : String} {body : Stmt} (h : Stmt.Stands s.enter body t) :
      Stmt.Stands s (.labeled label body) s
  | empty {s : Scope} : Stmt.Stands s .empty s

/-- Statements one after another. -/
inductive Stmt.StandAll : Scope → List Stmt → Scope → Prop
  | nil {s : Scope} : Stmt.StandAll s [] s
  | cons {s t u : Scope} {first : Stmt} {rest : List Stmt} (hFirst : Stmt.Stands s first t)
      (hRest : Stmt.StandAll t rest u) : Stmt.StandAll s (first :: rest) u

/-- The groups of a switch, which share one scope. Each has a label or is the default. -/
inductive SwitchCase.StandAll : Scope → List SwitchCase → Scope → Prop
  | nil {s : Scope} : SwitchCase.StandAll s [] s
  | cons {s t u : Scope} {labels : List Expr} {isDefault : Bool} {body : List Stmt} {rest : List SwitchCase}
      (hLed : labels ≠ [] ∨ isDefault = true) (hLabels : ∀ e ∈ labels, e.Stands word s)
      (hBody : Stmt.StandAll s body t) (hRest : SwitchCase.StandAll t rest u) :
      SwitchCase.StandAll s (.mk labels isDefault body :: rest) u

/-- A handler, whose parameter is seen in its block. -/
inductive CatchClause.Stands : Scope → CatchClause → Prop
  | mk {s t : Scope} {param : Variable} {body : List Stmt}
      (hBody : Stmt.StandAll (s.enter.declare param).enter body t) : CatchClause.Stands s (.mk param body)

end

/-- A member in the scope around it. Parameters have a scope of their own, in which the body stands. -/
inductive Member.Stands (s : Scope) : Member → Prop
  | field {decl : FieldDecl} (h : ∀ e ∈ decl.init, e.Initializes word s) : Stands s (.field decl)
  | method {decl : MethodDecl} {t : Scope} (hParams : s.enter.Extended decl.params t)
      (hBody : ∀ body ∈ decl.body, ∃ u, Stmt.StandAll word t.enter body u) : Stands s (.method decl)

end Rules

/-! Scopes. -/

/-- Variables are found in a scope under their own names. -/
def Scope.Named (s : Scope) : Prop := ∀ frame ∈ s.own :: s.around, ∀ entry ∈ frame, entry.2.name = entry.1

namespace Scope.Named

variable {s : Scope}

theorem of_lookup (h : s.Named) {name : String} {v : Variable} (hLookup : s.lookup name = some v) : v.name = name := by
  obtain ⟨frame, hFrame, hLookup⟩ := List.exists_of_findSome?_eq_some hLookup
  obtain ⟨before, after, hSplit, -⟩ := List.lookup_eq_some_iff.1 hLookup
  exact h frame hFrame (name, v) (by simp [hSplit])

theorem enter (h : s.Named) : s.enter.Named := by
  intro frame hFrame
  rcases List.mem_cons.1 hFrame with rfl | hAround
  · exact List.forall_mem_nil _
  · exact h frame hAround

theorem exit (h : s.Named) : s.exit.Named := by
  obtain ⟨own, around⟩ := s
  cases around with
  | nil => simp [Scope.exit, Named, Scope.empty]
  | cons frame around => exact (List.forall_mem_cons.1 h).2

theorem declare (h : s.Named) (v : Variable) : (s.declare v).Named := by
  intro frame hFrame entry hEntry
  rcases List.mem_cons.1 hFrame with rfl | hAround
  · rcases List.mem_cons.1 hEntry with rfl | hOwn
    · rfl
    · exact h s.own List.mem_cons_self entry hOwn
  · exact h frame (List.mem_cons_of_mem _ hAround) entry hEntry

end Scope.Named

/-! What is read. -/

/-- Whether a name is among the tokens. -/
def NameAmong (tokens : List PlacedToken) (name : String) : Prop := ∃ placed ∈ tokens, placed.token = .ident name

/-- Trees stand by the rules where variables are found under their names. -/
def TreeFacts.stands (word : String → Prop) : TreeFacts where
  fits _ s := s.Named
  expr _ s e := e.Stands word s
  initial _ s e := e.Initializes word s
  stmt _ s body t := Stmt.Stands word s body t

namespace TreeFacts.stands

variable {word : String → Prop} {P : Variable → Prop} {s t : Scope}

theorem standAll {body : List Stmt} (h : s.Chain ((stands word).stmt P) body t) : Stmt.StandAll word s body t := by
  induction h with
  | nil => exact .nil
  | cons h _ ih => exact .cons h ih

theorem declarators {decls : List VariableDecl} (h : s.Chain ((stands word).declarator P) decls t) :
    VariableDecl.StandAll word s decls t := by
  induction h with
  | nil => exact .nil
  | cons h _ ih =>
    obtain ⟨hNew, -, rfl, hInit⟩ := h
    exact .cons hNew hInit ih

theorem groups {cases : List SwitchCase} (h : s.Chain ((stands word).group P) cases t) :
    SwitchCase.StandAll word s cases t := by
  induction h with
  | nil => exact .nil
  | @cons _ _ _ c _ h _ ih =>
    obtain ⟨labels, isDefault, body⟩ := c
    obtain ⟨hLed, hLabels, hBody⟩ := h
    exact .cons hLed hLabels (standAll hBody) ih

theorem clause {c : CatchClause} (h : (stands word).clause P s c) : CatchClause.Stands word s c := by
  obtain ⟨param, body⟩ := c
  obtain ⟨-, t, hBody⟩ := h
  exact .mk (standAll hBody)

theorem member {m : Member} (h : (stands word).member P s m) : m.Stands word s := by
  cases m with
  | field => exact .field h
  | method =>
    obtain ⟨t, hParams, hBody⟩ := h
    refine .method hParams fun body hSome => ?_
    obtain ⟨u, hAll⟩ := hBody body hSome
    exact ⟨u, standAll hAll⟩

theorem laws (source : List PlacedToken) : TreeLaws source (stands (NameAmong source)) where
  enter := Scope.Named.enter
  exit := Scope.Named.exit
  declare hFits _ := hFits.declare _
  int _ _ := .int (.inl rfl)
  negated _ := .int (.inl rfl)
  char := .int (.inr rfl)
  leaf {_ _ e} h := by
    cases e with
    | long | float | double | string | bool | thisRef | superRef | nullRef => constructor
    | _ => cases h
  name := .name
  var hFits hLookup := .var (hFits.of_lookup hLookup ▸ hLookup)
  unary := .unary
  binary := .binary
  compare := .compare
  and := .and
  or := .or
  not := .not
  instanceOf := .instanceOf
  cast := .cast
  conditional := .conditional
  assign := .assign
  incDec := .incDec
  field := .field
  classLit := .classLit
  index := .index
  call hName hArgs := .call hName hArgs
  callOn hName hTarget hArgs := .callOn hName hTarget hArgs
  callConstructor := .callConstructor
  new := .new
  newArray := .newArray
  arrayOf := .arrayOf
  value := .expr
  items := .items
  block := fun ⟨_, hBody⟩ => .block (standAll hBody)
  decl h := .decl (declarators h)
  exprStmt := .expr
  ifThen := fun hTest ⟨_, hBody⟩ => .ifThen hTest hBody
  ifElse := fun hTest ⟨_, hBody⟩ ⟨_, hElse⟩ => .ifElse hTest hBody hElse
  whileLoop := fun hTest ⟨_, hBody⟩ => .whileLoop hTest hBody
  doLoop := fun ⟨_, hBody⟩ hTest => .doLoop hBody hTest
  forLoop := fun hInit hTest hUpdate ⟨_, hBody⟩ => .forLoop (standAll hInit) hTest hUpdate hBody
  switch hSelector hCases hOne := .switch hSelector (groups hCases) hOne
  tryCatch := fun ⟨_, hBody⟩ hSome hCatches => .tryCatch (standAll hBody) hSome fun c hc => clause (hCatches c hc)
  tryFinally := fun ⟨_, hBody⟩ hCatches ⟨_, hLast⟩ =>
    .tryFinally (standAll hBody) (fun c hc => clause (hCatches c hc)) (standAll hLast)
  synchronized := fun hLock ⟨_, hBody⟩ => .synchronized hLock (standAll hBody)
  ret := .ret
  raise := .raise
  labeled := fun ⟨_, hBody⟩ => .labeled hBody
  leafStmt {_ _ body} h := by
    cases body with
    | breakTo | continueTo | empty => constructor
    | _ => cases h

end TreeFacts.stands

/-- The rules for trees follow those of reading. -/
def TreeRules.stands (source : List PlacedToken) : TreeRules source :=
  ⟨.stands (NameAmong source), TreeFacts.stands.laws source⟩

/-- Names in a text begin with a letter, so that none is the name of constructors. -/
theorem not_nameAmong_constructorName (source : String) : ¬ NameAmong (tokenize source) constructorName := by
  rintro ⟨placed, hMem, hName⟩
  obtain ⟨body, last, hTokens, hScanned⟩ := tokenize_scanned source
  rw [hTokens, List.mem_append, List.mem_singleton] at hMem
  rcases hMem with hBody | rfl
  · have hWord := hScanned placed hBody
    rw [hName] at hWord
    obtain ⟨c, rest, hChars, hStart⟩ := hWord
    have hFirst : '<' :: "init>".toList = c :: rest := by
      have := congrArg String.toList hChars
      simpa [constructorName] using this
    obtain ⟨rfl, -⟩ := List.cons.inj hFirst
    exact absurd hStart (by decide +kernel)
  · cases hName

end JavaFragment
