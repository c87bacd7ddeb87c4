import JavaFragment.Proofs.Productions
import JavaFragment.Proofs.Variables
/-!
Scopes while reading. Blocks, branches, loops, switches, handlers and methods open scopes, which a fault
leaves open wherever it is noticed. Their number alone tells how many to close. Whatever is read, that leads
back to the scope at the start, and the only names in it that were not there before are those of
declarations outside of all blocks.
-/
namespace JavaFragment

variable {α : Type} {post : α → List PlacedToken → Prop} {Q : (Variable → Prop) → α → Scope → Prop}

/-- The variables that a statement declares in the scope that it stands in. -/
def Stmt.declared : Stmt → List Variable
  | .decl decls => decls.map VariableDecl.declared
  | _ => []

/-! What is read mentions variables in scope and those that were declared on the way. -/

/-- The variables of trees meet the condition. A statement adds those that it declares to the scope. -/
def TreeFacts.mentions : TreeFacts where
  fits P s := s.All P
  expr P _ e := ∀ v ∈ e.variables, P v
  initial P _ e := ∀ v ∈ e.variables, P v
  stmt P s body t := (∀ v ∈ body.variables, P v) ∧ s.Extended body.declared t

namespace TreeFacts.mentions

variable {P : Variable → Prop} {s t : Scope}

theorem exprs {es : List Expr} (h : ∀ e ∈ es, ∀ v ∈ e.variables, P v) : ∀ v ∈ Expr.variablesOf es, P v := by
  rw [Expr.variablesOf_eq]
  exact List.forall_mem_flatMap.2 h

theorem option {e? : Option Expr} (h : ∀ e ∈ e?, ∀ v ∈ e.variables, P v) :
    ∀ v ∈ e?.toList.flatMap Expr.variables, P v :=
  List.forall_mem_flatMap.2 fun e he => h e (Option.mem_toList.1 he)

theorem chain {body : List Stmt} (h : s.Chain (mentions.stmt P) body t) :
    (∀ v ∈ Stmt.variablesOf body, P v) ∧ s.Extended (body.flatMap Stmt.declared) t := by
  induction h with
  | nil => exact ⟨List.forall_mem_nil _, .refl _⟩
  | cons h _ ih => exact ⟨List.forall_mem_append.2 ⟨h.1, ih.1⟩, h.2.trans ih.2⟩

theorem block {body : List Stmt} (h : mentions.block P s body) : ∀ v ∈ Stmt.variablesOf body, P v := by
  obtain ⟨t, hBody⟩ := h
  exact (chain hBody).1

theorem branch {body : Stmt} (h : mentions.branch P s body) : ∀ v ∈ body.variables, P v := by
  obtain ⟨t, hBody⟩ := h
  exact hBody.1

theorem declarators {decls : List VariableDecl} (h : s.Chain (mentions.declarator P) decls t) :
    mentions.stmt P s (.decl decls) t := by
  induction h with
  | nil => exact ⟨List.forall_mem_nil _, .refl _⟩
  | cons h _ ih =>
    obtain ⟨hNew, hDeclared, rfl, hInit⟩ := h
    exact ⟨List.forall_mem_append.2 ⟨List.forall_mem_cons.2 ⟨hDeclared, option hInit⟩, ih.1⟩, .declare hNew ih.2⟩

theorem groups {cases : List SwitchCase} (h : s.Chain (mentions.group P) cases t) :
    ∀ v ∈ SwitchCase.variablesOf cases, P v := by
  rw [SwitchCase.variablesOf_eq]
  refine List.forall_mem_flatMap.2 (h.forall_mem fun ⟨_, hLabels, hBody⟩ => ?_)
  exact List.forall_mem_append.2 ⟨exprs hLabels, (chain hBody).1⟩

theorem clauses {catches : List CatchClause} (h : ∀ c ∈ catches, mentions.clause P s c) :
    ∀ v ∈ CatchClause.variablesOf catches, P v := by
  rw [CatchClause.variablesOf_eq]
  exact List.forall_mem_flatMap.2 fun c hc => List.forall_mem_cons.2 ⟨(h c hc).1, block (h c hc).2⟩

theorem laws (source : List PlacedToken) : TreeLaws source mentions where
  enter := Scope.All.enter
  exit := Scope.All.exit
  declare := Scope.All.declare
  int _ _ := List.forall_mem_nil _
  negated _ := List.forall_mem_nil _
  char := List.forall_mem_nil _
  leaf {_ _ e} h := by
    cases e with
    | long | float | double | string | bool | thisRef | superRef | nullRef => exact List.forall_mem_nil _
    | _ => cases h
  name _ := List.forall_mem_nil _
  var hFits hLookup := List.forall_mem_singleton.2 (hFits.of_lookup hLookup)
  unary h := h
  binary hl hr := List.forall_mem_append.2 ⟨hl, hr⟩
  compare hl hr := List.forall_mem_append.2 ⟨hl, hr⟩
  and hl hr := List.forall_mem_append.2 ⟨hl, hr⟩
  or hl hr := List.forall_mem_append.2 ⟨hl, hr⟩
  not h := h
  instanceOf h := h
  cast h := h
  conditional hc ha hb := List.forall_mem_append.2 ⟨hc, List.forall_mem_append.2 ⟨ha, hb⟩⟩
  assign _ ht hv := List.forall_mem_append.2 ⟨ht, hv⟩
  incDec _ h := h
  field h := h
  classLit _ := List.forall_mem_nil _
  index ha hp := List.forall_mem_append.2 ⟨ha, hp⟩
  call _ hArgs := exprs hArgs
  callOn _ ht hArgs := List.forall_mem_append.2 ⟨ht, exprs hArgs⟩
  callConstructor ht hArgs := by rcases ht with rfl | rfl <;> exact exprs hArgs
  new hArgs := exprs hArgs
  newArray _ hLengths := exprs hLengths
  arrayOf _ hItems := exprs hItems
  value h := h
  items hItems := exprs hItems
  block h := ⟨block h, .refl _⟩
  decl := declarators
  exprStmt h := ⟨h, .refl _⟩
  ifThen ht hb := ⟨List.forall_mem_append.2 ⟨ht, branch hb⟩, .refl _⟩
  ifElse ht hb ho := ⟨List.forall_mem_append.2 ⟨ht, List.forall_mem_append.2 ⟨branch hb, branch ho⟩⟩, .refl _⟩
  whileLoop ht hb := ⟨List.forall_mem_append.2 ⟨ht, branch hb⟩, .refl _⟩
  doLoop hb ht := ⟨List.forall_mem_append.2 ⟨ht, branch hb⟩, .refl _⟩
  forLoop hi ht hu hb := ⟨List.forall_mem_append.2 ⟨(chain hi).1, List.forall_mem_append.2 ⟨option ht,
    List.forall_mem_append.2 ⟨exprs hu, branch hb⟩⟩⟩, .refl _⟩
  switch hs hCases _ := ⟨List.forall_mem_append.2 ⟨hs, groups hCases⟩, .refl _⟩
  tryCatch hb _ hCatches := ⟨List.forall_mem_append.2 ⟨block hb, clauses hCatches⟩, .refl _⟩
  tryFinally hb hCatches hl :=
    ⟨List.forall_mem_append.2 ⟨block hb, List.forall_mem_append.2 ⟨clauses hCatches, block hl⟩⟩, .refl _⟩
  synchronized hl hb := ⟨List.forall_mem_append.2 ⟨hl, block hb⟩, .refl _⟩
  ret h := ⟨option h, .refl _⟩
  raise h := ⟨h, .refl _⟩
  labeled hb := by
    have hBody := branch hb
    exact ⟨hBody, .refl _⟩
  leafStmt {_ _ body} h := by
    cases body with
    | breakTo | continueTo | empty => exact ⟨List.forall_mem_nil _, .refl _⟩
    | _ => cases h

end TreeFacts.mentions

/-- Variables follow the rules of reading. -/
def TreeRules.mentions (source : List PlacedToken) : TreeRules source := ⟨.mentions, TreeFacts.mentions.laws source⟩

/-! What reading leaves of the scopes. -/

/-- The scope at the start once those that were opened later are closed, whether reading came to an end or
not. Variables may be declared in it, but none if it is still. -/
def ReaderState.Leads {α : Type} (still : Prop) (s : ReaderState) : EStateM.Result SyntaxError ReaderState α → Prop
  | .ok _ t => t.depth = s.depth ∧ ∃ vs, (still → vs = []) ∧ s.scope.Extended vs t.scope
  | .error _ t => s.depth ≤ t.depth ∧ ∃ vs, (still → vs = []) ∧ s.scope.Extended vs (t.scope.exits (t.depth - s.depth))

theorem Reader.Reads.leads {source : List PlacedToken} {R : TreeRules source} {pre : List PlacedToken → Prop}
    {s₀ : Scope} {still : Prop}
    {x : Reader α} (h : Reads R pre s₀ still post Q x) {s : ReaderState} (hBegins : Begins source pre s₀ s) :
    s.Leads still (x s) := by
  cases hRun : x s with
  | ok a t =>
    obtain ⟨-, vs, hMoves, -⟩ := h.ok s a t hBegins hRun
    exact ⟨hMoves.leads.1 rfl, hMoves.extended⟩
  | error e t =>
    obtain ⟨-, vs, hMoves⟩ := h.error s e t hBegins hRun
    exact hMoves.leads.2

namespace Grammar

open Reader

variable {s t : ReaderState}

/-- A statement that is no declaration declares nothing outside of its own scopes. -/
theorem phrase_leads (fuel : Nat) (s : ReaderState) :
    s.Leads (startsWithDeclaration s.ahead = false) (phrase fuel .statement s) := by
  have hReads : Reads (.mentions s.ahead) (· = s.ahead) s.scope (startsWithDeclaration s.ahead = false)
      (fun _ _ => True) (TreeFacts.mentions.stmt · s.scope) (phrase fuel .statement) := by
    cases fuel with
    | zero => exact .fail _
    | succ fuel =>
      exact .unread (statement_reads (m := 0) (fun q => (entered fuel q).later) (entered fuel .block)
        (entered fuel .expression) fun ahead hAhead hStill => hAhead ▸ hStill)
  exact hReads.leads ⟨rfl, List.suffix_refl _, rfl⟩

/-- The scope after a statement has the variables that its tree declares. -/
theorem phrase_extends {fuel : Nat} {body : Stmt}
    (h : phrase fuel .statement s = .ok body t) : s.scope.Extended body.declared t.scope := by
  have hReads : Reads (.mentions s.ahead) (fun _ => True) s.scope False (fun _ _ => True)
      (TreeFacts.mentions.stmt · s.scope) (phrase fuel .statement) := .unread (entered fuel .statement)
  obtain ⟨-, vs, -, hStmt⟩ := hReads.ok s body t ⟨rfl, List.suffix_refl _, trivial⟩ h
  exact (hStmt (fun _ => True) (fun _ _ => trivial) fun _ _ _ _ => trivial).2

/-- Statements that are read one after another, up to some point. -/
inductive ReadsInOrder : ReaderState → List Stmt → ReaderState → Prop
  | nil (s : ReaderState) : ReadsInOrder s [] s
  | cons {s r t : ReaderState} {first : Stmt} {body : List Stmt} {fuel : Nat}
      (h : phrase fuel .statement s = .ok first r) (rest : ReadsInOrder r body t) :
      ReadsInOrder s (first :: body) t

theorem ReadsInOrder.extended {body : List Stmt} (h : ReadsInOrder s body t) :
    s.scope.Extended (body.flatMap Stmt.declared) t.scope := by
  induction h with
  | nil s => exact .refl _
  | cons h _ ih => exact (phrase_extends h).trans ih

theorem ReadsInOrder.depth_eq {body : List Stmt} (h : ReadsInOrder s body t) : t.depth = s.depth := by
  induction h with
  | nil s => rfl
  | @cons s r t first body fuel h _ ih =>
    have hLeads := phrase_leads fuel s
    rw [h] at hLeads
    exact ih.trans hLeads.1

theorem fail_eq {α β : Type} (fault : ParseFault) (s : ReaderState) :
    ∃ e, (fail fault : Reader α) s = .error e s ∧ (fail fault : Reader β) s = .error e s := by
  simp only [fail, get_bind]
  cases (first s.ahead).token <;> exact ⟨_, rfl, rfl⟩

/-- Statements are read in order, up to the last one or to one that fails. -/
theorem statements_run (fuel : Nat) (stop : StatementsEnd) (found : List Stmt) (s : ReaderState) :
    ∃ body u, ReadsInOrder s body u ∧
      (∀ tree t, phrase fuel (.statements stop found) s = .ok tree t → tree = found.reverse ++ body ∧ t = u) ∧
      ∀ e t, phrase fuel (.statements stop found) s = .error e t → ∃ fuel, phrase fuel .statement u = .error e t := by
  induction fuel generalizing found s with
  | zero =>
    obtain ⟨e, hAll, hOne⟩ := fail_eq (α := List Stmt) (β := Stmt) .tooDeep s
    have hRun : phrase 0 (.statements stop found) s = .error e s := hAll
    rw [hRun]
    refine ⟨[], s, .nil s, nofun, fun e t hError => ⟨0, ?_⟩⟩
    cases hError
    exact hOne
  | succ fuel ih =>
    have hRun : phrase (fuel + 1) (.statements stop found) s =
        (if stop.includes (first s.ahead).token then (pure found.reverse : Reader (List Stmt))
        else phrase fuel .statement >>= fun body => phrase fuel (.statements stop (body :: found))) s := rfl
    rw [hRun]
    by_cases hStop : stop.includes (first s.ahead).token
    · have hPure : (pure found.reverse : Reader (List Stmt)) s = .ok found.reverse s := rfl
      rw [if_pos hStop, hPure]
      refine ⟨[], s, .nil s, fun tree t hOk => ?_, fun e t hError => ?_⟩
      · cases hOk
        exact ⟨(List.append_nil _).symm, rfl⟩
      · cases hError
    · rw [if_neg hStop]
      simp only [Bind.bind, EStateM.bind]
      cases hFirst : phrase fuel .statement s with
      | error e t =>
        refine ⟨[], s, .nil s, nofun, fun e' t' hError => ⟨fuel, ?_⟩⟩
        cases hError
        exact hFirst
      | ok body r =>
        obtain ⟨rest, u, hRest, hOk, hError⟩ := ih (body :: found) r
        refine ⟨body :: rest, u, .cons hFirst hRest, fun tree t h => ?_, hError⟩
        obtain ⟨rfl, hSame⟩ := hOk tree t h
        exact ⟨by simp, hSame⟩

end Grammar

/-! Whole texts. -/

open Reader Grammar

theorem readTokens_extended {tokens : List PlacedToken} {R : TreeRules tokens} {scope : Scope} {still : Prop}
    {reader : Reader α}
    (h : Reads R (fun _ => True) scope still post Q reader) (next : Nat) :
    ∃ vs, (still → vs = []) ∧ scope.Extended vs (readTokens reader tokens scope next).scope := by
  have hLeads := h.leads (s := ⟨tokens, scope, 0, next⟩) ⟨rfl, List.suffix_refl _, trivial⟩
  unfold readTokens EStateM.run
  cases hRun : reader ⟨tokens, scope, 0, next⟩ with
  | ok tree t =>
    rw [hRun] at hLeads
    obtain ⟨hDepth, vs, hNone, hScope⟩ := hLeads
    have hZero : t.depth = 0 := hDepth
    exact ⟨vs, hNone, by simpa [hZero, Scope.exits] using hScope⟩
  | error e t =>
    rw [hRun] at hLeads
    exact hLeads.2

/-- Reading that declares nothing gives back the scope that it was given. -/
theorem readTokens_scope {tokens : List PlacedToken} {R : TreeRules tokens} {scope : Scope} {reader : Reader α}
    (h : Reads R (fun _ => True) scope True post Q reader) (next : Nat) :
    (readTokens reader tokens scope next).scope = scope := by
  obtain ⟨vs, hNone, hScope⟩ := readTokens_extended h next
  obtain rfl := hNone trivial
  exact hScope.eq_of_nil

/-- Reading does not disturb the scope that it begins in, whether it comes to an end or stops at a fault
inside any number of other scopes. An expression or a member leaves it as it is. Statements leave the scopes
around it and the variables in it; there are more only of the declarations among those that were read in
order before the end or the fault, and of the statement with the fault if that is a declaration. -/
theorem reading_keeps_scope (tokens : List PlacedToken) (scope : Scope) (next : Nat) :
    (readTokens readExpression tokens scope next).scope = scope ∧
    (readTokens readMember tokens scope next).scope = scope ∧
    (readTokens readStatements tokens scope next).scope.around = scope.around ∧
    ∃ (body : List Stmt) (last : List Variable) (u : ReaderState),
      ReadsInOrder ⟨tokens, scope, 0, next⟩ body u ∧
      (∀ name, (readTokens readStatements tokens scope next).scope.own.lookup name =
        (scope.own.lookup name).or ((body.flatMap Stmt.declared ++ last).find? fun v => v.name == name)) ∧
      match (readTokens readStatements tokens scope next).result with
      | .ok tree => tree = body ∧ last = []
      | .error e => (∃ fuel t, phrase fuel .statement u = .error e t) ∧
        (last ≠ [] → startsWithDeclaration u.ahead) := by
  refine ⟨readTokens_scope (R := .mentions tokens) readExpression_reads next,
    readTokens_scope (R := .mentions tokens) readMember_reads next, ?_⟩
  obtain ⟨body, u, hBody, hOk, hError⟩ := statements_run (enough tokens) .input [] ⟨tokens, scope, 0, next⟩
  have hDepth : u.depth = 0 := hBody.depth_eq
  have hScope := hBody.extended
  have hRead : readStatements ⟨tokens, scope, 0, next⟩ =
    phrase (enough tokens) (.statements .input []) ⟨tokens, scope, 0, next⟩ := rfl
  unfold readTokens EStateM.run
  rw [hRead]
  cases hRun : phrase (enough tokens) (.statements .input []) ⟨tokens, scope, 0, next⟩ with
  | ok tree t =>
    obtain ⟨hTree, rfl⟩ := hOk tree t hRun
    have hSame : t.scope.exits t.depth = t.scope := by simp [hDepth, Scope.exits]
    dsimp only
    rw [hSame]
    refine ⟨hScope.around_eq, body, [], t, hBody, fun name => ?_, hTree, rfl⟩
    rw [List.append_nil]
    exact hScope.lookup_eq name
  | error e t =>
    obtain ⟨fuel, hFault⟩ := hError e t hRun
    have hLeads := phrase_leads fuel u
    rw [hFault] at hLeads
    obtain ⟨-, last, hNone, hLast⟩ := hLeads
    rw [hDepth, Nat.sub_zero] at hLast
    have hAll := hScope.trans hLast
    refine ⟨hAll.around_eq, body, last, u, hBody, hAll.lookup_eq, ⟨fuel, t, hFault⟩, fun hSome => ?_⟩
    cases hStarts : startsWithDeclaration u.ahead with
    | true => rfl
    | false => exact absurd (hNone hStarts) hSome

end JavaFragment
