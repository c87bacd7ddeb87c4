import JavaFragment.Proofs.ReadingScopes
/-!
Variables are told apart by their numbers. Whatever text is read, a variable that it declares gets a
number that no other variable has, and a tree mentions only variables that were declared, those of
texts read before included.
-/
namespace JavaFragment

variable {vars : List Variable}

/-- A variable is the one that was declared under its number. -/
def Variable.KnownIn (vars : List Variable) (v : Variable) : Prop := vars[v.number]? = some v

theorem Variable.KnownIn.later {later : List Variable} {v : Variable} (h : v.KnownIn vars)
    (hLater : vars <+: later) : v.KnownIn later := by
  obtain ⟨more, rfl⟩ := hLater
  have hLt : v.number < vars.length := (List.getElem?_eq_some_iff.1 h).1
  exact (List.getElem?_append_left hLt).trans h

theorem Scope.All.exits {P : Variable → Prop} {s : Scope} (h : s.All P) (depth : Nat) : (s.exits depth).All P := by
  induction depth generalizing s with
  | zero => exact h
  | succ depth ih => exact ih h.exit

theorem Scope.All.later {later : List Variable} {s : Scope} (h : s.All (Variable.KnownIn vars))
    (hLater : vars <+: later) : s.All (Variable.KnownIn later) :=
  fun frame hFrame entry hEntry => (h frame hFrame entry hEntry).later hLater

/-- Variables are declared under the numbers that follow those of the variables at the start. -/
theorem ReaderState.Moves.numbers {ended : Bool} {still : Prop} {s t : ReaderState} {vs : List Variable}
    (h : s.Moves ended still vs t) (hNext : s.next = vars.length) :
    t.next = (vars ++ vs).length ∧ ∀ v ∈ vs, v.KnownIn (vars ++ vs) := by
  induction h generalizing vars with
  | tokens => simpa using hNext
  | declare _ _ hNumber => simp [Variable.KnownIn, hNumber, hNext]
  | closed _ ih => exact ih hNext
  | inside _ ih => exact ih hNext
  | trans _ _ ih ih' =>
    obtain ⟨hMiddle, hvs⟩ := ih hNext
    obtain ⟨hLast, hws⟩ := ih' hMiddle
    rw [← List.append_assoc]
    refine ⟨hLast, List.forall_mem_append.2 ⟨fun v hv => ?_, hws⟩⟩
    exact (hvs v hv).later (List.prefix_append ..)

/-- Reading of trees that mention variables in scope and those declared on the way. -/
def Reader.Mentions {α : Type} (out : α → List Variable) (reader : Reader α) : Prop :=
  ∀ (tokens : List PlacedToken) (scope : Scope), Reader.Reads (.mentions tokens) (fun _ => True) scope False
    (fun _ _ => True) (fun P tree _ => ∀ v ∈ out tree, P v) reader

theorem readExpression_mentions : readExpression.Mentions Expr.variables := fun _ _ =>
  (readExpression_reads.loosen False).mono (fun _ h => h) (fun _ _ _ => trivial) fun _ _ _ he => he

theorem readStatements_mentions : readStatements.Mentions Stmt.variablesOf := fun _ _ =>
  readStatements_reads.mono (fun _ h => h) (fun _ _ _ => trivial) fun _ _ _ hBody => (TreeFacts.mentions.chain hBody).1

/-- Whatever is read, what it mentions and what stays in scope was declared under its number. -/
theorem readSource_numbers {α : Type} {reader : Reader α} {out : α → List Variable}
    (hReader : reader.Mentions out) (source : String) {scope : Scope}
    (hScope : scope.All (Variable.KnownIn vars)) :
    ∃ later, vars <+: later ∧
      (readSource reader source scope vars.length).next = later.length ∧
      (readSource reader source scope vars.length).scope.All (Variable.KnownIn later) ∧
      ∀ tree, (readSource reader source scope vars.length).result = .ok tree → ∀ v ∈ out tree, v.KnownIn later := by
  have hLater (vs : List Variable) : scope.All (Variable.KnownIn (vars ++ vs)) := hScope.later (List.prefix_append ..)
  have hReads := hReader (tokenize source) scope
  unfold readSource readTokens EStateM.run
  cases hRun : reader ⟨tokenize source, scope, 0, vars.length⟩ with
  | ok tree t =>
    obtain ⟨-, vs, hMoves, hOut⟩ := hReads.ok _ tree t ⟨rfl, List.suffix_refl _, trivial⟩ hRun
    obtain ⟨hNext, hvs⟩ := hMoves.numbers rfl
    refine ⟨vars ++ vs, List.prefix_append .., hNext, (hMoves.all (hLater vs) hvs).exits _, fun tree' hTree => ?_⟩
    cases hTree
    exact hOut _ hvs (hLater vs)
  | error e t =>
    obtain ⟨-, vs, hMoves⟩ := hReads.error _ e t ⟨rfl, List.suffix_refl _, trivial⟩ hRun
    obtain ⟨hNext, hvs⟩ := hMoves.numbers rfl
    refine ⟨vars ++ vs, List.prefix_append .., hNext, (hMoves.all (hLater vs) hvs).exits _, fun tree hTree => ?_⟩
    cases hTree

end JavaFragment
