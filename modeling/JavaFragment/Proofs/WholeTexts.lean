import JavaFragment.Proofs.ReadingScopes
import JavaFragment.Proofs.Tokens
/-!
A text is read as a whole or refused. Reading that succeeds has used up every token before the end of input, and none
of them is malformed. Reading that fails has used up no malformed token either, and where it stops at one it reports
what is wrong with that token and where it stands.
-/
namespace JavaFragment

open Reader

/-- How a reader deals with the tokens of a text. -/
structure UsesUp {α : Type} (reader : Reader α) (source : String) (scope : Scope) (next : Nat) : Prop where
  ended : ∀ tree t, reader ⟨tokenize source, scope, 0, next⟩ = .ok tree t →
    (∃ last, t.ahead = [⟨.eof, last⟩] ∧ [⟨.eof, last⟩] <:+ tokenize source) ∧
      ∀ fault, ¬ TokenAmong (tokenize source) (.bad fault)
  stopped : ∀ e t, reader ⟨tokenize source, scope, 0, next⟩ = .error e t → Leaving (tokenize source) t.ahead ∧
    ∀ fault position rest, t.ahead = ⟨.bad fault, position⟩ :: rest → e = .at position (.lexical fault)
  refused : ∀ fault, TokenAmong (tokenize source) (.bad fault) →
    ∃ e, (readSource reader source scope next).result = .error e

/-- The end of input stands once, so that nothing is left after it, and what was used up before it is well formed. -/
theorem Leaving.ends {source : String} {ahead : List PlacedToken} (h : Leaving (tokenize source) ahead)
    (hEnd : (first ahead).token = .eof) :
    (∃ last, ahead = [⟨.eof, last⟩] ∧ [⟨.eof, last⟩] <:+ tokenize source) ∧
      ∀ fault, ¬ TokenAmong (tokenize source) (.bad fault) := by
  obtain ⟨taken, hSplit, hPlain⟩ := h
  obtain ⟨body, last, hTokens, hScanned⟩ := tokenize_scanned source
  have hRest : ahead = [⟨.eof, last⟩] := by
    rcases List.append_eq_append_iff.1 (hSplit.symm.trans hTokens) with ⟨more, rfl, hMore⟩ | ⟨more, rfl, hMore⟩
    · cases more with
      | nil => exact hMore
      | cons placed more =>
        -- A token before the last one is no end of input.
        subst hMore
        have hToken := hScanned placed (by simp)
        rw [show placed.token = .eof from hEnd] at hToken
        exact hToken.elim
    · cases more with
      | nil => exact hMore.symm
      | cons placed more =>
        -- The end of input is not used up.
        obtain rfl : placed = ⟨.eof, last⟩ := (List.cons.inj hMore).1.symm
        cases hPlain ⟨.eof, last⟩ (by simp)
  refine ⟨⟨last, hRest, hTokens ▸ List.suffix_append body _⟩, ?_⟩
  rintro fault ⟨placed, hMem, hBad⟩
  rw [hSplit, hRest, List.mem_append, List.mem_singleton] at hMem
  rcases hMem with hTaken | rfl
  · have hToken := hPlain placed hTaken
    rw [hBad] at hToken
    cases hToken
  · cases hBad

/-- A reader that follows the rules of reading up to the end of input uses up what it reads. -/
theorem Reader.Reads.usesUp {α : Type} {source : String} {R : TreeRules (tokenize source)} {scope : Scope} {still : Prop}
    {Q : (Variable → Prop) → α → Scope → Prop} {reader : Reader α}
    (h : Reads R (fun _ => True) scope still (fun _ ahead => (first ahead).token = .eof) Q reader) (next : Nat) :
    UsesUp reader source scope next := by
  have hEnded (tree : α) (t : ReaderState) (hRun : reader ⟨tokenize source, scope, 0, next⟩ = .ok tree t) :
      (∃ last, t.ahead = [⟨.eof, last⟩] ∧ [⟨.eof, last⟩] <:+ tokenize source) ∧
        ∀ fault, ¬ TokenAmong (tokenize source) (.bad fault) := by
    obtain ⟨hEnd, vs, hMoves, -⟩ := h.ok _ tree t ⟨rfl, List.suffix_refl _, trivial⟩ hRun
    exact hMoves.leaving.ends hEnd
  refine ⟨hEnded, fun e t hRun => ?_, fun fault hBad => ?_⟩
  · obtain ⟨hBlames, vs, hMoves⟩ := h.error _ e t ⟨rfl, List.suffix_refl _, trivial⟩ hRun
    refine ⟨hMoves.leaving, fun fault position rest hAhead => ?_⟩
    rw [hAhead] at hBlames
    exact hBlames fault rfl
  · unfold readSource readTokens EStateM.run
    cases hRun : reader ⟨tokenize source, scope, 0, next⟩ with
    | ok tree t => exact absurd hBad ((hEnded tree t hRun).2 fault)
    | error e t => exact ⟨e, rfl⟩

/-- Statements, expressions and members that are read end where their text does, and no token of the text is
malformed. -/
theorem reading_uses_up (source : String) (scope : Scope) (next : Nat) :
    UsesUp readStatements source scope next ∧ UsesUp readExpression source scope next ∧
      UsesUp readMember source scope next :=
  ⟨(readStatements_reads (R := .mentions _)).usesUp next, (readExpression_reads (R := .mentions _)).usesUp next,
    (readMember_reads (R := .mentions _)).usesUp next⟩

end JavaFragment
