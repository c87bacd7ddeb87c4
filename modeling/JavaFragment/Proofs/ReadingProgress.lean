import JavaFragment.Proofs.Lookahead
import JavaFragment.Proofs.ReadingScopes
/-!
Reading makes progress. Every phrase but the rest of one that has begun uses up a token, and none is entered again before
that. So the productions can be unfolded as often as the tokens ahead tell, and what stands at the bottom is never asked
for: every list and every chain that is read comes to an end, well formed or not.
-/
namespace JavaFragment

/-- From one state to another tokens were used up from the front, and the end of input was not. -/
def ReaderState.GoesTo (s t : ReaderState) : Prop := IsEnded t.ahead ∧ t.ahead <:+ s.ahead

/-- The end of input is not used up. -/
theorem Leaving.isEnded {ahead rest : List PlacedToken} (h : Leaving ahead rest) (hEnd : IsEnded ahead) :
    IsEnded rest := by
  obtain ⟨taken, rfl, hPlain⟩ := h
  induction taken with
  | nil => exact hEnd
  | cons placed taken ih =>
    obtain ⟨hPlaced, hTaken⟩ := List.forall_mem_cons.1 hPlain
    refine ih hTaken (hEnd.of_cons fun hEof => ?_).1
    rw [hEof] at hPlaced
    cases hPlaced

namespace Reader.Agree

variable {α : Type} {s : ReaderState} {R : TreeRules s.ahead} {m : Nat} {u : Bool} {v : α → Bool} {still : Prop}
  {post : α → List PlacedToken → Prop} {Q : (Variable → Prop) → α → Scope → Prop} {x y : Reader α}

/-- Readers that follow the rules of reading go forward. -/
theorem goesTo (h : Agree R m u v (fun _ => True) s.scope still post Q x y) (hEnd : IsEnded s.ahead) :
    (∀ a t, x s = .ok a t → s.GoesTo t) ∧ ∀ e t, x s = .error e t → s.GoesTo t := by
  refine ⟨fun a t hRun => ?_, fun e t hRun => ?_⟩
  · obtain ⟨-, vs, hMoves, -⟩ := h.ok s a t ⟨rfl, List.suffix_refl _, trivial⟩ hRun
    exact ⟨hMoves.leaving.isEnded hEnd, hMoves.leaving.suffix⟩
  · obtain ⟨-, vs, hMoves⟩ := h.error s e t ⟨rfl, List.suffix_refl _, trivial⟩ hRun
    exact ⟨hMoves.leaving.isEnded hEnd, hMoves.leaving.suffix⟩

/-- On all the tokens there are, readers that agree do the same, and it is known whether a token is used up. -/
theorem forward (h : Agree R (s.ahead.length + 1) false v (fun _ => True) s.scope still post Q x y)
    (hEnd : IsEnded s.ahead) :
    (∀ a t, x s = .ok a t → s.GoesTo t ∧ (v a = true → t.ahead.length < s.ahead.length)) ∧
      (∀ e t, x s = .error e t → s.GoesTo t) ∧ x s = y s := by
  obtain ⟨hOk, hError⟩ := h.goesTo hEnd
  obtain ⟨hSame, hLess⟩ := h.alike hEnd s ⟨rfl, List.suffix_refl _, trivial⟩ (Nat.lt_succ_self _)
  refine ⟨fun a t hRun => ⟨hOk a t hRun, fun hUsed => ?_⟩, hError, hSame⟩
  simpa [hUsed] using hLess a t hRun

end Reader.Agree

/-- Phrases that are more than the rest of one that has begun. -/
def Phrase.isSolid : Phrase → Bool
  | .binaryTail .. | .postfixTail _ | .lengths _ | .statements .. | .switchCases _ | .caseLabels .. | .catches _ => false
  | _ => true

theorem Grammar.Reading.forward {s : ReaderState} {p : Phrase} {x y : Reader p.Tree}
    (h : Reading (.mentions s.ahead) (s.ahead.length + 1) false p x y) (hEnd : IsEnded s.ahead) :
    (∀ tree t, x s = .ok tree t → s.GoesTo t ∧ (p.isSolid = true → t.ahead.length < s.ahead.length)) ∧
      (∀ e t, x s = .error e t → s.GoesTo t) ∧ x s = y s := by
  cases p with
  | lengths => exact Reader.Agree.forward (h (c := False) nofun) hEnd
  | caseLabels =>
    obtain ⟨hOk, hError, hSame⟩ := Reader.Agree.forward h hEnd
    exact ⟨fun tree t hRun => ⟨(hOk tree t hRun).1, nofun⟩, hError, hSame⟩
  | _ => exact Reader.Agree.forward h hEnd

/-- Reading makes progress. No phrase gives back tokens or passes the end of input, whether it is read or not; one that is
read and is more than the rest of another uses up a token, and so does a type. If the productions are unfolded once more
than the tokens ahead allow, what stands below is never asked for, so that all lists and chains come to an end. -/
theorem reading_makes_progress (s : ReaderState) (hEnd : IsEnded s.ahead) :
    (∀ p : Phrase, (∀ tree t, Grammar.read p s = .ok tree t → s.GoesTo t ∧
        (p.isSolid = true → t.ahead.length < s.ahead.length)) ∧
      (∀ e t, Grammar.read p s = .error e t → s.GoesTo t) ∧
      ∀ bottom, Grammar.unfolded bottom (Grammar.enough s.ahead) p s = Grammar.read p s) ∧
    (∀ type t, Reader.writtenType s = .ok type t → s.GoesTo t ∧ t.ahead.length < s.ahead.length) ∧
    (∀ e t, Reader.writtenType s = .error e t → s.GoesTo t) ∧
    (∀ fuel, s.ahead.length ≤ fuel → readThrows fuel s = readThrows s.ahead.length s) ∧
    (∀ member t, readMember s = .ok member t → s.GoesTo t) ∧ ∀ e t, readMember s = .error e t → s.GoesTo t := by
  have hType := (Reader.Agree.writtenType (R := .mentions s.ahead)).forward hEnd
  refine ⟨fun p => ?_, fun type t hRun => (hType.1 type t hRun).imp_right fun hLess => hLess rfl, hType.2.1,
    fun fuel hFuel => ?_, (readMember_reads (R := .mentions s.ahead)).goesTo hEnd⟩
  · have hPhrase (bottom : PhraseReader) := (Grammar.phrase_reads (R := .mentions s.ahead) bottom
      (show 16 * (s.ahead.length + 1) + Grammar.rank p < Grammar.enough s.ahead + 16 by
        have := Grammar.rank_le p
        unfold Grammar.enough
        omega)).forward hEnd
    obtain ⟨hOk, hError, -⟩ := hPhrase Grammar.read
    exact ⟨hOk, hError, fun bottom => (hPhrase bottom).2.2.symm⟩
  · obtain ⟨length, hLength⟩ : ∃ length, s.ahead.length = length + 1 := by
      obtain ⟨body, last, hAhead, -⟩ := hEnd
      exact ⟨body.length, by simp [hAhead]⟩
    obtain ⟨fuel, rfl⟩ : ∃ n, fuel = n + 1 := ⟨fuel - 1, by omega⟩
    have hThrows : Reader.Agree (.mentions s.ahead) (s.ahead.length + 1) false (fun _ => false) (fun _ => True) s.scope
      True (fun _ _ => True) (fun _ _ _ => True) (readThrows (fuel + 1)) (readThrows (length + 1)) :=
      readThrows_succ (readThrows_reads (by omega) (by omega))
    rw [(hThrows.forward hEnd).2.2, hLength]

/-- The text `f(` stops at its end. -/
theorem reading_makes_progress_unclosed_call :
    let s : ReaderState := ⟨[⟨.ident "f", ⟨1, 1⟩⟩, ⟨.symbol .leftParen, ⟨1, 2⟩⟩, ⟨.eof, ⟨1, 3⟩⟩], .empty, 0, 0⟩
    IsEnded s.ahead ∧ ∃ e t, Grammar.read .statement s = .error e t ∧ t.ahead = [⟨.eof, ⟨1, 3⟩⟩] ∧
      ∀ bottom, Grammar.unfolded bottom (Grammar.enough s.ahead) .statement s = .error e t := by
  intro s
  have hEnd : IsEnded s.ahead := ⟨s.ahead.dropLast, ⟨1, 3⟩, rfl, by simp [s]⟩
  obtain ⟨-, -, hBottom⟩ := (reading_makes_progress s hEnd).1 .statement
  have hRun : ∃ e t, Grammar.read .statement s = .error e t ∧ t.ahead = [⟨.eof, ⟨1, 3⟩⟩] := ⟨_, _, rfl, rfl⟩
  obtain ⟨e, t, hRun, hAhead⟩ := hRun
  exact ⟨hEnd, e, t, hRun, hAhead, fun bottom => (hBottom bottom).trans hRun⟩

end JavaFragment
