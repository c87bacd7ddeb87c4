import JavaFragment.Syntax.Lexer
import Mathlib.Data.List.Basic
/-!
The tokens of a text. Every token takes a character at least, so that there is fuel for all of them, and a text is
read token by token: the first one is scanned where the blanks end, and the others are those of what follows it. The
end of input is marked once, after all other tokens.
-/
namespace JavaFragment

/-- What a text can have before its end. A name begins with a letter, and an integer literal that is not long fits in
32 bits or is one more than the largest such number. -/
def Token.Scanned : Token → Prop
  | .eof => False
  | .ident name => ∃ c rest, name = String.ofList (c :: rest) ∧ CharClass.isNameStart c = true
  | .int value => -2147483648 ≤ value.toInt ∧ value.toInt ≤ 2147483648
  | _ => True

namespace Lexer

variable {c : Char}

/-! Every token takes a character. -/

theorem decimalNumber_width_pos {rest : List Char} (h : c.isDigit = true ∨ c = '.') :
    0 < (decimalNumber (c :: rest)).width := by
  unfold decimalNumber
  extract_lets whole after pointed fraction after' exponent after'' width value marked isLong
  have hWidth : 0 < width := by
    rcases h with hDigit | rfl
    · have : 0 < whole.width := by simp [whole, digitRun, hDigit]
      omega
    · have hPointed : pointed = true := by simp [pointed, after, whole, digitRun]
      simp only [width, hPointed, if_true, Nat.add_assoc, Nat.add_pos_iff_pos_or_pos, Nat.one_pos, true_or, or_true]
  split_ifs
  all_goals first | exact hWidth | exact Nat.succ_pos _

theorem number_width_pos {rest : List Char} (h : c.isDigit = true ∨ c = '.') : 0 < (number (c :: rest)).width := by
  unfold number
  split
  · split
    · exact Nat.succ_pos _
    · next hChars _ => exact hChars ▸ decimalNumber_width_pos h
  · exact decimalNumber_width_pos h

theorem symbol?_width_pos {chars : List Char} {s : Scan Token} (h : symbol? chars = some s) : 0 < s.width := by
  obtain ⟨entry, hFound, rfl⟩ := Option.map_eq_some_iff.1 h
  have hTable : ∀ entry ∈ Symbol.table, 0 < entry.1.length := by decide
  exact hTable entry (List.mem_of_find?_eq_some hFound)

theorem scan_width_pos (c : Char) (rest : List Char) : 0 < (scan (c :: rest)).width := by
  unfold scan
  dsimp only
  split_ifs with hNumber
  · refine number_width_pos ?_
    simp only [Bool.or_eq_true, Bool.and_eq_true, beq_iff_eq] at hNumber
    exact hNumber.imp_right And.left
  · exact Nat.succ_pos _
  · exact Nat.succ_pos _
  · exact Nat.succ_pos _
  · split
    · next hSymbol => exact symbol?_width_pos hSymbol
    · exact Nat.one_pos

theorem advance_fst (n : Nat) (chars : List Char) (pos : Position) : (advance n chars pos).1 = chars.drop n := by
  fun_induction advance n chars pos with
  | case1 n c rest pos ih => exact ih
  | case2 n chars pos hOther =>
    cases n with
    | zero => rfl
    | succ n =>
      cases chars with
      | nil => rfl
      | cons c rest => exact absurd rfl (hOther n c rest rfl)

theorem skip_length_le (gap : Gap) (chars : List Char) (pos : Position) :
    (skip gap chars pos).1.length ≤ chars.length := by
  fun_induction skip gap chars pos <;> grind

/-! Token by token. -/

variable {c : Char} {chars rest : List Char} {pos start : Position}

/-- What follows the first token is shorter than the text. -/
theorem length_after_lt (h : skip .blanks chars pos = (c :: rest, start)) :
    ((c :: rest).drop (scan (c :: rest)).width).length < chars.length := by
  have hSkip := skip_length_le .blanks chars pos
  have hScan := scan_width_pos c rest
  rw [h] at hSkip
  simp only [List.length_drop, List.length_cons] at hSkip ⊢
  omega

/-- The tokens of characters from a position on. -/
def tokensAt (chars : List Char) (pos : Position) : List PlacedToken :=
  (tokensOnto (chars.length + 1) chars pos #[]).toList

/-- Fuel for each character and the end suffices, and what was found before stays in front. -/
theorem tokensOnto_eq {fuel : Nat} (hFuel : chars.length < fuel) (pos : Position) (found : Array PlacedToken) :
    (tokensOnto fuel chars pos found).toList = found.toList ++ tokensAt chars pos := by
  induction fuel using Nat.strongRecOn generalizing chars pos found with
  | ind fuel ih =>
    obtain ⟨fuel, rfl⟩ : ∃ n, fuel = n + 1 := ⟨fuel - 1, by omega⟩
    rw [tokensAt, tokensOnto, tokensOnto]
    rcases hSkip : skip .blanks chars pos with ⟨_ | ⟨c, rest⟩, start⟩
    · simp
    · have hLess := length_after_lt hSkip
      rw [← advance_fst _ _ start] at hLess
      dsimp only
      rw [ih fuel (by omega) (by omega), ih chars.length (by omega) hLess]
      simp

theorem tokensAt_end (h : skip .blanks chars pos = ([], start)) : tokensAt chars pos = [⟨.eof, start⟩] := by
  rw [tokensAt, tokensOnto, h]
  rfl

theorem tokensAt_next (h : skip .blanks chars pos = (c :: rest, start)) :
    tokensAt chars pos = ⟨(scan (c :: rest)).found, start⟩ ::
      tokensAt ((c :: rest).drop (scan (c :: rest)).width) (advance (scan (c :: rest)).width (c :: rest) start).2 := by
  have hLess := length_after_lt h
  rw [tokensAt, tokensOnto, h]
  rw [← advance_fst _ _ start] at hLess ⊢
  dsimp only
  rw [tokensOnto_eq hLess]
  rfl

/-- A text that is scanned as one token where it stands. -/
theorem tokensAt_text {text : List Char} {t : Token} (hText : text ≠ [])
    (hSkip : skip .blanks (text ++ rest) pos = (text ++ rest, pos)) (hScan : scan (text ++ rest) = ⟨t, text.length⟩) :
    tokensAt (text ++ rest) pos = ⟨t, pos⟩ :: tokensAt rest (advance text.length (text ++ rest) pos).2 := by
  obtain ⟨c, text, rfl⟩ := List.exists_cons_of_ne_nil hText
  rw [List.cons_append] at hSkip hScan ⊢
  rw [tokensAt_next hSkip, hScan, ← List.cons_append, List.drop_left]

/-- A text without line breaks moves the position on in its line. -/
theorem advance_snd {text : List Char} (h : '\n' ∉ text) (rest : List Char) (pos : Position) :
    (advance text.length (text ++ rest) pos).2 = ⟨pos.line, pos.column + text.length⟩ := by
  induction text generalizing pos with
  | nil => cases rest <;> rfl
  | cons c text ih =>
    rw [List.mem_cons, not_or] at h
    change (advance text.length (text ++ rest) (pos.next c)).2 = _
    rw [ih h.2, Position.next, if_neg (by simpa using Ne.symm h.1), List.length_cons, Nat.add_right_comm, Nat.add_assoc]

theorem skip_start (hBlank : CharClass.isBlank c = false) (hSlash : c ≠ '/') :
    skip .blanks (c :: rest) pos = (c :: rest, pos) := by
  unfold skip
  split <;> simp_all

/-! What tokens there are. -/

theorem toInt_intPattern (n : Nat) : (intPattern n).toInt = (n : Int).bmod 4294967296 := by simp [intPattern]

theorem intPattern_scanned (n : Nat) : (Token.int (intPattern n)).Scanned := by
  have hLow := Int.le_bmod (x := n) (m := 4294967296) (by decide)
  have hHigh := Int.bmod_lt (x := n) (m := 4294967296) (by decide)
  rw [← toInt_intPattern] at hLow hHigh
  exact ⟨hLow, Int.le_of_lt hHigh⟩

theorem integerToken_scanned (digits : List Char) (isLong : Bool) : (integerToken digits isLong).Scanned := by
  unfold integerToken
  extract_lets fault decimal
  split
  · extract_lets octal value
    split_ifs
    · trivial
    · trivial
    · exact intPattern_scanned value
    · trivial
  · split_ifs with _ hInt
    · trivial
    · have hLe : decimal ≤ 2147483648 := by simp_all
      have hValue : (Int64.ofNat decimal).toInt = decimal := Int64.toInt_ofNat_of_lt (by omega)
      refine ⟨?_, ?_⟩ <;> rw [hValue] <;> omega
    · trivial

theorem hexNumber_scanned (chars : List Char) : (hexNumber chars).found.Scanned := by
  unfold hexNumber
  extract_lets digits isLong value token
  simp only [token]
  split_ifs
  · trivial
  · trivial
  · exact intPattern_scanned value
  · trivial

theorem decimalNumber_scanned (chars : List Char) : (decimalNumber chars).found.Scanned := by
  unfold decimalNumber
  extract_lets whole rest pointed fraction rest' exponent rest'' width value marked isLong
  split
  · cases value <;> trivial
  · split
    · cases value <;> trivial
    · exact integerToken_scanned _ _

theorem number_scanned (chars : List Char) : (number chars).found.Scanned := by
  unfold number
  split
  · split
    · exact hexNumber_scanned _
    · exact decimalNumber_scanned _
  · exact decimalNumber_scanned _

theorem stringBody_scanned (fuel : Nat) (chars : List Char) (read : List UInt16) (width : Nat) :
    (stringBody fuel chars read width).found.Scanned := by
  fun_induction stringBody fuel chars read width with
  | case5 | case7 => assumption
  | _ => trivial

theorem charBody_scanned (chars : List Char) : (charBody chars).found.Scanned := by
  unfold charBody
  dsimp only
  split
  · trivial
  · split <;> trivial

theorem wordToken_scanned (h : CharClass.isNameStart c = true) (rest : List Char) :
    (wordToken (String.ofList (c :: rest))).Scanned := by
  unfold wordToken
  split
  · trivial
  · split
    · trivial
    · split
      · trivial
      · exact ⟨c, rest, rfl, h⟩

theorem scan_scanned (c : Char) (rest : List Char) : (scan (c :: rest)).found.Scanned := by
  unfold scan
  dsimp only
  split_ifs with hNumber hStart
  · exact number_scanned _
  · exact wordToken_scanned hStart _
  · exact stringBody_scanned ..
  · exact charBody_scanned _
  · split
    · next hSymbol =>
      obtain ⟨entry, -, rfl⟩ := Option.map_eq_some_iff.1 hSymbol
      trivial
    · trivial

theorem tokensAt_scanned (chars : List Char) (pos : Position) :
    ∃ body last, tokensAt chars pos = body ++ [⟨.eof, last⟩] ∧ ∀ placed ∈ body, placed.token.Scanned := by
  induction hLength : chars.length using Nat.strongRecOn generalizing chars pos with
  | ind n ih =>
    rcases hSkip : skip .blanks chars pos with ⟨_ | ⟨c, rest⟩, start⟩
    · exact ⟨[], start, tokensAt_end hSkip, List.forall_mem_nil _⟩
    · obtain ⟨body, last, hBody, hAll⟩ := ih _ (hLength ▸ length_after_lt hSkip) _ _ rfl
      refine ⟨⟨(scan (c :: rest)).found, start⟩ :: body, last, ?_, List.forall_mem_cons.2 ⟨scan_scanned c rest, hAll⟩⟩
      rw [tokensAt_next hSkip, hBody]
      rfl

end Lexer

theorem tokenize_eq_tokensAt (source : String) : tokenize source = Lexer.tokensAt source.toList ⟨1, 1⟩ := rfl

/-- The end of input stands once, after all other tokens. -/
theorem tokenize_scanned (source : String) :
    ∃ body last, tokenize source = body ++ [⟨.eof, last⟩] ∧ ∀ placed ∈ body, placed.token.Scanned :=
  Lexer.tokensAt_scanned source.toList ⟨1, 1⟩

end JavaFragment
