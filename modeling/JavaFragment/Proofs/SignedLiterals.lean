import JavaFragment.Proofs.Numerals
import JavaFragment.Proofs.Precedence
/-!
Decimal literals as whole expressions, with and without a minus sign. A literal is the number that it spells if the
number is one of its width. The number one past the largest is kept for the sign that may come before it, and is
refused without one only if the literal is an `int`.
-/
namespace JavaFragment

open Reader

namespace Grammar

/-! An expression of one operand. -/

section Operands

variable {s t : ReaderState} {ahead tokens : List PlacedToken} {e : Expr} {last : Position} {fault : SyntaxError}
  {scope : Scope} {next : Nat}

theorem run_bind_error {α β : Type} {x : Reader α} {f : α → Reader β} (h : x s = .error fault t) :
    (x >>= f) s = .error fault t := by
  simp only [Bind.bind, EStateM.bind, h]

theorem expression_of_unary {n : Nat}
    (h : phrase (n + 1) .unary { s with ahead := ahead } = .ok e { s with ahead := [⟨.eof, last⟩] }) :
    phrase (n + 4) .expression { s with ahead := ahead } = .ok e { s with ahead := [⟨.eof, last⟩] } := by
  have hBinary : phrase (n + 2) (.binary 1) { s with ahead := ahead } = .ok e { s with ahead := [⟨.eof, last⟩] } :=
    (run_bind h).trans rfl
  have hTernary : phrase (n + 3) .ternary { s with ahead := ahead } = .ok e { s with ahead := [⟨.eof, last⟩] } :=
    (run_bind hBinary).trans rfl
  exact (run_bind hTernary).trans rfl

theorem expression_of_unary_error {n : Nat} (h : phrase (n + 1) .unary s = .error fault t) :
    phrase (n + 4) .expression s = .error fault t := by
  have hBinary : phrase (n + 2) (.binary 1) s = .error fault t := run_bind_error h
  have hTernary : phrase (n + 3) .ternary s = .error fault t := run_bind_error hBinary
  exact run_bind_error hTernary

/-- An operand that is the whole input. -/
theorem readExpression_of_unary
    (h : ∀ n, phrase (n + 3) .unary ⟨tokens, scope, 0, next⟩ = .ok e ⟨[⟨.eof, last⟩], scope, 0, next⟩) :
    (readTokens readExpression tokens scope next).result = .ok e := by
  have hRead : read .expression ⟨tokens, scope, 0, next⟩ = .ok e ⟨[⟨.eof, last⟩], scope, 0, next⟩ :=
    @expression_of_unary ⟨tokens, scope, 0, next⟩ tokens e last (16 * tokens.length + 12) (h _)
  have hRun : readExpression.run ⟨tokens, scope, 0, next⟩ = .ok e ⟨[⟨.eof, last⟩], scope, 0, next⟩ :=
    (run_bind hRead).trans rfl
  rw [readTokens, hRun]

/-- An operand that cannot be read. -/
theorem readExpression_of_unary_error (h : ∀ n, phrase (n + 3) .unary ⟨tokens, scope, 0, next⟩ = .error fault t) :
    (readTokens readExpression tokens scope next).result = .error fault := by
  have hRead : read .expression ⟨tokens, scope, 0, next⟩ = .error fault t :=
    @expression_of_unary_error _ _ _ (16 * tokens.length + 12) (h _)
  have hRun : readExpression.run ⟨tokens, scope, 0, next⟩ = .error fault t := run_bind_error hRead
  rw [readTokens, hRun]

end Operands

end Grammar

namespace Lexer.DecimalLiteral

/-! Literals with a sign. -/

variable (l : DecimalLiteral) (negative : Bool)

def signedText : List Char := if negative then '-' :: l.text else l.text

def signedValue : Int := if negative then -l.value else l.value

/-- The number is one of the literal's width. -/
def InRange : Prop := -(l.limit : Int) ≤ l.signedValue negative ∧ l.signedValue negative < l.limit

/-- What a literal with a value is read as. -/
def tree (value : Int64) : Expr := if l.suffix.isLong then .long value else .int value .int

theorem limit_pos : 0 < l.limit := by
  unfold limit
  split <;> decide

theorem limit_le : l.limit ≤ 9223372036854775808 := by
  unfold limit
  split <;> decide

variable {l negative}

theorem newline_not_mem : '\n' ∉ l.text := by
  have hSuffix : '\n' ∉ l.suffix.text := by cases l.suffix <;> decide
  have hDigits : '\n' ∉ l.digits := fun h => by cases l.isDigits _ h
  simp [text, hDigits, hSuffix]

theorem tokensAt_literal (pos : Position) :
    tokensAt l.text pos = [⟨l.token, pos⟩, ⟨.eof, ⟨pos.line, pos.column + l.text.length⟩⟩] := by
  have hRest : IsParted [] := by rintro c ⟨⟩
  have hSome : l.text ≠ [] := List.append_ne_nil_of_left_ne_nil l.nonempty _
  have hTokens := tokensAt_text hSome (l.skip_text [] pos) (l.scan_text hRest)
  rw [advance_snd newline_not_mem, List.append_nil] at hTokens
  exact hTokens

theorem scan_minus {c : Char} (rest : List Char) (h : c.isDigit = true) :
    scan ('-' :: c :: rest) = ⟨.symbol .minus, 1⟩ := by
  have hMinus : ('-' == c) = false := beq_eq_false_iff_ne.2 (by rintro rfl; cases h)
  have hAssign : ('=' == c) = false := beq_eq_false_iff_ne.2 (by rintro rfl; cases h)
  have hSymbol : symbol? ('-' :: c :: rest) = some ⟨.symbol .minus, 1⟩ := by
    simp [symbol?, Symbol.table, List.isPrefixOf, hMinus, hAssign]
    rfl
  dsimp only [scan]
  rw [hSymbol]
  rfl

theorem tokenize_signed : tokenize (String.ofList (l.signedText negative)) = if negative then
      [⟨.symbol .minus, ⟨1, 1⟩⟩, ⟨l.token, ⟨1, 2⟩⟩, ⟨.eof, ⟨1, 2 + l.text.length⟩⟩]
    else [⟨l.token, ⟨1, 1⟩⟩, ⟨.eof, ⟨1, 1 + l.text.length⟩⟩] := by
  rw [tokenize_eq_tokensAt, String.toList_ofList]
  cases negative with
  | false => exact tokensAt_literal ⟨1, 1⟩
  | true =>
    obtain ⟨c, digits, hDigits⟩ := List.exists_cons_of_ne_nil l.nonempty
    have hScan : scan (['-'] ++ l.text) = ⟨.symbol .minus, 1⟩ := by
      rw [text, hDigits]
      exact scan_minus _ (l.isDigits c (by simp [hDigits]))
    have hSkip : skip .blanks (['-'] ++ l.text) ⟨1, 1⟩ = (['-'] ++ l.text, ⟨1, 1⟩) := rfl
    have hTokens := tokensAt_text (List.cons_ne_nil '-' []) hSkip hScan
    rw [advance_snd (by decide), tokensAt_literal] at hTokens
    exact hTokens

theorem toInt_ofNat_of_lt (h : l.value < l.limit) : (Int64.ofNat l.value).toInt = l.value :=
  Int64.toInt_ofNat_of_lt (Nat.lt_of_lt_of_le h l.limit_le)

theorem toInt_neg_ofNat (h : l.value ≤ l.limit) : (-Int64.ofNat l.value).toInt = -l.value := by
  have hLimit := l.limit_le
  have hBits : (Int64.ofNat l.value).toInt = (l.value : Int).bmod 18446744073709551616 := by simp
  rw [Int64.toInt_neg, hBits]
  change (-(l.value : Int).bmod 18446744073709551616).bmod 18446744073709551616 = _
  rw [Int.bmod_neg_bmod]
  exact Int.bmod_eq_of_le (by omega) (by omega)

/-! Reading literals. -/

section Reading

open Grammar

variable {p start last : Position} {scope : Scope} {next : Nat}

theorem read_negative (h : l.value ≤ l.limit) :
    (readTokens readExpression [⟨.symbol .minus, start⟩, ⟨l.token, p⟩, ⟨.eof, last⟩] scope next).result =
      .ok (l.tree (-Int64.ofNat l.value)) := by
  refine @readExpression_of_unary _ _ last _ _ fun n => ?_
  rw [token_eq, if_pos h, tree]
  cases l.suffix.isLong <;> rfl

/-- Without a sign a number can be too large for an `int` only. -/
theorem read_positive (h : l.value ≤ l.limit) (hInt : l.suffix.isLong = true ∨ l.value < l.limit) :
    (readTokens readExpression [⟨l.token, p⟩, ⟨.eof, last⟩] scope next).result =
      .ok (l.tree (Int64.ofNat l.value)) := by
  refine @readExpression_of_unary _ _ last _ _ fun n => ?_
  rw [token_eq, if_pos h, tree]
  cases hLong : l.suffix.isLong with
  | true => rfl
  | false =>
    have hFits : Int64.ofNat l.value ≤ 2147483647 := by
      have hLess : l.value < l.limit := by simpa [hLong] using hInt
      have hLimit : l.limit = 2147483648 := by simp [limit, hLong]
      rw [Int64.le_iff_toInt_le, toInt_ofNat_of_lt hLess]
      change (l.value : Int) ≤ 2147483647
      omega
    exact @phrase_unary ⟨[], scope, 0, next⟩ [] ⟨.eof, last⟩ (.int p (Int64.ofNat l.value) hFits) (n + 1) rfl

theorem read_positive_int (h : l.value = l.limit) (hInt : l.suffix.isLong = false) :
    (readTokens readExpression [⟨l.token, p⟩, ⟨.eof, last⟩] scope next).result =
      .error (.at p (.integerTooLarge 2147483648)) := by
  have hLimit : l.limit = 2147483648 := by simp [limit, hInt]
  refine @readExpression_of_unary_error ⟨[⟨l.token, p⟩, ⟨.eof, last⟩], scope, 0, next⟩ _ _ _ _ fun n => ?_
  rw [token_eq, if_pos (Nat.le_of_eq h), hInt, h, hLimit]
  rfl

/-- A malformed literal is refused, with or without a sign before it. -/
theorem read_malformed (start : Position) (h : l.limit < l.value) :
    (readTokens readExpression [⟨.symbol .minus, start⟩, ⟨l.token, p⟩, ⟨.eof, last⟩] scope next).result =
      .error (.at p (.lexical (.integerTooLarge (String.ofList l.digits)))) ∧
    (readTokens readExpression [⟨l.token, p⟩, ⟨.eof, last⟩] scope next).result =
      .error (.at p (.lexical (.integerTooLarge (String.ofList l.digits)))) := by
  rw [token_eq, if_neg (Nat.not_le.2 h)]
  constructor
  · exact readExpression_of_unary_error fun n => rfl
  · exact readExpression_of_unary_error fun n => rfl

end Reading

/-- A decimal literal, alone or after a minus sign, is read as the number that it spells if that is a number of its
width, and refused if not. Only the number one past the largest `long` is not refused without a sign: it is read as the
least one. -/
theorem read_decimal (l : DecimalLiteral) (negative : Bool) (scope : Scope) (next : Nat) :
    (l.InRange negative → ∃ value : Int64, value.toInt = l.signedValue negative ∧
      (readSource readExpression (String.ofList (l.signedText negative)) scope next).result = .ok (l.tree value)) ∧
    (¬ l.InRange negative →
      if l.suffix.isLong = true ∧ l.signedValue negative = 9223372036854775808 then
        (readSource readExpression (String.ofList (l.signedText negative)) scope next).result =
          .ok (.long (-9223372036854775808))
      else ∃ position fault,
        (readSource readExpression (String.ofList (l.signedText negative)) scope next).result =
          .error (.at position fault)) := by
  rw [readSource, tokenize_signed]
  have hPos := l.limit_pos
  unfold InRange signedValue
  cases negative with
  | true =>
    simp only [if_true]
    rcases Nat.lt_or_ge l.limit l.value with hMore | hFits
    · refine ⟨fun h => by omega, fun _ => ?_⟩
      rw [if_neg (by omega)]
      exact ⟨_, _, (read_malformed ⟨1, 1⟩ hMore).1⟩
    · exact ⟨fun _ => ⟨_, toInt_neg_ofNat hFits, read_negative hFits⟩, fun h => by omega⟩
  | false =>
    simp only [Bool.false_eq_true, if_false]
    rcases Nat.lt_trichotomy l.value l.limit with hLess | hLimit | hMore
    · exact ⟨fun _ => ⟨_, toInt_ofNat_of_lt hLess, read_positive (Nat.le_of_lt hLess) (.inr hLess)⟩, fun h => by omega⟩
    · refine ⟨fun h => by omega, fun _ => ?_⟩
      cases hLong : l.suffix.isLong with
      | true =>
        have hValue : l.value = 9223372036854775808 := by rw [hLimit, limit, hLong]; rfl
        have hTree : l.tree (Int64.ofNat l.value) = .long (-9223372036854775808) := by rw [tree, hLong, hValue]; rfl
        rw [if_pos ⟨rfl, by rw [hValue]; rfl⟩, ← hTree]
        exact read_positive (Nat.le_of_eq hLimit) (.inl hLong)
      | false =>
        rw [if_neg (by simp)]
        exact ⟨_, _, read_positive_int hLimit hLong⟩
    · refine ⟨fun h => by omega, fun _ => ?_⟩
      have hOther : ¬ (l.suffix.isLong = true ∧ (l.value : Int) = 9223372036854775808) := by
        rintro ⟨hLong, hValue⟩
        rw [limit, if_pos hLong] at hMore
        omega
      rw [if_neg hOther]
      exact ⟨_, _, (read_malformed ⟨1, 1⟩ hMore).2⟩

/-- One past the largest `long`, without a sign. -/
theorem read_decimal_past_largest :
    (readSource readExpression "9223372036854775808L" .empty 0).result = .ok (.long (-9223372036854775808)) := by
  have hDigits : ∀ c ∈ "9223372036854775808".toList, c.isDigit = true := List.all_eq_true.1 rfl
  let l : DecimalLiteral := ⟨"9223372036854775808".toList, .upper, hDigits, by decide, .inr (by decide)⟩
  have hValue : l.value = 9223372036854775808 := by
    change Nat.ofDigits 10 [8, 0, 8, 5, 7, 7, 4, 5, 8, 6, 3, 0, 2, 7, 3, 3, 2, 2, 9] = _
    norm_num [Nat.ofDigits_cons]
  have hPast : ¬ l.InRange false := by
    rintro ⟨-, hLess⟩
    change (l.value : Int) < 9223372036854775808 at hLess
    omega
  have hRead := (read_decimal l false .empty 0).2 hPast
  rw [if_pos ⟨rfl, congrArg Nat.cast hValue⟩] at hRead
  exact hRead

end Lexer.DecimalLiteral

end JavaFragment
