import JavaFragment.Proofs.ReadingRules
/-!
Looking ahead for a type. Whether a parenthesis begins a cast, and whether a name begins a declaration, is decided on the
tokens ahead before the type is read. Both tests are measured against the spelling of types: what they find is a type
that reading then takes, up to the token that they stopped at.
-/
namespace JavaFragment

/-- A token other than the end of input can be used up. -/
theorem IsEnded.of_cons {placed : PlacedToken} {rest : List PlacedToken} (h : IsEnded (placed :: rest))
    (hPlaced : placed.token ≠ .eof) : IsEnded rest ∧ Reader.after (placed :: rest) = rest := by
  obtain ⟨body, last, hTokens, hBody⟩ := h
  cases body with
  | nil =>
    cases hTokens
    exact absurd rfl hPlaced
  | cons first body =>
    obtain ⟨-, rfl⟩ := List.cons.inj hTokens
    exact ⟨⟨body, last, rfl, (List.forall_mem_cons.1 hBody).2⟩, by cases body <;> rfl⟩

/-- Whether a type is written as a class name alone. -/
def WrittenType.isName : WrittenType → Bool
  | .named _ => true
  | _ => false

/-- How types are spelled: a primitive type or names joined by points, and empty pairs of brackets. -/
inductive SpellsType : List PlacedToken → WrittenType → Prop
  | primitive (p : Primitive) (at₁ : Position) : SpellsType [⟨.primitive p, at₁⟩] (.primitive p)
  | name (n : String) (at₁ : Position) : SpellsType [⟨.ident n, at₁⟩] (.named n)
  | select {tokens : List PlacedToken} {n : String} (h : SpellsType tokens (.named n)) (part : String)
      (at₁ at₂ : Position) :
      SpellsType (tokens ++ [⟨.symbol .dot, at₁⟩, ⟨.ident part, at₂⟩]) (.named (n ++ "." ++ part))
  | array {tokens : List PlacedToken} {type : WrittenType} (h : SpellsType tokens type) (at₁ at₂ : Position) :
      SpellsType (tokens ++ [⟨.symbol .leftBracket, at₁⟩, ⟨.symbol .rightBracket, at₂⟩]) (.array type)

namespace Reader

/-- A type that has begun, with all that follows of it, and what is left then. -/
def extend : WrittenType → List PlacedToken → WrittenType × List PlacedToken
  | .named n, rest =>
    let (dotted, rest) := splitDotted n rest
    let (dims, rest) := splitBrackets 0 rest
    (.arrayOf (.named dotted) dims, rest)
  | type, rest =>
    let (dims, rest) := splitBrackets 0 rest
    (type.arrayOf dims, rest)

/-- The type that tokens begin with, and what is left after it. -/
def typeAhead? : List PlacedToken → Option (WrittenType × List PlacedToken)
  | ⟨.primitive p, _⟩ :: rest => some (extend (.primitive p) rest)
  | ⟨.ident n, _⟩ :: rest => some (extend (.named n) rest)
  | _ => none

variable {ahead rest taken : List PlacedToken} {type : WrittenType}

/-! The spelling of what lies ahead. -/

theorem splitBrackets_succ (dims : Nat) (ahead : List PlacedToken) :
    splitBrackets (dims + 1) ahead = ((splitBrackets dims ahead).1 + 1, (splitBrackets dims ahead).2) := by
  fun_induction splitBrackets dims ahead with
  | case1 dims p q rest ih => rw [splitBrackets, ih]
  | case2 dims ahead hOther => rw [splitBrackets]; exact hOther

theorem arrayOf_array (type : WrittenType) (dims : Nat) : (WrittenType.array type).arrayOf dims = type.arrayOf (dims + 1) := by
  induction dims with
  | zero => rfl
  | succ dims ih => exact congrArg WrittenType.array ih

theorem extend_array (type : WrittenType) (p q : Position) (rest : List PlacedToken) :
    extend type (⟨.symbol .leftBracket, p⟩ :: ⟨.symbol .rightBracket, q⟩ :: rest) = extend (.array type) rest := by
  cases type <;>
    simp only [extend, splitDotted, splitBrackets, splitBrackets_succ, arrayOf_array]

/-- A type is found by its spelling, and so is what may still follow of it. -/
theorem typeAhead?_of_spellsType (h : SpellsType taken type) (rest : List PlacedToken) :
    typeAhead? (taken ++ rest) = some (extend type rest) := by
  induction h generalizing rest with
  | primitive => rfl
  | name => rfl
  | select h part p q ih =>
    rw [List.append_assoc, ih]
    rfl
  | array h p q ih =>
    rw [List.append_assoc, ih]
    exact congrArg some (extend_array ..)

/-- At any other token than a point or a bracket a type is complete. -/
theorem extend_stop {placed : PlacedToken} (hDot : placed.token ≠ .symbol .dot)
    (hBracket : placed.token ≠ .symbol .leftBracket) : extend type (placed :: rest) = (type, placed :: rest) := by
  have hDotted (n : String) : splitDotted n (placed :: rest) = (n, placed :: rest) := by
    rw [splitDotted]
    rintro p part q rest' h
    exact hDot (congrArg PlacedToken.token (List.cons.inj h).1)
  have hBrackets : splitBrackets 0 (placed :: rest) = (0, placed :: rest) := by
    rw [splitBrackets]
    rintro p q rest' h
    exact hBracket (congrArg PlacedToken.token (List.cons.inj h).1)
  cases type <;> simp only [extend, hDotted, hBrackets] <;> rfl

theorem spellsType_splitDotted {n : String} (h : SpellsType taken (.named n)) (ahead : List PlacedToken) :
    ∃ more, ahead = more ++ (splitDotted n ahead).2 ∧ SpellsType (taken ++ more) (.named (splitDotted n ahead).1) := by
  fun_induction splitDotted n ahead generalizing taken with
  | case1 n p part q rest ih =>
    obtain ⟨more, hRest, hMore⟩ := ih (.select h part p q)
    refine ⟨_ :: _ :: more, congrArg (_ :: _ :: ·) hRest, ?_⟩
    simpa using hMore
  | case2 n ahead => exact ⟨[], rfl, by simpa using h⟩

theorem spellsType_splitBrackets (dims : Nat) (h : SpellsType taken (type.arrayOf dims)) (ahead : List PlacedToken) :
    ∃ more, ahead = more ++ (splitBrackets dims ahead).2 ∧
      SpellsType (taken ++ more) (type.arrayOf (splitBrackets dims ahead).1) := by
  fun_induction splitBrackets dims ahead generalizing taken with
  | case1 dims p q rest ih =>
    obtain ⟨more, hRest, hMore⟩ := ih (.array h p q)
    refine ⟨_ :: _ :: more, congrArg (_ :: _ :: ·) hRest, ?_⟩
    simpa using hMore
  | case2 dims ahead => exact ⟨[], rfl, by simpa using h⟩

theorem spellsType_extend (h : SpellsType taken type) (ahead : List PlacedToken) :
    ∃ more, ahead = more ++ (extend type ahead).2 ∧ SpellsType (taken ++ more) (extend type ahead).1 := by
  cases type with
  | named n =>
    obtain ⟨more, hDotted, hName⟩ := spellsType_splitDotted h ahead
    obtain ⟨brackets, hRest, hType⟩ := spellsType_splitBrackets 0 hName (splitDotted n ahead).2
    refine ⟨more ++ brackets, ?_, by simpa [extend] using hType⟩
    rw [List.append_assoc]
    exact hDotted.trans (congrArg (more ++ ·) hRest)
  | null | primitive | array => exact spellsType_splitBrackets 0 h ahead

/-- What is found ahead is spelled there. -/
theorem spellsType_of_typeAhead? (h : typeAhead? ahead = some (type, rest)) :
    ∃ taken, ahead = taken ++ rest ∧ SpellsType taken type := by
  unfold typeAhead? at h
  split at h
  · next p at₁ tail =>
    obtain ⟨more, hTail, hType⟩ := spellsType_extend (.primitive p at₁) tail
    rw [Option.some.inj h] at hTail hType
    exact ⟨_ :: more, congrArg (_ :: ·) hTail, hType⟩
  · next n at₁ tail =>
    obtain ⟨more, hTail, hType⟩ := spellsType_extend (.name n at₁) tail
    rw [Option.some.inj h] at hTail hType
    exact ⟨_ :: more, congrArg (_ :: ·) hTail, hType⟩
  · cases h

/-! What is decided on what lies ahead. -/

/-- Reading takes the type that is found ahead. -/
theorem writtenType_of_typeAhead? {s : ReaderState} (hEnd : IsEnded s.ahead)
    (h : typeAhead? s.ahead = some (type, rest)) : writtenType s = .ok type { s with ahead := rest } := by
  obtain ⟨ahead, scope, depth, next⟩ := s
  cases ahead with
  | nil => cases h
  | cons placed tail =>
    -- The first token is used up by itself, the rest of the type from what comes after it.
    have hRun {start : WrittenType} (hFirst : placed.token ≠ .eof) (hStart : extend start tail = (type, rest))
        (hFound : writtenType ⟨placed :: tail, scope, depth, next⟩ =
          let found := extend start (Reader.after (placed :: tail))
          .ok found.1 ⟨found.2, scope, depth, next⟩) :
        writtenType ⟨placed :: tail, scope, depth, next⟩ = .ok type ⟨rest, scope, depth, next⟩ := by
      rw [hFound, (hEnd.of_cons hFirst).2, hStart]
    obtain ⟨token, at₁⟩ := placed
    cases token with
    | primitive p => exact hRun nofun (Option.some.inj h) rfl
    | ident n => exact hRun nofun (Option.some.inj h) rfl
    | _ => cases h

theorem eq_cons_of_first {token : Token} (h : (first ahead).token = token) (hToken : token ≠ .eof) :
    ∃ placed rest, ahead = placed :: rest ∧ placed.token = token := by
  cases ahead with
  | nil => exact absurd h.symm hToken
  | cons placed rest => exact ⟨placed, rest, rfl, h⟩

/-- A cast is a type in parentheses, of which a class name must have a term after it. -/
theorem startsCast_iff : startsCast ahead = true ↔ ∃ type rest, typeAhead? ahead = some (type, rest) ∧
    (first rest).token = .symbol .rightParen ∧ (type.isName = true → (first (rest.drop 1)).token.startsTerm = true) := by
  unfold startsCast typeAhead?
  split
  · next p at₁ tail =>
    simp only [extend]
    generalize splitBrackets 0 tail = found
    obtain ⟨dims, rest⟩ := found
    cases dims <;> simp [WrittenType.arrayOf, WrittenType.isName]
  · next n at₁ tail =>
    simp only [extend]
    generalize splitDotted n tail = dotted
    generalize splitBrackets 0 dotted.2 = found
    obtain ⟨dims, rest⟩ := found
    cases dims <;> simp [WrittenType.arrayOf, WrittenType.isName]
  · simp

/-- A declaration begins with a type and a name. -/
theorem typeAhead?_of_startsDeclaration (h : startsDeclaration ahead = true) :
    ∃ type rest n, typeAhead? ahead = some (type, rest) ∧ (first rest).token = .ident n := by
  unfold startsDeclaration at h
  split at h
  · next n at₁ tail =>
    dsimp only at h
    split at h
    · next m hFirst => exact ⟨_, _, m, rfl, hFirst⟩
    · cases h
  · cases h

end Reader

open Reader

/-- The tests that look ahead announce what reading does. After the opening parenthesis of a cast there is a type, which is
read up to the closing one, and a declaration begins with a type, which is read up to a name. A type in parentheses is
not taken for a cast only if it is the name of a class and what follows cannot begin a term. -/
theorem lookahead_announces_type (s : ReaderState) (hEnd : IsEnded s.ahead) :
    (∀ opening rest, s.ahead = opening :: rest → opening.token = .symbol .leftParen → startsCast rest = true →
      ∃ taken close after type, rest = taken ++ close :: after ∧ SpellsType taken type ∧
        close.token = .symbol .rightParen ∧
        writtenType { s with ahead := rest } = .ok type { s with ahead := close :: after }) ∧
    (startsDeclaration s.ahead = true →
      ∃ taken name after type n, s.ahead = taken ++ name :: after ∧ SpellsType taken type ∧ name.token = .ident n ∧
        writtenType s = .ok type { s with ahead := name :: after }) ∧
    ∀ opening taken close after type, s.ahead = opening :: (taken ++ close :: after) →
      opening.token = .symbol .leftParen → SpellsType taken type → close.token = .symbol .rightParen →
      (startsCast (taken ++ close :: after) = false ↔ type.isName = true ∧ (first after).token.startsTerm = false) := by
  refine ⟨fun opening rest hAhead hOpening hCast => ?_, fun hDeclares => ?_,
    fun opening taken close after type _ _ hType hClose => ?_⟩
  · obtain ⟨type, left, hFound, hClose, -⟩ := startsCast_iff.1 hCast
    obtain ⟨close, after, rfl, hToken⟩ := eq_cons_of_first hClose nofun
    obtain ⟨taken, rfl, hType⟩ := spellsType_of_typeAhead? hFound
    have hRest : IsEnded (taken ++ close :: after) := ((hAhead ▸ hEnd).of_cons (by simp [hOpening])).1
    exact ⟨taken, close, after, type, rfl, hType, hToken, writtenType_of_typeAhead? hRest hFound⟩
  · obtain ⟨type, left, n, hFound, hName⟩ := typeAhead?_of_startsDeclaration hDeclares
    obtain ⟨name, after, rfl, hToken⟩ := eq_cons_of_first hName nofun
    obtain ⟨taken, hAhead, hType⟩ := spellsType_of_typeAhead? hFound
    exact ⟨taken, name, after, type, n, hAhead, hType, hToken, writtenType_of_typeAhead? hEnd hFound⟩
  · have hFound : typeAhead? (taken ++ close :: after) = some (type, close :: after) := by
      rw [typeAhead?_of_spellsType hType, extend_stop (by simp [hClose]) (by simp [hClose])]
    have hFirst : (first (close :: after)).token = .symbol .rightParen := hClose
    rw [← Bool.not_eq_true, startsCast_iff, hFound]
    simp [hFirst]

/-- `(a.b) x` is a cast. -/
theorem lookahead_announces_type_qualified :
    let s : ReaderState := ⟨[⟨.symbol .leftParen, ⟨1, 1⟩⟩, ⟨.ident "a", ⟨1, 2⟩⟩, ⟨.symbol .dot, ⟨1, 3⟩⟩,
      ⟨.ident "b", ⟨1, 4⟩⟩, ⟨.symbol .rightParen, ⟨1, 5⟩⟩, ⟨.ident "x", ⟨1, 7⟩⟩, ⟨.eof, ⟨1, 8⟩⟩], .empty, 0, 0⟩
    IsEnded s.ahead ∧ ∃ taken close after type, s.ahead.tail = taken ++ close :: after ∧ SpellsType taken type ∧
      writtenType { s with ahead := s.ahead.tail } = .ok type { s with ahead := close :: after } := by
  intro s
  have hEnd : IsEnded s.ahead := ⟨s.ahead.dropLast, ⟨1, 8⟩, rfl, by simp [s]⟩
  obtain ⟨taken, close, after, type, hRest, hType, -, hRun⟩ := (lookahead_announces_type s hEnd).1 _ _ rfl rfl rfl
  exact ⟨hEnd, taken, close, after, type, hRest, hType, hRun⟩

end JavaFragment
