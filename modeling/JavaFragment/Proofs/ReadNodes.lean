import JavaFragment.Proofs.Productions
import JavaFragment.Proofs.StatementLaws
import JavaFragment.Proofs.Tokens
/-!
The parts of what is read. A test that fails on constants of every sort that can be written fails on all parts of a
tree. Class literals are of types that can be written, and integer constants are in the range of their kind. There is
one exception: the least `int`, written by its bit pattern, is not negated as a number of 32 bits, so that a minus sign
before it gives a constant that is one more than the largest `int`.
-/
namespace JavaFragment

/-- Whether some expression in a member satisfies a test. -/
def Member.any (p : Expr → Bool) : Member → Bool
  | .field decl => decl.init.any (Expr.any p)
  | .method decl => decl.body.any (Stmt.anyOf p)

/-- Whether an expression is an integer constant or a class literal. -/
def Expr.isIntOrClass : Expr → Bool
  | .int _ _ | .classLit _ => true
  | _ => false

/-- A test that fails on the constants that a text gives rise to, and on all that is no constant. -/
structure Spares (source : List PlacedToken) (test : Expr → Bool) : Prop where
  int : ∀ {value}, TokenAmong source (.int value) → value ≤ 2147483647 → test (.int value .int) = false
  negated : ∀ {value}, TokensMeet source (.symbol .minus) (.int value) → test (.int (-value) .int) = false
  char : ∀ {unit : UInt16}, test (.int (Int64.ofNat unit.toNat) .char) = false
  classLit : ∀ {type}, type.isWritten = true → test (.classLit type) = false
  other : ∀ {e}, e.isIntOrClass = false → test e = false

/-! Tests of all parts. -/

/-- A test fails on all parts of a tree. -/
def TreeFacts.fails (test : Expr → Bool) : TreeFacts where
  fits _ _ := True
  expr _ _ e := e.any test = false
  initial _ _ e := e.any test = false
  stmt _ _ body _ := body.any test = false

namespace TreeFacts.fails

variable {test : Expr → Bool} {P : Variable → Prop} {s t : Scope}

theorem or {a b : Bool} (ha : a = false) (hb : b = false) : (a || b) = false := Bool.or_eq_false_iff.2 ⟨ha, hb⟩

theorem exprs {es : List Expr} (h : ∀ e ∈ es, e.any test = false) : Expr.anyOf test es = false := by
  rw [Expr.anyOf_eq_any]
  exact List.any_eq_false.2 fun e he => ne_true_of_eq_false (h e he)

theorem option {e? : Option Expr} (h : ∀ e ∈ e?, e.any test = false) : e?.any (Expr.any test) = false := by
  cases e? with
  | none => rfl
  | some e => exact h e rfl

theorem chain {body : List Stmt} (h : s.Chain ((fails test).stmt P) body t) : Stmt.anyOf test body = false := by
  induction h with
  | nil => rfl
  | cons h _ ih => exact or h ih

theorem block {body : List Stmt} (h : (fails test).block P s body) : Stmt.anyOf test body = false := by
  obtain ⟨t, hBody⟩ := h
  exact chain hBody

theorem branch {body : Stmt} (h : (fails test).branch P s body) : body.any test = false := by
  obtain ⟨t, hBody⟩ := h
  exact hBody

theorem declarators {decls : List VariableDecl} (h : s.Chain ((fails test).declarator P) decls t) :
    decls.any (VariableDecl.any test) = false := by
  induction h with
  | nil => rfl
  | cons h _ ih =>
    obtain ⟨-, -, rfl, hInit⟩ := h
    exact or (option hInit) ih

theorem groups {cases : List SwitchCase} (h : s.Chain ((fails test).group P) cases t) :
    SwitchCase.anyOf test cases = false := by
  induction h with
  | nil => rfl
  | @cons _ _ _ c _ h _ ih =>
    obtain ⟨labels, isDefault, body⟩ := c
    obtain ⟨-, hLabels, hBody⟩ := h
    exact or (or (exprs hLabels) (chain hBody)) ih

theorem clauses {catches : List CatchClause} (h : ∀ c ∈ catches, (fails test).clause P s c) :
    CatchClause.anyOf test catches = false := by
  induction catches with
  | nil => rfl
  | cons c rest ih =>
    obtain ⟨hOwn, hRest⟩ := List.forall_mem_cons.1 h
    obtain ⟨param, body⟩ := c
    exact or (block hOwn.2) (ih hRest)

theorem member {m : Member} (h : (fails test).member P s m) : m.any test = false := by
  cases m with
  | field => exact option h
  | method decl =>
    obtain ⟨t, -, hBody⟩ := h
    rw [Member.any]
    cases hSome : decl.body with
    | none => rfl
    | some body => exact block (hBody body hSome)

theorem laws {source : List PlacedToken} (h : Spares source test) : TreeLaws source (fails test) where
  enter := id
  exit := id
  declare _ _ := trivial
  int hAmong hFits := h.int hAmong hFits
  negated hMeet := h.negated hMeet
  char := h.char
  leaf {_ _ e} hLeaf := by
    cases e with
    | long | float | double | string | bool | thisRef | superRef | nullRef => exact h.other rfl
    | _ => cases hLeaf
  name _ := h.other rfl
  var _ _ := h.other rfl
  unary he := or (h.other rfl) he
  binary hl hr := or (or (h.other rfl) hl) hr
  compare hl hr := or (or (h.other rfl) hl) hr
  and hl hr := or (or (h.other rfl) hl) hr
  or hl hr := or (or (h.other rfl) hl) hr
  not he := or (h.other rfl) he
  instanceOf he := or (h.other rfl) he
  cast he := or (h.other rfl) he
  conditional hc ha hb := or (or (or (h.other rfl) hc) ha) hb
  assign _ ht hv := or (or (h.other rfl) ht) hv
  incDec _ ht := or (h.other rfl) ht
  field he := or (h.other rfl) he
  classLit hType := h.classLit hType
  index ha hp := or (or (h.other rfl) ha) hp
  call _ hArgs := or (h.other rfl) (exprs hArgs)
  callOn _ ht hArgs := or (or (h.other rfl) ht) (exprs hArgs)
  callConstructor ht hArgs := by
    rcases ht with rfl | rfl <;> exact or (or (h.other rfl) (h.other rfl)) (exprs hArgs)
  new hArgs := or (h.other rfl) (exprs hArgs)
  newArray _ hLengths := or (h.other rfl) (exprs hLengths)
  arrayOf _ hItems := or (h.other rfl) (exprs hItems)
  value he := he
  items hItems := or (h.other rfl) (exprs hItems)
  block hb := block hb
  decl hd := declarators hd
  exprStmt he := he
  ifThen ht hb := or ht (branch hb)
  ifElse ht hb ho := or (or ht (branch hb)) (branch ho)
  whileLoop ht hb := or ht (branch hb)
  doLoop hb ht := or ht (branch hb)
  forLoop hi ht hu hb := or (or (or (chain hi) (option ht)) (exprs hu)) (branch hb)
  switch hs hCases _ := or hs (groups hCases)
  tryCatch hb _ hCatches := or (block hb) (clauses hCatches)
  tryFinally hb hCatches hl := or (or (block hb) (clauses hCatches)) (block hl)
  synchronized hl hb := or hl (block hb)
  ret hv := option hv
  raise hv := hv
  labeled hb := by
    obtain ⟨t, hBody⟩ := hb
    exact hBody
  leafStmt {_ _ body} hLeaf := by
    cases body with
    | breakTo | continueTo | empty => rfl
    | _ => cases hLeaf

end TreeFacts.fails

/-- Tests that fail on constants follow the rules of reading. -/
def TreeRules.fails {source : List PlacedToken} {test : Expr → Bool} (h : Spares source test) : TreeRules source :=
  ⟨.fails test, TreeFacts.fails.laws h⟩

/-! Integer constants. -/

namespace IntKind

def lowest : IntKind → Int
  | .byte => -128
  | .char => 0
  | .short => -32768
  | .int => -2147483648

def highest : IntKind → Int
  | .byte => 127
  | .char => 65535
  | .short => 32767
  | .int => 2147483647

/-- Whether a number is a value of a type. -/
def holds (kind : IntKind) (value : Int64) : Bool := kind.lowest ≤ value.toInt && value.toInt ≤ kind.highest

theorem holds_iff {kind : IntKind} {value : Int64} :
    kind.holds value = true ↔ kind.lowest ≤ value.toInt ∧ value.toInt ≤ kind.highest := by
  rw [holds, Bool.and_eq_true, decide_eq_true_iff, decide_eq_true_iff]

/-- Numbers of 32 bits are not changed by keeping their last 32 bits. -/
theorem toInt64_toInt32 {kind : IntKind} {value : Int64} (h : kind.holds value = true) :
    value.toInt32.toInt64 = value := by
  obtain ⟨hLow, hHigh⟩ := holds_iff.1 h
  have hBounds : -2147483648 ≤ kind.lowest ∧ kind.highest ≤ 2147483647 := by cases kind <;> decide
  rw [← Int64.toInt_inj, Int32.toInt_toInt64, Int64.toInt_toInt32]
  exact Int.bmod_eq_of_le (by omega) (by omega)

end IntKind

/-- Whether a minus sign stands directly before the bit pattern of the least `int`. -/
def negatesLeast : List PlacedToken → Bool
  | sign :: literal :: rest =>
    sign.token == .symbol .minus && literal.token == .int (-2147483648) || negatesLeast (literal :: rest)
  | _ => false

/-- Whether an expression is an integer constant out of range, the number after the largest `int` apart where the least
one is negated. -/
def Expr.isAstray (least : Bool) : Expr → Bool
  | .int value kind => !(kind.holds value || least && kind == .int && value == 2147483648)
  | _ => false

theorem negatesLeast_of_meet {tokens : List PlacedToken}
    (h : TokensMeet tokens (.symbol .minus) (.int (-2147483648))) : negatesLeast tokens = true := by
  obtain ⟨p, q, rest, before, rfl⟩ := h
  induction before with
  | nil => rfl
  | cons placed before ih =>
    cases before with
    | nil => simp [negatesLeast]
    | cons second before => exact Bool.or_eq_true_iff.2 (.inr ih)

theorem TokenAmong.scanned {source : String} {token : Token} (h : TokenAmong (tokenize source) token)
    (hToken : token ≠ .eof) : token.Scanned := by
  obtain ⟨placed, hMem, rfl⟩ := h
  obtain ⟨body, last, hTokens, hScanned⟩ := tokenize_scanned source
  rw [hTokens, List.mem_append, List.mem_singleton] at hMem
  rcases hMem with hBody | rfl
  · exact hScanned placed hBody
  · exact absurd rfl hToken

theorem TokensMeet.among {tokens : List PlacedToken} {token next : Token} (h : TokensMeet tokens token next) :
    TokenAmong tokens next := by
  obtain ⟨p, q, rest, hSuffix⟩ := h
  exact ⟨⟨next, q⟩, hSuffix.mem (by simp), rfl⟩

theorem not_isAstray_of_holds {least : Bool} {kind : IntKind} {value : Int64} (h : kind.holds value = true) :
    (Expr.int value kind).isAstray least = false := by
  rw [Expr.isAstray, h, Bool.true_or, Bool.not_true]

/-- Literals in a text give rise to constants in range. -/
theorem isAstray_spares (source : String) :
    Spares (tokenize source) (Expr.isAstray (negatesLeast (tokenize source))) where
  int {value} hAmong hFits := by
    obtain ⟨hLow, -⟩ := hAmong.scanned nofun
    exact not_isAstray_of_holds (IntKind.holds_iff.2 ⟨hLow, Int64.le_iff_toInt_le.1 hFits⟩)
  negated {value} hMeet := by
    obtain ⟨hLow, hHigh⟩ := hMeet.among.scanned nofun
    have hValue : (-value).toInt = -value.toInt := by
      rw [Int64.toInt_neg]
      exact Int.bmod_eq_of_le (by omega) (by omega)
    by_cases hLeast : value = -2147483648
    · subst hLeast
      rw [negatesLeast_of_meet hMeet]
      rfl
    · have hOther : value.toInt ≠ -2147483648 := fun hSame => hLeast (Int64.toInt_inj.1 hSame)
      refine not_isAstray_of_holds (IntKind.holds_iff.2 ?_)
      rw [hValue]
      dsimp only [IntKind.lowest, IntKind.highest]
      omega
  char {unit} := by
    have hLt := unit.toNat_lt
    have hValue : (Int64.ofNat unit.toNat).toInt = unit.toNat := Int64.toInt_ofNat_of_lt (by omega)
    refine not_isAstray_of_holds (IntKind.holds_iff.2 ?_)
    rw [hValue]
    dsimp only [IntKind.lowest, IntKind.highest]
    omega
  classLit _ := rfl
  other {e} h := by
    cases e with
    | int | classLit => cases h
    | _ => rfl

/-- Integer constants in what is read are in the range of their type, and hence numbers of 32 bits. Only where a minus
sign stands before the bit pattern of the least `int` there may be a constant that is one more than the largest. -/
theorem int_constants_in_range (source : String) (scope : Scope) (next : Nat) :
    (∀ body, (readSource readStatements source scope next).result = .ok body →
      Stmt.anyOf (Expr.isAstray (negatesLeast (tokenize source))) body = false) ∧
    (∀ e, (readSource readExpression source scope next).result = .ok e →
      e.any (Expr.isAstray (negatesLeast (tokenize source))) = false) ∧
    (∀ member, (readSource readMember source scope next).result = .ok member →
      member.any (Expr.isAstray (negatesLeast (tokenize source))) = false) ∧
    ∀ (kind : IntKind) (value : Int64), kind.holds value = true → value.toInt32.toInt64 = value := by
  have hSpares := isAstray_spares source
  refine ⟨fun body h => ?_, fun e h => ?_, fun member h => ?_, fun _ _ => IntKind.toInt64_toInt32⟩
  · obtain ⟨t, hBody⟩ := readStatements_reads.of_readTokens (R := .fails hSpares) h trivial
    exact TreeFacts.fails.chain hBody
  · obtain ⟨-, hExpr⟩ := readExpression_reads.of_readTokens (R := .fails hSpares) h trivial
    exact hExpr
  · obtain ⟨-, hMember⟩ := readMember_reads.of_readTokens (R := .fails hSpares) h trivial
    exact TreeFacts.fails.member hMember

/-- The exception: the constant is out of range, as the negation of the least `int` is not brought back into it. -/
theorem int_constants_in_range_negated_least :
    (readSource readExpression "-0x80000000" .empty 0).result = .ok (.int 2147483648 .int) ∧
    IntKind.int.holds 2147483648 = false ∧
    (Expr.int 2147483648 .int).any (Expr.isAstray (negatesLeast (tokenize "-0x80000000"))) = false := by
  have hRead : (readSource readExpression "-0x80000000" .empty 0).result = .ok (.int 2147483648 .int) := by rfl
  exact ⟨hRead, by decide, (int_constants_in_range "-0x80000000" .empty 0).2.1 _ hRead⟩

end JavaFragment
