import JavaFragment.Syntax.Grammar
/-!
Chains of binary operators. A chain is read as the only tree with the same operands and operators in the same order in
which closer operators stand further down and those of one level group to the left.
-/
namespace JavaFragment

open Reader

/-! Operands and operators, as they stand in a chain. -/

/-- An operand that is a single token: a name, or an integer literal of 32 bits. -/
inductive Operand where
  | ident (position : Position) (name : String)
  | int (position : Position) (value : Int64) (fits : value ≤ 2147483647)

namespace Operand

def placed : Operand → PlacedToken
  | .ident position name => ⟨.ident name, position⟩
  | .int position value _ => ⟨.int value, position⟩

/-- What an operand is read as in a scope. -/
def expr (scope : Scope) : Operand → Expr
  | .ident _ name => (scope.lookup name).elim (.name name) .var
  | .int _ value _ => .int value .int

end Operand

/-- The expression that an operator other than `instanceof` makes of its operands. -/
def Infix.join : (op : Infix) → op ≠ .instanceOf → Expr → Expr → Expr
  | .or, _ => .or
  | .and, _ => .and
  | .arith op, _ => .binary op
  | .compare op, _ => .compare op
  | .instanceOf, h => absurd rfl h

/-- A token of the operator table with two operands. -/
structure Operator where
  placed : PlacedToken
  level : Nat
  op : Infix
  listed : Grammar.operator? placed.token = some (level, op)
  binary : op ≠ .instanceOf

/-- The operators of a chain after its first operand, each with the operand that follows it. -/
abbrev Links := List (Operator × Operand)

def Links.tokens (links : Links) : List PlacedToken := links.flatMap fun link => [link.1.placed, link.2.placed]

theorem Links.length_tokens (links : Links) : links.tokens.length = 2 * links.length := by
  induction links with
  | nil => rfl
  | cons link links ih =>
    change (tokens links).length + 2 = _
    rw [ih, List.length_cons]
    omega

/-! Trees. -/

inductive OperatorTree where
  | operand (o : Operand)
  | node (left : OperatorTree) (operator : Operator) (right : OperatorTree)

namespace OperatorTree

variable {a b : OperatorTree} {k : Nat}

/-- The first operand of a tree, in order. -/
def first : OperatorTree → Operand
  | .operand o => o
  | .node left _ _ => left.first

/-- What follows the first operand of a tree, in order. -/
def links : OperatorTree → Links
  | .operand _ => []
  | .node left operator right => left.links ++ (operator, right.first) :: right.links

/-- A tree is an operand or has an operator of at least a level at its root. -/
def BindsFrom (k : Nat) : OperatorTree → Prop
  | .operand _ => True
  | .node _ operator _ => k ≤ operator.level

/-- At each operator the left operand binds as close and the right one closer. -/
def Grouped : OperatorTree → Prop
  | .operand _ => True
  | .node left operator right =>
    left.Grouped ∧ right.Grouped ∧ left.BindsFrom operator.level ∧ right.BindsFrom (operator.level + 1)

def expr (scope : Scope) : OperatorTree → Expr
  | .operand o => o.expr scope
  | .node left operator right => operator.op.join operator.binary (left.expr scope) (right.expr scope)

theorem BindsFrom.mono {j : Nat} (h : a.BindsFrom k) (hLe : j ≤ k) : a.BindsFrom j := by
  cases a with
  | operand => trivial
  | node => exact Nat.le_trans hLe h

/-- In a grouped tree no operator binds looser than the one at the root. -/
theorem Grouped.le_level (h : a.Grouped) (hFrom : a.BindsFrom k) : ∀ link ∈ a.links, k ≤ link.1.level := by
  induction a generalizing k with
  | operand => exact fun _ hNone => absurd hNone List.not_mem_nil
  | node left operator right ihLeft ihRight =>
    obtain ⟨hLeft, hRight, hAbove, hCloser⟩ := h
    have hRoot : k ≤ operator.level := hFrom
    intro link hLink
    rcases List.mem_append.1 hLink with hLink | hLink
    · exact ihLeft hLeft (hAbove.mono hRoot) link hLink
    · rcases List.mem_cons.1 hLink with rfl | hLink
      · exact hRoot
      · exact ihRight hRight (hCloser.mono (by omega)) link hLink

/-- Of two operators of a chain that are both at the root of a grouped tree, the one further on is not looser. -/
theorem Grouped.root_last {left right left' right' : OperatorTree} {p p' : Operator} {between : Links}
    (h : (node left p right).Grouped) (h' : (node left' p' right').Grouped)
    (hLeft : left'.links = left.links ++ (p, right.first) :: between)
    (hRight : right.links = between ++ (p', right'.first) :: right'.links) : False := by
  have hLow : p'.level ≤ p.level := h'.1.le_level h'.2.2.1 (p, right.first) (by simp [hLeft])
  have hHigh : p.level + 1 ≤ p'.level := h.2.1.le_level h.2.2.2 (p', right'.first) (by simp [hRight])
  omega

/-- Grouped trees of one chain have the same operator at the root: the last of the loosest ones. -/
theorem Grouped.split_eq {left right left' right' : OperatorTree} {p p' : Operator}
    (h : (node left p right).Grouped) (h' : (node left' p' right').Grouped)
    (hLinks : (node left p right).links = (node left' p' right').links) :
    left.links = left'.links ∧ p = p' ∧ right.first = right'.first ∧ right.links = right'.links := by
  have hSame (hLeft : left.links = left'.links) :
      left.links = left'.links ∧ p = p' ∧ right.first = right'.first ∧ right.links = right'.links := by
    simpa [links, hLeft, and_assoc] using hLinks
  rcases List.append_eq_append_iff.1 hLinks with ⟨before, hLeft, hRight⟩ | ⟨before, hLeft, hRight⟩
  · cases before with
    | nil => exact hSame (by simpa using hLeft.symm)
    | cons link between =>
      obtain ⟨hLink, hRight⟩ := List.cons.inj hRight
      exact (h.root_last h' (hLink ▸ hLeft) hRight).elim
  · cases before with
    | nil => exact hSame (by simpa using hLeft)
    | cons link between =>
      obtain ⟨hLink, hRight⟩ := List.cons.inj hRight
      exact (h'.root_last h (hLink ▸ hLeft) hRight).elim

/-- There is at most one grouped tree of a chain. -/
theorem Grouped.unique (ha : a.Grouped) (hb : b.Grouped) (hFirst : a.first = b.first) (hLinks : a.links = b.links) :
    a = b := by
  induction a generalizing b with
  | operand o =>
    cases b with
    | operand o' => exact congrArg _ hFirst
    | node => simp [links] at hLinks
  | node left p right ihLeft ihRight =>
    cases b with
    | operand => simp [links] at hLinks
    | node left' p' right' =>
      obtain ⟨hLeft, rfl, hNext, hRight⟩ := ha.split_eq hb hLinks
      rw [ihLeft ha.1 hb.1 hFirst hLeft, ihRight ha.2.1 hb.2.1 hNext hRight]

/-- Reading at a level goes on from a tree with the links of a chain and ends with a grouped tree. What is left begins
with an operator that is too loose, if with any. -/
structure Takes (left : OperatorTree) (k : Nat) (links : Links) (tree : OperatorTree) (rest : Links) : Prop where
  first_eq : tree.first = left.first
  links_eq : left.links ++ links = tree.links ++ rest
  grouped : tree.Grouped
  binds : tree.BindsFrom k
  looser : ∀ link ∈ rest.head?, link.1.level < k

namespace Takes

variable {left right tree : OperatorTree} {p : Operator} {o : Operand} {links rest last : Links}

theorem refl (hLeft : left.Grouped) (hFrom : left.BindsFrom k) (hRest : ∀ link ∈ rest.head?, link.1.level < k) :
    left.Takes k rest left rest :=
  ⟨rfl, rfl, hLeft, hFrom, hRest⟩

/-- What an operator takes as its right operand makes up a grouped tree with a left operand that binds as close. -/
theorem grouped_node (hRight : (operand o).Takes (p.level + 1) links right rest) (hLeft : left.Grouped)
    (hFrom : left.BindsFrom p.level) : (node left p right).Grouped :=
  ⟨hLeft, hRight.grouped, hFrom, hRight.binds⟩

/-- The operator after a right operand does not bind closer than the one before it. -/
theorem bindsFrom_next (hRight : (operand o).Takes (p.level + 1) links right rest) :
    ∀ link ∈ rest.head?, (node left p right).BindsFrom link.1.level :=
  fun link hLink => Nat.le_of_lt_succ (hRight.looser link hLink)

theorem step (hRight : (operand o).Takes (p.level + 1) links right rest)
    (hRest : (node left p right).Takes k rest tree last) : left.Takes k ((p, o) :: links) tree last where
  first_eq := hRest.first_eq
  links_eq := by
    have hLinks : links = right.links ++ rest := hRight.links_eq
    have hFirst : right.first = o := hRight.first_eq
    rw [← hRest.links_eq, hLinks, ← hFirst]
    simp [OperatorTree.links]
  grouped := hRest.grouped
  binds := hRest.binds
  looser := hRest.looser

theorem length_le (hRight : (operand o).Takes k links right rest) : rest.length ≤ links.length := by
  have hLinks : links = right.links ++ rest := hRight.links_eq
  rw [hLinks, List.length_append]
  omega

end Takes

end OperatorTree

/-! Reading. -/

namespace Grammar

variable {s : ReaderState} {ahead : List PlacedToken} {next : PlacedToken}

/-- A token after which an operand goes on. -/
def continues : Token → Bool
  | .symbol .dot | .symbol .leftBracket | .symbol .leftParen | .symbol .increment | .symbol .decrement => true
  | _ => false

/-- The tokens that can follow a chain of operators. -/
def chainEnds : List Token :=
  [.eof, .symbol .rightParen, .symbol .rightBracket, .symbol .semicolon, .symbol .comma, .symbol .colon,
    .symbol .question]

theorem operator?_eq_some {token : Token} {level : Nat} {op : Infix} (h : operator? token = some (level, op)) :
    continues token = false ∧ 1 ≤ level := by
  unfold operator? at h
  split at h
  · split at h <;> cases h <;> exact ⟨rfl, by decide⟩
  · cases h
    exact ⟨rfl, by decide⟩
  · cases h

theorem run_bind {α β : Type} {x : Reader α} {f : α → Reader β} {t : ReaderState} {a : α} (h : x s = .ok a t) :
    (x >>= f) s = f a t := by
  simp only [Bind.bind, EStateM.bind, h]

theorem peek_run (placed : PlacedToken) :
    peek { s with ahead := placed :: ahead } = .ok placed.token { s with ahead := placed :: ahead } := rfl

theorem advance_run (placed next : PlacedToken) :
    advance { s with ahead := placed :: next :: ahead } = .ok () { s with ahead := next :: ahead } := rfl

theorem lookup_run (name : String) : lookup name s = .ok (s.scope.lookup name) s := rfl

theorem postfixTail_end (read : PhraseReader) (e : Expr) (hNext : continues next.token = false) :
    postfixTail read e { s with ahead := next :: ahead } = .ok e { s with ahead := next :: ahead } := by
  obtain ⟨token, position⟩ := next
  cases token with
  | symbol mark => cases mark <;> first | rfl | cases hNext
  | _ => rfl

theorem primary_operand (o : Operand) (read : PhraseReader) (hNext : continues next.token = false) :
    primary read { s with ahead := o.placed :: next :: ahead } =
      .ok (o.expr s.scope) { s with ahead := next :: ahead } := by
  refine (run_bind (peek_run o.placed)).trans ?_
  cases o with
  | int position value fits =>
    dsimp only [Operand.placed]
    rw [if_neg (Int64.not_lt.2 fits)]
    rfl
  | ident position name =>
    have hCall : (next.token == .symbol .leftParen) = false := by
      refine beq_false_of_ne fun hParen => ?_
      rw [hParen] at hNext
      cases hNext
    have hAt : isAt (.symbol .leftParen) { s with ahead := next :: ahead } =
        .ok false { s with ahead := next :: ahead } := by
      rw [← hCall]
      rfl
    refine (run_bind (advance_run _ next)).trans ((run_bind hAt).trans ?_)
    refine (run_bind (lookup_run name)).trans ?_
    dsimp only [Operand.expr]
    cases s.scope.lookup name <;> rfl

/-- An operand is read up to a token that does not go on with it. -/
theorem phrase_unary (o : Operand) (fuel : Nat) (hNext : continues next.token = false) :
    phrase (fuel + 2) .unary { s with ahead := o.placed :: next :: ahead } =
      .ok (o.expr s.scope) { s with ahead := next :: ahead } := by
  have hPrimary : phrase (fuel + 1) .primary { s with ahead := o.placed :: next :: ahead } = _ :=
    primary_operand o (phrase fuel) hNext
  have hUnary : phrase (fuel + 2) .unary { s with ahead := o.placed :: next :: ahead } =
      (phrase (fuel + 1) .primary >>= fun e => phrase (fuel + 1) (.postfixTail e))
        { s with ahead := o.placed :: next :: ahead } := by
    cases o <;> rfl
  rw [hUnary, run_bind hPrimary]
  exact postfixTail_end (phrase fuel) _ hNext

/-- The rest of a chain ends at an operator that is too loose, or at a token that is none. -/
theorem binaryTail_end (read : PhraseReader) (k : Nat) (e : Expr)
    (hNext : ∀ entry, operator? next.token = some entry → entry.1 < k) :
    binaryTail read k e { s with ahead := next :: ahead } = .ok e { s with ahead := next :: ahead } := by
  refine (run_bind (peek_run next)).trans ?_
  cases hListed : operator? next.token with
  | none => rfl
  | some entry =>
    dsimp only
    rw [if_pos (hNext entry hListed)]
    rfl

/-- An operator of at least the level takes what follows it as its right operand, and the chain goes on. -/
theorem binaryTail_operator (p : Operator) {read : PhraseReader} {k : Nat} {left right : Expr}
    {t : ReaderState} (hLevel : k ≤ p.level)
    (hRight : read (.binary (p.level + 1)) { s with ahead := next :: ahead } = .ok right t) :
    binaryTail read k left { s with ahead := p.placed :: next :: ahead } =
      read (.binaryTail k (p.op.join p.binary left right)) t := by
  refine (run_bind (peek_run p.placed)).trans ?_
  obtain ⟨placed, level, op, hListed, hBinary⟩ := p
  rw [hListed]
  dsimp only
  rw [if_neg (Nat.not_lt.2 hLevel)]
  refine (run_bind (advance_run placed next)).trans ?_
  cases op with
  | instanceOf => exact absurd rfl hBinary
  | or | and | arith | compare => exact run_bind hRight

/-- What follows an operand in a chain does not go on with it, and is an operator only where the chain goes on. -/
theorem next_of_chain (links : Links) {stop : PlacedToken} (ahead : List PlacedToken) (hStop : stop.token ∈ chainEnds) :
    ∃ next more, links.tokens ++ stop :: ahead = next :: more ∧ continues next.token = false ∧
      ∀ entry, operator? next.token = some entry → ∃ link ∈ links.head?, entry.1 = link.1.level := by
  cases links with
  | nil =>
    have hEnds : ∀ token ∈ chainEnds, continues token = false ∧ (operator? token).isNone = true := by decide
    obtain ⟨hContinues, hNone⟩ := hEnds _ hStop
    rw [Option.isNone_iff_eq_none] at hNone
    exact ⟨stop, ahead, rfl, hContinues, by simp [hNone]⟩
  | cons link links =>
    refine ⟨link.1.placed, link.2.placed :: (Links.tokens links ++ stop :: ahead), rfl, ?_, ?_⟩
    · exact (operator?_eq_some link.1.listed).1
    · rw [link.1.listed]
      rintro _ ⟨⟩
      exact ⟨link, rfl, rfl⟩

/-- With some fuel, links that follow a tree are read as far as a level goes. -/
def ReadsTail (s : ReaderState) (after : List PlacedToken) (fuel : Nat) : Prop :=
  ∀ (k : Nat) (left : OperatorTree) (links : Links), left.Grouped → left.BindsFrom k →
    (∀ link ∈ links.head?, left.BindsFrom link.1.level) → 2 * links.length + 2 ≤ fuel →
      ∃ tree rest, left.Takes k links tree rest ∧
        phrase fuel (.binaryTail k (left.expr s.scope)) { s with ahead := links.tokens ++ after } =
          .ok (tree.expr s.scope) { s with ahead := rest.tokens ++ after }

/-- With some fuel, a chain is read as far as a level goes. -/
def ReadsChain (s : ReaderState) (after : List PlacedToken) (fuel : Nat) : Prop :=
  ∀ (k : Nat) (o : Operand) (links : Links), 2 * links.length + 3 ≤ fuel →
    ∃ tree rest, (OperatorTree.operand o).Takes k links tree rest ∧
      phrase fuel (.binary k) { s with ahead := o.placed :: (links.tokens ++ after) } =
        .ok (tree.expr s.scope) { s with ahead := rest.tokens ++ after }

section

variable {stop : PlacedToken} {fuel : Nat}

theorem ReadsTail.chain (hStop : stop.token ∈ chainEnds) (h : ReadsTail s (stop :: ahead) fuel) :
    ReadsChain s (stop :: ahead) (fuel + 1) := by
  intro k o links hFuel
  obtain ⟨next, more, hAhead, hContinues, -⟩ := next_of_chain links ahead hStop
  obtain ⟨tree, rest, hTakes, hRun⟩ := h k (.operand o) links trivial trivial (fun _ _ => trivial) (by omega)
  refine ⟨tree, rest, hTakes, ?_⟩
  obtain ⟨fuel, rfl⟩ : ∃ n, fuel = n + 2 := ⟨fuel - 2, by omega⟩
  rw [hAhead] at hRun ⊢
  exact (run_bind (phrase_unary o fuel hContinues)).trans hRun

/-- One operator with its right operand, then the rest of the chain. -/
theorem ReadsTail.succ (hStop : stop.token ∈ chainEnds) (h : ReadsTail s (stop :: ahead) fuel)
    (hChain : ReadsChain s (stop :: ahead) fuel) : ReadsTail s (stop :: ahead) (fuel + 1) := by
  intro k left links hLeft hFrom hNext hFuel
  by_cases hGoes : ∃ link ∈ links.head?, k ≤ link.1.level
  · obtain ⟨⟨p, o⟩, hLink, hLevel⟩ := hGoes
    obtain ⟨links, rfl⟩ : ∃ more, links = (p, o) :: more := List.head?_eq_some_iff.1 hLink
    rw [List.length_cons] at hFuel
    obtain ⟨right, rest, hRight, hRunRight⟩ := hChain (p.level + 1) o links (by omega)
    have hNode := hRight.grouped_node hLeft (hNext _ hLink)
    have hShorter := hRight.length_le
    obtain ⟨tree, last, hRest, hRunRest⟩ := h k (.node left p right) rest hNode hLevel hRight.bindsFrom_next (by omega)
    exact ⟨tree, last, hRight.step hRest, (binaryTail_operator p hLevel hRunRight).trans hRunRest⟩
  · have hEnd : ∀ link ∈ links.head?, link.1.level < k :=
      fun link hLink => Nat.lt_of_not_le fun hLevel => hGoes ⟨link, hLink, hLevel⟩
    refine ⟨left, links, .refl hLeft hFrom hEnd, ?_⟩
    obtain ⟨next, more, hAhead, -, hOperator⟩ := next_of_chain links ahead hStop
    rw [hAhead]
    refine binaryTail_end (phrase fuel) k _ fun entry hEntry => ?_
    obtain ⟨link, hLink, hSame⟩ := hOperator entry hEntry
    exact hSame ▸ hEnd link hLink

/-- Two productions are entered at each operator. -/
theorem reads_of_fuel (hStop : stop.token ∈ chainEnds) (fuel : Nat) :
    ReadsTail s (stop :: ahead) fuel ∧ ReadsChain s (stop :: ahead) fuel := by
  induction fuel with
  | zero => exact ⟨fun _ _ _ _ _ _ hFuel => by omega, fun _ _ _ hFuel => by omega⟩
  | succ fuel ih => exact ⟨ih.1.succ hStop ih.2, ih.1.chain hStop⟩

end

/-- A chain of operators is read up to its end as the only grouped tree that has its operands and operators in the same
order. -/
theorem read_chain (o : Operand) (links : Links) {stop : PlacedToken} (hStop : stop.token ∈ chainEnds) :
    ∃ tree : OperatorTree, (tree.first = o ∧ tree.links = links ∧ tree.Grouped) ∧
      (∀ other : OperatorTree, other.first = o → other.links = links → other.Grouped → other = tree) ∧
      read (.binary 1) { s with ahead := o.placed :: (links.tokens ++ stop :: ahead) } =
        .ok (tree.expr s.scope) { s with ahead := stop :: ahead } := by
  have hFuel : 2 * links.length + 3 ≤ enough (o.placed :: (links.tokens ++ stop :: ahead)) := by
    rw [enough, List.length_cons, List.length_append, links.length_tokens]
    omega
  obtain ⟨tree, rest, hTakes, hRun⟩ := (reads_of_fuel hStop _).2 1 o links hFuel
  -- No operator is looser than the first level, so nothing of the chain is left.
  have hRest : rest = [] := by
    cases rest with
    | nil => rfl
    | cons link rest => exact absurd (hTakes.looser link rfl) (Nat.not_lt.2 (operator?_eq_some link.1.listed).2)
  subst hRest
  have hFirst : tree.first = o := hTakes.first_eq
  have hLinks : tree.links = links := by simpa [OperatorTree.links] using hTakes.links_eq.symm
  refine ⟨tree, ⟨hFirst, hLinks, hTakes.grouped⟩, fun other hOther hSame hGrouped => ?_, hRun⟩
  exact hGrouped.unique hTakes.grouped (hOther.trans hFirst.symm) (hSame.trans hLinks.symm)

/-- The chain `a - b - c * 2` before the end of input. -/
theorem read_chain_sub_sub_mul :
    read (.binary 1) ⟨[.ident "a", .symbol .minus, .ident "b", .symbol .minus, .ident "c", .symbol .star, .int 2,
        .eof].map (PlacedToken.mk · ⟨1, 1⟩), .empty, 0, 0⟩ =
      .ok (.binary .sub (.binary .sub (.name "a") (.name "b")) (.binary .mul (.name "c") (.int 2 .int)))
        ⟨[⟨.eof, ⟨1, 1⟩⟩], .empty, 0, 0⟩ := by
  let minus : Operator := ⟨⟨.symbol .minus, ⟨1, 1⟩⟩, 9, .arith .sub, rfl, by rintro ⟨⟩⟩
  let star : Operator := ⟨⟨.symbol .star, ⟨1, 1⟩⟩, 10, .arith .mul, rfl, by rintro ⟨⟩⟩
  let a : Operand := .ident ⟨1, 1⟩ "a"
  let b : Operand := .ident ⟨1, 1⟩ "b"
  let c : Operand := .ident ⟨1, 1⟩ "c"
  let two : Operand := .int ⟨1, 1⟩ 2 (by decide)
  have hStop : (⟨.eof, ⟨1, 1⟩⟩ : PlacedToken).token ∈ chainEnds := by decide
  obtain ⟨tree, -, hOnly, hRun⟩ :=
    @read_chain ⟨[], .empty, 0, 0⟩ [] a [(minus, b), (minus, c), (star, two)] ⟨.eof, ⟨1, 1⟩⟩ hStop
  have hTree := hOnly (.node (.node (.operand a) minus (.operand b)) minus (.node (.operand c) star (.operand two)))
    rfl rfl ⟨⟨trivial, trivial, trivial, trivial⟩, ⟨trivial, trivial, trivial, trivial⟩, Nat.le_refl 9, Nat.le_refl 10⟩
  rw [← hTree] at hRun
  exact hRun

end Grammar

end JavaFragment
