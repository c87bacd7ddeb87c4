import JavaFragment.Proofs.StatementLaws
/-!
What checks leave and what they can run into. A check reports the faults that typing rules report. What it leaves, be it
passed or not, mentions only variables that the tree mentioned before, and its class literals are of types that can be
written if they were so before.
-/
namespace JavaFragment

namespace Checked

variable {α β γ δ : Type}

/-- A check that leaves a tree of a kind and reports faults of a kind. -/
structure Leaves (P : CompileError → Prop) (T : α → Prop) (c : Checked α β) : Prop where
  tree : T c.tree
  outcome : Faults P c.outcome

namespace Leaves

variable {P : CompileError → Prop} {T T' : α → Prop} {U : γ → Prop} {c : Checked α β}

theorem mono (h : c.Leaves P T) (hT : ∀ a, T a → T' a) : c.Leaves P T' := ⟨hT _ h.tree, h.outcome⟩

theorem pass {a : α} {b : β} (h : T a) : (Checked.pass a b).Leaves P T := ⟨h, .ok b⟩

theorem map {f : α → γ} (h : c.Leaves P T) (hf : ∀ a, T a → U (f a)) : (c.map f).Leaves P U := ⟨hf _ h.tree, h.outcome⟩

/-- A tree that is left as it is, with a fault that a rule reports. -/
theorem fault {tree : α} {x : Except CompileError δ} {e : CompileError} (hTree : T tree) (hx : Faults P x)
    (he : x = .error e) : Leaves P T (⟨tree, .error e⟩ : Checked α β) :=
  ⟨hTree, .error (hx.of_error e he)⟩

theorem andThen {part : γ} {check : Unit → Checked γ δ} (h : c.Leaves P T) (hPart : U part)
    (hCheck : (check ()).Leaves P U) : (c.andThen part check).Leaves P fun pair => T pair.1 ∧ U pair.2 := by
  unfold Checked.andThen
  split
  · exact hCheck.map fun _ hu => ⟨h.tree, hu⟩
  · next e he => exact .fault ⟨h.tree, hPart⟩ h.outcome he

theorem bind {next : α → β → Checked α δ} (h : c.Leaves P T) (hNext : ∀ a b, T a → (next a b).Leaves P T) :
    (c.bind next).Leaves P T := by
  unfold Checked.bind
  split
  · exact hNext _ _ h.tree
  · next e he => exact .fault h.tree h.outcome he

theorem require {condition : α → β → Except CompileError δ} (h : c.Leaves P T)
    (hCondition : ∀ a b, Faults P (condition a b)) : (c.require condition).Leaves P T :=
  h.bind fun a b ha => ⟨ha, hCondition a b⟩

theorem done (h : c.Leaves P T) : c.done.Leaves P T := h.require fun _ _ => .ok ()

end Leaves

end Checked

/-- What is asked of trees: that class literals are of types that can be written, or not, and variables of a kind. -/
structure Standard where
  strict : Prop
  known : Variable → Prop

namespace Standard

variable (S : Standard) {e : Expr}

/-- Trees are up to a standard by whether some class literal in them is loose and by their variables. -/
structure Meets (loose : Bool) (vars : List Variable) : Prop where
  literals : S.strict → loose = false
  known : ∀ v ∈ vars, S.known v

def expr (e : Expr) : Prop := S.Meets (e.any Expr.isLooseLiteral) e.variables

def exprs (es : List Expr) : Prop := S.Meets (Expr.anyOf Expr.isLooseLiteral es) (Expr.variablesOf es)

def option (e? : Option Expr) : Prop :=
  S.Meets (e?.any (Expr.any Expr.isLooseLiteral)) (e?.toList.flatMap Expr.variables)

def decl (d : VariableDecl) : Prop := S.Meets (d.any Expr.isLooseLiteral) d.variables

def decls (ds : List VariableDecl) : Prop :=
  S.Meets (ds.any (VariableDecl.any Expr.isLooseLiteral)) (ds.flatMap VariableDecl.variables)

def stmt (s : Stmt) : Prop := S.Meets (s.any Expr.isLooseLiteral) s.variables

def block (body : List Stmt) : Prop := S.Meets (Stmt.anyOf Expr.isLooseLiteral body) (Stmt.variablesOf body)

def cases (cs : List SwitchCase) : Prop := S.Meets (SwitchCase.anyOf Expr.isLooseLiteral cs) (SwitchCase.variablesOf cs)

def catches (cs : List CatchClause) : Prop :=
  S.Meets (CatchClause.anyOf Expr.isLooseLiteral cs) (CatchClause.variablesOf cs)

namespace Meets

variable {S : Standard} {a b c d : Bool} {l m n k : List Variable}

theorem nil : S.Meets false [] := ⟨fun _ => rfl, nofun⟩

theorem append : S.Meets (a || b) (l ++ m) ↔ S.Meets a l ∧ S.Meets b m := by
  constructor
  · rintro ⟨hLiterals, hKnown⟩
    obtain ⟨hl, hm⟩ := List.forall_mem_append.1 hKnown
    exact ⟨⟨fun hs => (Bool.or_eq_false_iff.1 (hLiterals hs)).1, hl⟩,
      ⟨fun hs => (Bool.or_eq_false_iff.1 (hLiterals hs)).2, hm⟩⟩
  · rintro ⟨hl, hm⟩
    exact ⟨fun hs => Bool.or_eq_false_iff.2 ⟨hl.literals hs, hm.literals hs⟩,
      List.forall_mem_append.2 ⟨hl.known, hm.known⟩⟩

theorem append₃ : S.Meets (a || b || c) (l ++ (m ++ n)) ↔ (S.Meets a l ∧ S.Meets b m) ∧ S.Meets c n := by
  rw [← List.append_assoc, append, append]

theorem append₄ : S.Meets (a || b || c || d) (l ++ (m ++ (n ++ k))) ↔
    ((S.Meets a l ∧ S.Meets b m) ∧ S.Meets c n) ∧ S.Meets d k := by
  rw [← List.append_assoc, append₃, append]

theorem cons {v : Variable} : S.Meets a (v :: l) ↔ S.known v ∧ S.Meets a l :=
  ⟨fun h => ⟨h.known v (by simp), h.literals, fun w hw => h.known w (by simp [hw])⟩,
    fun ⟨hv, h⟩ => ⟨h.literals, List.forall_mem_cons.2 ⟨hv, h.known⟩⟩⟩

end Meets

open Meets

variable {S}

theorem option_some : S.option (some e) ↔ S.expr e := by
  rw [show S.option (some e) = S.Meets (e.any Expr.isLooseLiteral) (e.variables ++ []) from rfl, List.append_nil, expr]

/-! Simplification. -/

theorem exprs_append {l r : List Expr} : S.exprs (l ++ r) ↔ S.exprs l ∧ S.exprs r := by
  induction l with
  | nil => exact ⟨fun h => ⟨.nil, h⟩, And.right⟩
  | cons e rest ih =>
    have hAll : S.exprs (e :: (rest ++ r)) ↔ S.expr e ∧ S.exprs (rest ++ r) := append
    have hRest : S.exprs (e :: rest) ↔ S.expr e ∧ S.exprs rest := append
    rw [List.cons_append, hAll, hRest, ih, and_assoc]

theorem exprs_concatParts (h : S.expr e) : S.exprs e.concatParts := by
  cases e with
  | concat parts => exact h
  | _ => exact append.2 ⟨h, .nil⟩

theorem exprs_mergeLiterals {parts : List Expr} (h : S.exprs parts) : S.exprs (Expr.mergeLiterals parts) := by
  induction parts with
  | nil => exact h
  | cons part rest ih =>
    obtain ⟨hPart, hRest⟩ : S.expr part ∧ S.exprs rest := append.1 h
    have hRest := ih hRest
    unfold Expr.mergeLiterals
    split
    · exact append.2 ⟨hPart, .nil⟩
    · next next others hSame =>
      rw [hSame] at hRest
      split
      · exact append.2 ⟨.nil, (append.1 hRest).2⟩
      · exact append.2 ⟨hPart, hRest⟩

theorem expr_joined {l r : Expr} (hl : S.expr l) (hr : S.expr r) : S.expr (Expr.joined l r) := by
  have hParts := exprs_mergeLiterals (exprs_append.2 ⟨exprs_concatParts hl, exprs_concatParts hr⟩)
  unfold Expr.joined
  split
  · exact .nil
  · exact hParts

theorem expr_toExpr (c : Const) : S.expr c.toExpr := by cases c <;> exact .nil

variable {ctx : TypingContext}

theorem expr_promoteBranch {branch : Expr} (h : S.expr branch) (type : JavaType) :
    S.expr (ctx.promoteBranch type branch) := by
  unfold TypingContext.promoteBranch
  split
  · split
    · exact h
    · exact h
  · exact h

theorem expr_simplified (h : S.expr e) (type : JavaType) : S.expr (ctx.simplified e type) := by
  unfold TypingContext.simplified
  split
  · exact h
  · split
    · exact expr_toExpr _
    · next l r _ _ =>
      obtain ⟨hl, hr⟩ : S.expr l ∧ S.expr r := append.1 h
      split
      · exact expr_joined hl hr
      · exact h
    · next test a b _ _ =>
      obtain ⟨⟨ht, ha⟩, hb⟩ : (S.expr test ∧ S.expr a) ∧ S.expr b := append₃.1 h
      split
      · exact append₃.2 ⟨⟨ht, expr_promoteBranch ha type⟩, expr_promoteBranch hb type⟩
      · exact h
    · exact h

end Standard

namespace TypingContext

open Standard Standard.Meets

variable {P : CompileError → Prop} {S : Standard} {ctx : TypingContext}

section

variable (h : ctx.Fair P)
include h

theorem conclude_leaves {e : Expr} (he : S.expr e) : (ctx.conclude e).Leaves P S.expr := by
  unfold conclude
  split
  · exact .pass (expr_simplified he _)
  · next fault hFault => exact .fault he (h.typeOf_faults e) hFault

theorem concluded_leaves {β : Type} {parts : Checked Expr β} (hParts : parts.Leaves P S.expr) :
    (ctx.concluded parts).Leaves P S.expr := hParts.bind fun _ _ he => conclude_leaves h he

theorem checkQualifier_leaves {e : Expr} {check : Unit → Checked Expr JavaType} (he : S.expr e)
    (hCheck : (check ()).Leaves P S.expr) : (ctx.checkQualifier e check).Leaves P S.expr := by
  unfold checkQualifier
  split
  · exact hCheck.done
  · exact .pass he
  · next fault hFault => exact .fault he (h.denote_faults e) hFault

end

mutual

/-- A check leaves expressions up to their standard and reports what typing rules report. -/
theorem check_leaves (h : ctx.Fair P) : (e : Expr) → S.expr e → (ctx.check e).Leaves P S.expr
  | .unary _ e, he | .not e, he | .cast _ e, he | .instanceOf e _, he => by
    rw [check]
    exact concluded_leaves h ((check_leaves h e he).map fun _ ha => ha)
  | .binary _ l r, he | .compare _ l r, he | .and l r, he | .or l r, he | .index l r, he => by
    obtain ⟨hl, hr⟩ : S.expr l ∧ S.expr r := append.1 he
    rw [check]
    exact concluded_leaves h (((check_leaves h l hl).andThen hr (check_leaves h r hr)).map fun _ => append.2)
  | .conditional c a b, he => by
    obtain ⟨⟨hc, ha⟩, hb⟩ : (S.expr c ∧ S.expr a) ∧ S.expr b := append₃.1 he
    rw [check]
    exact concluded_leaves h ((((check_leaves h c hc).andThen ha (check_leaves h a ha)).andThen hb
      (check_leaves h b hb)).map fun _ => append₃.2)
  | .assign op target value, he => by
    obtain ⟨ht, hv⟩ : S.expr target ∧ S.expr value := append.1 he
    cases value with
    | arrayInit items =>
      have hItems : S.exprs items := hv
      rw [check]
      exact concluded_leaves h (((checkLocation_leaves h target ht).andThen hItems
        (checkAll_leaves h items hItems)).map fun _ => append.2)
    | _ =>
      rw [check]
      · exact concluded_leaves h (((checkLocation_leaves h target ht).andThen hv
          (check_leaves h _ hv)).map fun _ => append.2)
      · nofun
  | .incDec _ _ target, he => by
    rw [check]
    exact concluded_leaves h ((checkLocation_leaves h target he).map fun _ ha => ha)
  | .field target _, he => by
    have hTarget : S.expr target := he
    rw [check]
    exact concluded_leaves h ((checkQualifier_leaves h hTarget (check_leaves h target hTarget)).map fun _ ha => ha)
  | .call name args, he => by
    rw [check]
    split
    · exact conclude_leaves h he
    · exact concluded_leaves h ((checkArgs_leaves h args he).map fun _ ha => ha)
  | .callOn target _ args, he => by
    obtain ⟨ht, hArgs⟩ : S.expr target ∧ S.exprs args := append.1 he
    rw [check]
    refine concluded_leaves h ((Checked.Leaves.andThen (T := S.expr) ?_ hArgs (checkArgs_leaves h args hArgs)).map
      fun _ => append.2)
    split
    · exact .pass ht
    · exact checkQualifier_leaves h ht (check_leaves h target ht)
  | .new _ args, he => by
    rw [check]
    exact concluded_leaves h ((checkArgs_leaves h args he).map fun _ ha => ha)
  | .newArray _ es _, he | .arrayOf _ _ es, he | .arrayInit es, he | .concat es, he => by
    rw [check]
    exact concluded_leaves h ((checkAll_leaves h es he).map fun _ ha => ha)
  | .int _ _, he | .long _, he | .float _, he | .double _, he | .string _, he | .bool _, he | .thisRef, he
  | .superRef, he | .nullRef, he | .name _, he | .classLit _, he | .var _, he => conclude_leaves h he

theorem checkLocation_leaves (h : ctx.Fair P) : (e : Expr) → S.expr e → (ctx.checkLocation e).Leaves P S.expr
  | .index a i, he => by
    obtain ⟨ha, hi⟩ : S.expr a ∧ S.expr i := append.1 he
    rw [checkLocation]
    exact .done (((check_leaves h a ha).andThen hi (check_leaves h i hi)).map fun _ => append.2)
  | .field target _, he => by
    have hTarget : S.expr target := he
    rw [checkLocation]
    exact (checkQualifier_leaves h hTarget (check_leaves h target hTarget)).map fun _ ha => ha
  | .unary _ _, he | .not _, he | .cast _ _, he | .instanceOf _ _, he | .binary _ _ _, he | .compare _ _ _, he
  | .and _ _, he | .or _ _, he | .conditional _ _ _, he | .assign _ _ _, he | .incDec _ _ _, he | .call _ _, he
  | .callOn _ _ _, he | .new _ _, he | .newArray _ _ _, he | .arrayOf _ _ _, he | .arrayInit _, he | .concat _, he
  | .int _ _, he | .long _, he | .float _, he | .double _, he | .string _, he | .bool _, he | .thisRef, he
  | .superRef, he | .nullRef, he | .name _, he | .classLit _, he | .var _, he => .pass he

theorem checkAll_leaves (h : ctx.Fair P) : (es : List Expr) → S.exprs es → (ctx.checkAll es).Leaves P S.exprs
  | [], hs => .pass hs
  | e :: rest, hs => by
    obtain ⟨he, hRest⟩ : S.expr e ∧ S.exprs rest := append.1 hs
    rw [checkAll]
    exact ((check_leaves h e he).andThen hRest (checkAll_leaves h rest hRest)).map fun _ => append.2

theorem checkArgs_leaves (h : ctx.Fair P) : (es : List Expr) → S.exprs es → (ctx.checkArgs es).Leaves P S.exprs
  | [], hs => .pass hs
  | e :: rest, hs => by
    obtain ⟨he, hRest⟩ : S.expr e ∧ S.exprs rest := append.1 hs
    rw [checkArgs]
    refine (Checked.Leaves.andThen (T := S.expr) ?_ hRest (checkArgs_leaves h rest hRest)).map fun _ => append.2
    split
    · exact .pass he
    · exact (check_leaves h e he).done

end

/-! Statements. -/

section

variable (h : ctx.Fair P)
include h

theorem checkCondition_leaves {test : Expr} (ht : S.expr test) : (ctx.checkCondition test).Leaves P S.expr :=
  (check_leaves h test ht).require fun _ _ => .ite (fun _ => .ok _) fun _ => .mild h.lenient nofun

theorem checkInitial_leaves {init : Expr} (hi : S.expr init) (type : JavaType) :
    (ctx.checkInitial type init).Leaves P S.expr := by
  unfold checkInitial
  split
  · next items =>
    exact ((checkAll_leaves h items hi).require fun items _ => h.fits_faults items type).map fun _ ha => ha
  · exact (check_leaves h init hi).require fun init source => h.assignable_faults init source type

theorem checkDecl_leaves {d : VariableDecl} (hd : S.decl d) : (ctx.checkDecl d).Leaves P S.decl := by
  unfold checkDecl
  split
  · next fault hFault => exact .fault hd (ctx.variableType_faults h.lenient _) hFault
  · exact .pass hd
  · next type init _ hInit =>
    obtain ⟨hDeclared, hOption⟩ : S.known d.declared ∧ S.option d.init := cons.1 hd
    rw [hInit, option_some] at hOption
    exact (checkInitial_leaves h hOption type).map fun _ ha => cons.2 ⟨hDeclared, option_some.2 ha⟩

theorem checkDecls_leaves {ds : List VariableDecl} (hs : S.decls ds) : (ctx.checkDecls ds).Leaves P S.decls := by
  induction ds with
  | nil => exact .pass hs
  | cons d rest ih =>
    obtain ⟨hd, hRest⟩ : S.decl d ∧ S.decls rest := append.1 hs
    rw [checkDecls]
    exact ((checkDecl_leaves h hd).andThen hRest (ih hRest)).map fun _ => append.2

theorem checkLabels_leaves {labels : List Expr} (hs : S.exprs labels) : (ctx.checkLabels labels).Leaves P S.exprs := by
  induction labels with
  | nil => exact .pass hs
  | cons label rest ih =>
    obtain ⟨hLabel, hRest⟩ : S.expr label ∧ S.exprs rest := append.1 hs
    rw [checkLabels]
    refine (((check_leaves h label hLabel).require fun _ _ => ?_).andThen hRest (ih hRest)).map fun _ => append.2
    exact .ite (fun _ => .ok _) fun _ => .mild h.lenient nofun

theorem checkReturn_leaves {value : Option Expr} (hv : S.option value) : (ctx.checkReturn value).Leaves P S.option := by
  cases value with
  | none =>
    rw [checkReturn]
    split
    · exact .pass hv
    · exact ⟨hv, .mild h.lenient nofun⟩
  | some value =>
    rw [checkReturn]
    refine ((check_leaves h value (option_some.1 hv)).require fun value type => ?_).map fun _ => option_some.2
    refine .ite (fun _ => h.assignable_faults value type ctx.result) fun _ => ?_
    split
    · exact .ite (fun _ => .ok _) fun _ => .mild h.lenient nofun
    · exact .mild h.lenient nofun

theorem checkTest_leaves {test : Option Expr} (ht : S.option test) : (ctx.checkTest test).Leaves P S.option := by
  cases test with
  | none => exact .pass ht
  | some test => exact (checkCondition_leaves h (option_some.1 ht)).map fun _ => option_some.2

end

mutual

/-- A check leaves statements up to their standard and reports what typing rules report. -/
theorem checkStmt_leaves (h : ctx.Fair P) : (s : Stmt) → S.stmt s → (ctx.checkStmt s).Leaves P S.stmt
  | .block body, hs => by
    rw [checkStmt]
    exact (checkBlock_leaves h body hs).map fun _ ha => ha
  | .decl decls, hs => by
    rw [checkStmt]
    exact (checkDecls_leaves h hs).map fun _ ha => ha
  | .expr e, hs => by
    rw [checkStmt]
    split
    · exact (check_leaves h e hs).done.map fun _ ha => ha
    · exact ⟨hs, .mild h.lenient nofun⟩
  | .ifThen test body, hs | .whileLoop test body, hs | .doLoop body test, hs => by
    obtain ⟨ht, hb⟩ : S.expr test ∧ S.stmt body := append.1 hs
    rw [checkStmt]
    exact ((checkCondition_leaves h ht).andThen hb (checkStmt_leaves h body hb)).map fun _ => append.2
  | .ifElse test body otherwise, hs => by
    obtain ⟨⟨ht, hb⟩, ho⟩ : (S.expr test ∧ S.stmt body) ∧ S.stmt otherwise := append₃.1 hs
    rw [checkStmt]
    exact (((checkCondition_leaves h ht).andThen hb (checkStmt_leaves h body hb)).andThen ho
      (checkStmt_leaves h otherwise ho)).map fun _ => append₃.2
  | .forLoop init test update body, hs => by
    obtain ⟨⟨⟨hi, ht⟩, hu⟩, hb⟩ : ((S.block init ∧ S.option test) ∧ S.exprs update) ∧ S.stmt body := append₄.1 hs
    rw [checkStmt]
    exact ((((checkBlock_leaves h init hi).andThen ht (checkTest_leaves h ht)).andThen hu
      (checkAll_leaves h update hu)).andThen hb (checkStmt_leaves h body hb)).map fun _ => append₄.2
  | .switch selector cases, hs => by
    obtain ⟨hSelector, hCases⟩ : S.expr selector ∧ S.cases cases := append.1 hs
    rw [checkStmt]
    refine (((check_leaves h selector hSelector).require fun _ _ => ?_).andThen hCases
      (checkCases_leaves h cases hCases)).map fun _ => append.2
    exact .ite (fun _ => .ok _) fun _ => .mild h.lenient nofun
  | .tryCatch body catches, hs => by
    obtain ⟨hb, hc⟩ : S.block body ∧ S.catches catches := append.1 hs
    rw [checkStmt]
    exact ((checkBlock_leaves h body hb).andThen hc (checkCatches_leaves h catches hc)).map fun _ => append.2
  | .tryFinally body catches last, hs => by
    obtain ⟨⟨hb, hc⟩, hl⟩ : (S.block body ∧ S.catches catches) ∧ S.block last := append₃.1 hs
    rw [checkStmt]
    exact (((checkBlock_leaves h body hb).andThen hc (checkCatches_leaves h catches hc)).andThen hl
      (checkBlock_leaves h last hl)).map fun _ => append₃.2
  | .synchronized lock body, hs => by
    obtain ⟨hLock, hb⟩ : S.expr lock ∧ S.block body := append.1 hs
    rw [checkStmt]
    refine (((check_leaves h lock hLock).require fun _ _ => ?_).andThen hb
      (checkBlock_leaves h body hb)).map fun _ => append.2
    exact .ite (fun _ => .ok _) fun _ => .mild h.lenient nofun
  | .ret value, hs => by
    rw [checkStmt]
    exact (checkReturn_leaves h hs).map fun _ ha => ha
  | .raise value, hs => by
    rw [checkStmt]
    refine ((check_leaves h value hs).require fun _ _ => ?_).map fun _ ha => ha
    exact .ite (fun _ => .ok _) fun _ => .mild h.lenient nofun
  | .labeled _ body, hs => by
    rw [checkStmt]
    exact (checkStmt_leaves h body hs).map fun _ ha => ha
  | .breakTo _, hs | .continueTo _, hs | .empty, hs => .pass hs

theorem checkBlock_leaves (h : ctx.Fair P) : (body : List Stmt) → S.block body → (ctx.checkBlock body).Leaves P S.block
  | [], hs => .pass hs
  | s :: rest, hs => by
    obtain ⟨hOwn, hRest⟩ : S.stmt s ∧ S.block rest := append.1 hs
    rw [checkBlock]
    exact ((checkStmt_leaves h s hOwn).andThen hRest (checkBlock_leaves h rest hRest)).map fun _ => append.2

theorem checkCases_leaves (h : ctx.Fair P) : (cases : List SwitchCase) → S.cases cases →
    (ctx.checkCases cases).Leaves P S.cases
  | [], hs => .pass hs
  | .mk labels isDefault body :: rest, hs => by
    obtain ⟨⟨hl, hb⟩, hRest⟩ : (S.exprs labels ∧ S.block body) ∧ S.cases rest := append₃.1 hs
    have hFirst : (((ctx.checkLabels labels).andThen body fun _ => ctx.checkBlock body).map
        fun (labels, body) => SwitchCase.mk labels isDefault body).Leaves P
          fun c => S.exprs c.labels ∧ S.block c.body :=
      ((checkLabels_leaves h hl).andThen hb (checkBlock_leaves h body hb)).map fun _ ha => ha
    rw [checkCases]
    exact (hFirst.andThen hRest (checkCases_leaves h rest hRest)).map fun (⟨_, _, _⟩, _) => append₃.2

theorem checkCatches_leaves (h : ctx.Fair P) : (catches : List CatchClause) → S.catches catches →
    (ctx.checkCatches catches).Leaves P S.catches
  | [], hs => .pass hs
  | .mk param body :: rest, hs => by
    obtain ⟨hParam, hParts⟩ := cons.1 hs
    obtain ⟨hb, hRest⟩ : S.block body ∧ S.catches rest := append.1 hParts
    have hFirst {caught : Except CompileError Unit} (hCaught : Faults P caught) :
        (((Checked.mk param caught).andThen body fun _ => ctx.checkBlock body).map
          fun (param, body) => CatchClause.mk param body).Leaves P fun c => S.known c.param ∧ S.block c.body := by
      have hOwn : (Checked.mk param caught).Leaves P S.known := ⟨hParam, hCaught⟩
      exact (hOwn.andThen hb (checkBlock_leaves h body hb)).map fun _ ha => ha
    rw [checkCatches]
    refine ((hFirst ?_).andThen hRest (checkCatches_leaves h rest hRest)).map
      fun (⟨_, _⟩, _) ⟨⟨hParam, hb⟩, hRest⟩ => cons.2 ⟨hParam, append.2 ⟨hb, hRest⟩⟩
    exact .bind (ctx.variableType_faults h.lenient _) fun _ _ => .ite (fun _ => .ok _) fun _ => .mild h.lenient nofun

end

/-! A check brings no variable into a tree. -/

theorem variables_check (ctx : TypingContext) (e : Expr) : (ctx.check e).tree.variables ⊆ e.variables :=
  (check_leaves (S := ⟨False, (· ∈ e.variables)⟩) (.of_all fun _ => trivial : ctx.Fair fun _ => True) e
    ⟨False.elim, fun _ hv => hv⟩).tree.known

theorem variables_checkBlock (ctx : TypingContext) (body : List Stmt) :
    Stmt.variablesOf (ctx.checkBlock body).tree ⊆ Stmt.variablesOf body :=
  (checkBlock_leaves (S := ⟨False, (· ∈ Stmt.variablesOf body)⟩) (.of_all fun _ => trivial : ctx.Fair fun _ => True)
    body ⟨False.elim, fun _ hv => hv⟩).tree.known

end TypingContext

end JavaFragment
