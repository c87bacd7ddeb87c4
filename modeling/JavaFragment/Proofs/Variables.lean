import JavaFragment.Syntax.Tree
/-!
The variables that occur in syntax trees.
-/
namespace JavaFragment

mutual

@[simp, grind =]
def Expr.variables : Expr → List Variable
  | .var v => [v]
  | .int _ _ | .long _ | .float _ | .double _ | .string _ | .bool _ => []
  | .thisRef | .superRef | .nullRef | .name _ | .classLit _ => []
  | .unary _ e | .not e | .instanceOf e _ | .cast _ e | .incDec _ _ e | .field e _ => e.variables
  | .binary _ l r | .compare _ l r | .and l r | .or l r => l.variables ++ r.variables
  | .assign _ target value => target.variables ++ value.variables
  | .index array position => array.variables ++ position.variables
  | .conditional c a b => c.variables ++ (a.variables ++ b.variables)
  | .call _ args | .new _ args | .newArray _ args _ | .arrayOf _ _ args => Expr.variablesOf args
  | .arrayInit args | .concat args => Expr.variablesOf args
  | .callOn target _ args => target.variables ++ Expr.variablesOf args

@[simp, grind =]
def Expr.variablesOf : List Expr → List Variable
  | [] => []
  | e :: rest => e.variables ++ Expr.variablesOf rest

end

@[simp, grind =]
def VariableDecl.variables (d : VariableDecl) : List Variable := d.declared :: d.init.toList.flatMap Expr.variables

mutual

@[simp, grind =]
def Stmt.variables : Stmt → List Variable
  | .block body => Stmt.variablesOf body
  | .decl decls => decls.flatMap VariableDecl.variables
  | .expr e | .raise e => e.variables
  | .ifThen test body | .whileLoop test body | .doLoop body test => test.variables ++ body.variables
  | .ifElse test body otherwise => test.variables ++ (body.variables ++ otherwise.variables)
  | .forLoop init test update body =>
    Stmt.variablesOf init ++ (test.toList.flatMap Expr.variables ++ (Expr.variablesOf update ++ body.variables))
  | .switch selector cases => selector.variables ++ SwitchCase.variablesOf cases
  | .tryCatch body catches => Stmt.variablesOf body ++ CatchClause.variablesOf catches
  | .tryFinally body catches last => Stmt.variablesOf body ++ (CatchClause.variablesOf catches ++ Stmt.variablesOf last)
  | .synchronized lock body => lock.variables ++ Stmt.variablesOf body
  | .ret value => value.toList.flatMap Expr.variables
  | .labeled _ body => body.variables
  | .breakTo _ | .continueTo _ | .empty => []

@[simp, grind =]
def Stmt.variablesOf : List Stmt → List Variable
  | [] => []
  | s :: rest => s.variables ++ Stmt.variablesOf rest

@[simp, grind =]
def SwitchCase.variablesOf : List SwitchCase → List Variable
  | [] => []
  | .mk labels _ body :: rest => Expr.variablesOf labels ++ (Stmt.variablesOf body ++ SwitchCase.variablesOf rest)

@[simp, grind =]
def CatchClause.variablesOf : List CatchClause → List Variable
  | [] => []
  | .mk param body :: rest => param :: (Stmt.variablesOf body ++ CatchClause.variablesOf rest)

end

@[simp, grind =]
def SwitchCase.variables (c : SwitchCase) : List Variable := Expr.variablesOf c.labels ++ Stmt.variablesOf c.body

@[simp, grind =]
def CatchClause.variables (c : CatchClause) : List Variable := c.param :: Stmt.variablesOf c.body

theorem Expr.variablesOf_eq (es : List Expr) : Expr.variablesOf es = es.flatMap Expr.variables := by
  induction es with
  | nil => rfl
  | cons e rest ih => simp [Expr.variablesOf, ih]

theorem SwitchCase.variablesOf_eq (cases : List SwitchCase) :
    SwitchCase.variablesOf cases = cases.flatMap SwitchCase.variables := by
  induction cases with
  | nil => rfl
  | cons c rest ih =>
    obtain ⟨labels, isDefault, body⟩ := c
    simp [SwitchCase.variablesOf, ih, SwitchCase.variables, SwitchCase.labels, SwitchCase.body]

theorem CatchClause.variablesOf_eq (catches : List CatchClause) :
    CatchClause.variablesOf catches = catches.flatMap CatchClause.variables := by
  induction catches with
  | nil => rfl
  | cons c rest ih =>
    obtain ⟨param, body⟩ := c
    simp [CatchClause.variablesOf, ih, CatchClause.variables, CatchClause.param, CatchClause.body]

end JavaFragment
