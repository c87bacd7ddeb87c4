import JavaFragment.Number.Shortest
import JavaFragment.Text.Quote
import JavaFragment.Syntax.Tree
/-!
Expressions as they are shown in messages, with every operator in parentheses.
-/
namespace JavaFragment

def BinaryOp.symbol : BinaryOp → String
  | .add => "+"
  | .sub => "-"
  | .mul => "*"
  | .div => "/"
  | .rem => "%"
  | .shl => "<<"
  | .shr => ">>"
  | .ushr => ">>>"
  | .bitAnd => "&"
  | .bitOr => "|"
  | .bitXor => "^"

def CompareOp.symbol : CompareOp → String
  | .eq => "=="
  | .ne => "!="
  | .lt => "<"
  | .le => "<="
  | .gt => ">"
  | .ge => ">="

def UnaryOp.symbol : UnaryOp → String
  | .neg => "-"
  | .plus => "+"
  | .bitNot => "~"

/-- Numbers in displayed expressions: never an exponent, and whole numbers without a point. -/
def FloatLayout.displayed : FloatLayout :=
  { positional := none
    wholePoint := false
    mantissaPoint := false
    exponentMark := "e"
    infinity := "inf" }

/-- A character constant. Half a surrogate pair is shown by its four digits. -/
def charText (value : Int64) : String :=
  let code := value.toUInt64.toUInt32.toNat
  if code.isValidChar then "'" ++ Quote.constantChar (Char.ofNat code) ++ "'"
  else "'\\u" ++ Quote.hexPadded 4 value.toUInt64.toNat ++ "'"

mutual

def Expr.text : Expr → String
  | .int value .char => charText value
  | .int value _ => toString value
  | .long value => toString value ++ "L"
  | .float value => FloatLayout.displayed.write .double value.toBinary64.bits.toNat ++ "f"
  | .double value => FloatLayout.displayed.write .double value.bits.toNat
  | .string text => "\"" ++ Quote.constant text ++ "\""
  | .thisRef => "this"
  | .superRef => "super"
  | .nullRef => "null"
  | .bool true => "true"
  | .bool false => "false"
  | .name n => n
  | .var v => v.name
  | .unary op operand => op.symbol ++ operand.text
  | .binary op left right => "(" ++ left.text ++ " " ++ op.symbol ++ " " ++ right.text ++ ")"
  | .compare op left right => "(" ++ left.text ++ " " ++ op.symbol ++ " " ++ right.text ++ ")"
  | .and left right => "(" ++ left.text ++ " && " ++ right.text ++ ")"
  | .or left right => "(" ++ left.text ++ " || " ++ right.text ++ ")"
  | .not operand => "!" ++ operand.text
  | .instanceOf operand type => "(" ++ operand.text ++ " instanceof " ++ type.text ++ ")"
  | .cast type operand => "((" ++ type.text ++ ") " ++ operand.text ++ ")"
  | .conditional test whenTrue whenFalse =>
    "(" ++ test.text ++ " ? " ++ whenTrue.text ++ " : " ++ whenFalse.text ++ ")"
  | .assign op target value =>
    target.text ++ " " ++ (op.map BinaryOp.symbol).getD "" ++ "= " ++ value.text
  | .incDec increment before target =>
    let symbol := if increment then "++" else "--"
    if before then symbol ++ target.text else target.text ++ symbol
  | .field target name => target.text ++ "." ++ name
  | .classLit type => type.text ++ ".class"
  | .index array position => array.text ++ "[" ++ position.text ++ "]"
  | .call name args => name ++ "(" ++ ", ".intercalate (texts args) ++ ")"
  | .callOn target name args =>
    let callee := if name = constructorName then target.text else target.text ++ "." ++ name
    callee ++ "(" ++ ", ".intercalate (texts args) ++ ")"
  | .new type args => "new " ++ type.text ++ "(" ++ ", ".intercalate (texts args) ++ ")"
  | .newArray element lengths extra =>
    "new " ++ element.text ++ String.join ((texts lengths).map fun n => "[" ++ n ++ "]") ++
      String.join (List.replicate extra "[]")
  | .arrayOf element dims _ => "new " ++ element.text ++ String.join (List.replicate dims "[]")
  | .arrayInit items => "\x7b" ++ ", ".intercalate (texts items) ++ "\x7d"
  | .concat parts => " + ".intercalate (texts parts)

/-- The texts of a list of expressions. -/
def texts : List Expr → List String
  | [] => []
  | e :: rest => e.text :: texts rest

end

end JavaFragment
