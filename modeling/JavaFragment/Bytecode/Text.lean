import JavaFragment.Bytecode.Instruction
/-!
Instructions as they are written in listings and messages: the name with its operands in decimal.
-/
namespace JavaFragment

def SlotKind.initial : SlotKind → String
  | .int => "I"
  | .long => "L"
  | .float => "F"
  | .double => "D"
  | .ref => "A"

def ElementKind.initial : ElementKind → String
  | .int => "I"
  | .long => "L"
  | .float => "F"
  | .double => "D"
  | .ref => "A"
  | .byte => "B"
  | .char => "C"
  | .short => "S"

def NumberKind.initial : NumberKind → String
  | .int => "I"
  | .long => "L"
  | .float => "F"
  | .double => "D"

def IntegerKind.initial : IntegerKind → String
  | .int => "I"
  | .long => "L"

def StackOp.text : StackOp → String
  | .pop => "Pop"
  | .pop2 => "Pop2"
  | .dup => "Dup"
  | .dupX1 => "Dupx1"
  | .dupX2 => "Dupx2"
  | .dup2 => "Dup2"
  | .dup2X1 => "Dup2x1"
  | .dup2X2 => "Dup2x2"
  | .swap => "Swap"

def ArithOp.text : ArithOp → String
  | .add => "add"
  | .sub => "sub"
  | .mul => "mul"
  | .div => "div"
  | .rem => "rem"

def ShiftOp.text : ShiftOp → String
  | .left => "shl"
  | .right => "shr"
  | .unsignedRight => "ushr"

def BitOp.text : BitOp → String
  | .and => "and"
  | .or => "or"
  | .xor => "xor"

def Conversion.text : Conversion → String
  | .intToLong => "I2l"
  | .intToFloat => "I2f"
  | .intToDouble => "I2d"
  | .longToInt => "L2i"
  | .longToFloat => "L2f"
  | .longToDouble => "L2d"
  | .floatToInt => "F2i"
  | .floatToLong => "F2l"
  | .floatToDouble => "F2d"
  | .doubleToInt => "D2i"
  | .doubleToLong => "D2l"
  | .doubleToFloat => "D2f"
  | .intToByte => "I2b"
  | .intToChar => "I2c"
  | .intToShort => "I2s"

def Comparison.text : Comparison → String
  | .long => "Lcmp"
  | .floatLess => "Fcmpl"
  | .floatGreater => "Fcmpg"
  | .doubleLess => "Dcmpl"
  | .doubleGreater => "Dcmpg"

def Relation.text : Relation → String
  | .eq => "eq"
  | .ne => "ne"
  | .lt => "lt"
  | .ge => "ge"
  | .gt => "gt"
  | .le => "le"

def Branch.text : Branch → String
  | .ifZero r => "If" ++ r.text
  | .ifInts r => "IfIcmp" ++ r.text
  | .ifSame => "IfAcmpeq"
  | .ifDistinct => "IfAcmpne"
  | .goto => "Goto"
  | .ifNull => "Ifnull"
  | .ifNonNull => "Ifnonnull"

def FieldOp.text : FieldOp → String
  | .getStatic => "Getstatic"
  | .putStatic => "Putstatic"
  | .getField => "Getfield"
  | .putField => "Putfield"

def InvokeOp.text : InvokeOp → String
  | .virtual => "Invokevirtual"
  | .special => "Invokespecial"
  | .static => "Invokestatic"

namespace Instruction

/-- A name with one operand. -/
def withOperand (name operand : String) : String := name ++ "(" ++ operand ++ ")"

/-- A name with named operands. -/
def withFields (name : String) (fields : List (String × String)) : String :=
  let items := fields.map fun (label, value) => label ++ ": " ++ value
  name ++ " \x7b " ++ ", ".intercalate items ++ " \x7d"

def listText (items : List String) : String := "[" ++ ", ".intercalate items ++ "]"

def text : Instruction → String
  | .nop => "Nop"
  | .aconstNull => "Aconstnull"
  | .iconst n => if n = 0 then "Iconstm1" else s!"Iconst{n.val - 1}"
  | .lconst n => s!"Lconst{n.val}"
  | .fconst n => s!"Fconst{n.val}"
  | .dconst n => s!"Dconst{n.val}"
  | .bipush value => withOperand "Bipush" (toString value)
  | .sipush value => withOperand "Sipush" (toString value)
  | .ldc index => withOperand "Ldc" (toString index)
  | .ldcW index => withOperand "LdcW" (toString index)
  | .ldc2W index => withOperand "Ldc2W" (toString index)
  | .load kind slot => withOperand (kind.initial ++ "load") (toString slot)
  | .loadShort kind slot => kind.initial ++ "load" ++ toString slot.val
  | .loadWide kind slot => withOperand (kind.initial ++ "loadWide") (toString slot)
  | .arrayLoad kind => kind.initial ++ "aload"
  | .store kind slot => withOperand (kind.initial ++ "store") (toString slot)
  | .storeShort kind slot => kind.initial ++ "store" ++ toString slot.val
  | .storeWide kind slot => withOperand (kind.initial ++ "storeWide") (toString slot)
  | .arrayStore kind => kind.initial ++ "astore"
  | .stack op => op.text
  | .arith op kind => kind.initial ++ op.text
  | .neg kind => kind.initial ++ "neg"
  | .shift op kind => kind.initial ++ op.text
  | .bitwise op kind => kind.initial ++ op.text
  | .iinc slot value =>
    withFields "Iinc" [("index", toString slot), ("value", toString value)]
  | .iincWide slot value =>
    withFields "IincWide" [("index", toString slot), ("value", toString value)]
  | .convert c => c.text
  | .compare c => c.text
  | .branch b offset => withOperand b.text (toString offset)
  | .tableSwitch default low offsets =>
    withFields "Tableswitch"
      [("default", toString default), ("low", toString low),
        ("high", toString (low + Int32.ofNat offsets.length - 1)),
        ("offsets", listText (offsets.map toString))]
  | .lookupSwitch default pairs =>
    let items := pairs.map fun (key, offset) => "(" ++ toString key ++ ", " ++ toString offset ++ ")"
    withFields "Lookupswitch"
      [("default", toString default), ("npairs", toString pairs.length), ("pairs", listText items)]
  | .valueReturn kind => kind.initial ++ "return"
  | .voidReturn => "Return"
  | .field op index => withOperand op.text (toString index)
  | .invoke op index => withOperand op.text (toString index)
  | .invokeInterface index count filler =>
    withFields "Invokeinterface"
      [("index", toString index), ("count", toString count), ("filler", toString filler)]
  | .new index => withOperand "New" (toString index)
  | .newArray code => withOperand "Newarray" (toString code)
  | .anewArray index => withOperand "Anewarray" (toString index)
  | .arrayLength => "Arraylength"
  | .athrow => "Athrow"
  | .checkCast index => withOperand "Checkcast" (toString index)
  | .instanceOf index => withOperand "Instanceof" (toString index)
  | .monitorEnter => "Monitorenter"
  | .monitorExit => "Monitorexit"
  | .multiNewArray index dimensions =>
    withFields "Multianewarray" [("index", toString index), ("dimensions", toString dimensions)]

end Instruction

end JavaFragment
