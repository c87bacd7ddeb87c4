import JavaFragment.Type.Basic
import JavaFragment.Bytecode.Instruction
/-!
Which instructions a type asks for: conversions between primitives and the kinds of loads, stores
and arithmetic.
-/
namespace JavaFragment

/-- The kind of number a base type is on the operand stack; booleans and small integers are
`int`. -/
def BaseType.stackKind? : BaseType → Option NumberKind
  | .primitive .void | .null | .class _ => none
  | .primitive .long => some .long
  | .primitive .float => some .float
  | .primitive .double => some .double
  | .primitive _ => some .int

/-- Conversion between kinds of numbers on the stack. -/
def NumberKind.convertTo : NumberKind → NumberKind → List Conversion
  | .int, .long => [.intToLong]
  | .int, .float => [.intToFloat]
  | .int, .double => [.intToDouble]
  | .long, .int => [.longToInt]
  | .long, .float => [.longToFloat]
  | .long, .double => [.longToDouble]
  | .float, .int => [.floatToInt]
  | .float, .long => [.floatToLong]
  | .float, .double => [.floatToDouble]
  | .double, .int => [.doubleToInt]
  | .double, .long => [.doubleToLong]
  | .double, .float => [.doubleToFloat]
  | _, _ => []

/-- The step from `int` to a smaller type, where the source does not already fit it. -/
def BaseType.narrowing (source target : BaseType) : List Conversion :=
  match target with
  | .primitive .byte => if source = .primitive .byte then [] else [.intToByte]
  | .primitive .char => if source = .primitive .char then [] else [.intToChar]
  | .primitive .short =>
    if source = .primitive .short ∨ source = .primitive .byte then [] else [.intToShort]
  | _ => []

/-- Conversions that take a value of one type to another. Those to a type smaller than `int` go
through `int`. -/
def BaseType.conversions (source target : BaseType) : List Conversion :=
  let onStack := match source.stackKind?, target.stackKind? with
    | some a, some b => a.convertTo b
    | _, _ => []
  onStack ++ source.narrowing target

/-- The kind that selects loads, stores and returns. -/
def JavaType.slotKind (t : JavaType) : SlotKind :=
  if t.isReference then .ref
  else match t.base with
    | .primitive .long => .long
    | .primitive .float => .float
    | .primitive .double => .double
    | _ => .int

/-- The instruction that loads a local variable, in its shortest form. -/
def Instruction.loadSlot (kind : SlotKind) (slot : UInt16) : Instruction :=
  if h : slot.toNat < 4 then .loadShort kind ⟨slot.toNat, h⟩
  else if slot.toNat < 256 then .load kind slot.toUInt8
  else .loadWide kind slot

/-- The instruction that stores a local variable, in its shortest form. -/
def Instruction.storeSlot (kind : SlotKind) (slot : UInt16) : Instruction :=
  if h : slot.toNat < 4 then .storeShort kind ⟨slot.toNat, h⟩
  else if slot.toNat < 256 then .store kind slot.toUInt8
  else .storeWide kind slot

/-- The instruction that adds a constant to a local `int`. The narrow form needs a slot and an
amount of one byte each. -/
def Instruction.increment (slot : UInt16) (value : Int16) : Instruction :=
  if slot.toNat < 256 ∧ -128 ≤ value.toInt ∧ value.toInt ≤ 127 then
    .iinc slot.toUInt8 value.toInt8
  else .iincWide slot value

/-- The instruction that returns a value of a type. -/
def Instruction.returning (t : JavaType) : Instruction :=
  if t.isVoid then .voidReturn else .valueReturn t.slotKind

end JavaFragment
