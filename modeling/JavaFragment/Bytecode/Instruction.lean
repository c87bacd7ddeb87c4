/-!
The instructions of the virtual machine. Opcodes that differ only in the kind of value they work on
are one constructor with that kind as argument.
-/
namespace JavaFragment

/-- Kinds of values in local variables, which have their own load, store and return opcodes. -/
inductive SlotKind where
  | int
  | long
  | float
  | double
  | ref
deriving DecidableEq, Repr, Inhabited

/-- Kinds of array elements. Booleans are stored as bytes. -/
inductive ElementKind where
  | int
  | long
  | float
  | double
  | ref
  | byte
  | char
  | short
deriving DecidableEq, Repr, Inhabited

/-- Kinds of operands of arithmetic. -/
inductive NumberKind where
  | int
  | long
  | float
  | double
deriving DecidableEq, Repr, Inhabited

/-- Kinds of operands of shifts and bitwise operations. -/
inductive IntegerKind where
  | int
  | long
deriving DecidableEq, Repr, Inhabited

/-- Rearrangements of the top of the operand stack. -/
inductive StackOp where
  | pop
  | pop2
  | dup
  | dupX1
  | dupX2
  | dup2
  | dup2X1
  | dup2X2
  | swap
deriving DecidableEq, Repr, Inhabited

inductive ArithOp where
  | add
  | sub
  | mul
  | div
  | rem
deriving DecidableEq, Repr, Inhabited

inductive ShiftOp where
  | left
  | right
  | unsignedRight
deriving DecidableEq, Repr, Inhabited

inductive BitOp where
  | and
  | or
  | xor
deriving DecidableEq, Repr, Inhabited

/-- Conversions between kinds of numbers. -/
inductive Conversion where
  | intToLong
  | intToFloat
  | intToDouble
  | longToInt
  | longToFloat
  | longToDouble
  | floatToInt
  | floatToLong
  | floatToDouble
  | doubleToInt
  | doubleToLong
  | doubleToFloat
  | intToByte
  | intToChar
  | intToShort
deriving DecidableEq, Repr, Inhabited

/-- Three-way comparisons that leave an `int`. The last word says whether a value that is no number
counts as less or as greater. -/
inductive Comparison where
  | long
  | floatLess
  | floatGreater
  | doubleLess
  | doubleGreater
deriving DecidableEq, Repr, Inhabited

/-- The order relations that branches test. -/
inductive Relation where
  | eq
  | ne
  | lt
  | ge
  | gt
  | le
deriving DecidableEq, Repr, Inhabited

/-- The relation that holds exactly when the given one does not. -/
def Relation.negate : Relation → Relation
  | .eq => .ne
  | .ne => .eq
  | .lt => .ge
  | .ge => .lt
  | .gt => .le
  | .le => .gt

@[simp]
theorem Relation.negate_negate (r : Relation) : r.negate.negate = r := by
  cases r <;> rfl

/-- Instructions that jump by a two-byte offset. -/
inductive Branch where
  | ifZero (r : Relation)
  | ifInts (r : Relation)
  | ifSame
  | ifDistinct
  | goto
  | ifNull
  | ifNonNull
deriving DecidableEq, Repr, Inhabited

inductive FieldOp where
  | getStatic
  | putStatic
  | getField
  | putField
deriving DecidableEq, Repr, Inhabited

/-- Invocations with a single pool index as operand. -/
inductive InvokeOp where
  | virtual
  | special
  | static
deriving DecidableEq, Repr, Inhabited

/-- One instruction with its operands. The upper bound of a `tableSwitch` and the number of pairs
of a `lookupSwitch` follow from their lists. -/
inductive Instruction where
  | nop
  | aconstNull
  /-- The constants from -1, as 0, to 5, as 6. -/
  | iconst (n : Fin 7)
  | lconst (n : Fin 2)
  | fconst (n : Fin 3)
  | dconst (n : Fin 2)
  | bipush (value : Int8)
  | sipush (value : Int16)
  | ldc (index : UInt8)
  | ldcW (index : UInt16)
  | ldc2W (index : UInt16)
  | load (kind : SlotKind) (slot : UInt8)
  | loadShort (kind : SlotKind) (slot : Fin 4)
  | loadWide (kind : SlotKind) (slot : UInt16)
  | arrayLoad (kind : ElementKind)
  | store (kind : SlotKind) (slot : UInt8)
  | storeShort (kind : SlotKind) (slot : Fin 4)
  | storeWide (kind : SlotKind) (slot : UInt16)
  | arrayStore (kind : ElementKind)
  | stack (op : StackOp)
  | arith (op : ArithOp) (kind : NumberKind)
  | neg (kind : NumberKind)
  | shift (op : ShiftOp) (kind : IntegerKind)
  | bitwise (op : BitOp) (kind : IntegerKind)
  | iinc (slot : UInt8) (value : Int8)
  | iincWide (slot : UInt16) (value : Int16)
  | convert (c : Conversion)
  | compare (c : Comparison)
  | branch (b : Branch) (offset : Int16)
  | tableSwitch (default low : Int32) (offsets : List Int32)
  | lookupSwitch (default : Int32) (pairs : List (Int32 × Int32))
  | valueReturn (kind : SlotKind)
  | voidReturn
  | field (op : FieldOp) (index : UInt16)
  | invoke (op : InvokeOp) (index : UInt16)
  | invokeInterface (index : UInt16) (count filler : UInt8)
  | new (index : UInt16)
  | newArray (code : UInt8)
  | anewArray (index : UInt16)
  | arrayLength
  | athrow
  | checkCast (index : UInt16)
  | instanceOf (index : UInt16)
  | monitorEnter
  | monitorExit
  | multiNewArray (index : UInt16) (dimensions : UInt8)
deriving DecidableEq, Repr, Inhabited

/-- Words of a value of a kind. -/
def SlotKind.words : SlotKind → Nat
  | .long | .double => 2
  | .int | .float | .ref => 1

def ElementKind.words : ElementKind → Nat
  | .long | .double => 2
  | _ => 1

def NumberKind.words : NumberKind → Nat
  | .long | .double => 2
  | .int | .float => 1

def IntegerKind.words : IntegerKind → Nat
  | .long => 2
  | .int => 1

/-- Change of the operand stack, in words. -/
def StackOp.stackChange : StackOp → Int
  | .pop => -1
  | .pop2 => -2
  | .dup | .dupX1 | .dupX2 => 1
  | .dup2 | .dup2X1 | .dup2X2 => 2
  | .swap => 0

def Conversion.stackChange : Conversion → Int
  | .intToLong | .intToDouble | .floatToLong | .floatToDouble => 1
  | .longToInt | .longToFloat | .doubleToInt | .doubleToFloat => -1
  | .intToFloat | .longToDouble | .floatToInt | .doubleToLong => 0
  | .intToByte | .intToChar | .intToShort => 0

def Comparison.stackChange : Comparison → Int
  | .long | .doubleLess | .doubleGreater => -3
  | .floatLess | .floatGreater => -1

def Branch.stackChange : Branch → Int
  | .goto => 0
  | .ifZero _ | .ifNull | .ifNonNull => -1
  | .ifInts _ | .ifSame | .ifDistinct => -2

namespace Instruction

/-- Net change of the operand stack in words. Field accesses, invocations and the creation of
many-dimensional arrays depend on more than the instruction and have none. -/
def stackChange? : Instruction → Option Int
  | .nop | .iinc _ _ | .iincWide _ _ | .voidReturn => some 0
  | .aconstNull | .iconst _ | .fconst _ | .bipush _ | .sipush _ | .ldc _ | .ldcW _ => some 1
  | .lconst _ | .dconst _ | .ldc2W _ => some 2
  | .load kind _ | .loadShort kind _ | .loadWide kind _ => some kind.words
  | .store kind _ | .storeShort kind _ | .storeWide kind _ => some (-kind.words)
  | .arrayLoad kind => some (kind.words - 2)
  | .arrayStore kind => some (-kind.words - 2)
  | .stack op => some op.stackChange
  | .arith _ kind => some (-kind.words)
  | .neg _ => some 0
  | .shift _ _ => some (-1)
  | .bitwise _ kind => some (-kind.words)
  | .convert c => some c.stackChange
  | .compare c => some c.stackChange
  | .branch b _ => some b.stackChange
  | .tableSwitch _ _ _ | .lookupSwitch _ _ => some (-1)
  | .valueReturn kind => some (-kind.words)
  | .athrow => some (-1)
  | .new _ => some 1
  | .newArray _ | .anewArray _ | .arrayLength | .checkCast _ | .instanceOf _ => some 0
  | .monitorEnter | .monitorExit => some (-1)
  | .field _ _ | .invoke _ _ | .invokeInterface _ _ _ | .multiNewArray _ _ => none

/-- Bytes between the opcode of a switch at an address and its operands, which are aligned to four
bytes. -/
def switchPadding (address : Nat) : Nat := (4 - (address + 1) % 4) % 4

/-- Bytes an instruction counts for in the addresses of a buffer. Interface invocations count one
byte less than their encoding has. -/
def size (address : Nat) : Instruction → Nat
  | .bipush _ | .ldc _ | .load _ _ | .store _ _ | .newArray _ => 2
  | .sipush _ | .ldcW _ | .ldc2W _ | .iinc _ _ | .field _ _ | .invoke _ _ | .new _ => 3
  | .anewArray _ | .checkCast _ | .instanceOf _ | .branch _ _ => 3
  | .multiNewArray _ _ | .invokeInterface _ _ _ | .loadWide _ _ | .storeWide _ _ => 4
  | .iincWide _ _ => 6
  | .tableSwitch _ _ offsets => 13 + switchPadding address + 4 * offsets.length
  | .lookupSwitch _ pairs => 9 + switchPadding address + 8 * pairs.length
  | _ => 1

/-- Whether control never continues with the next instruction. -/
def isTerminal : Instruction → Bool
  | .branch .goto _ | .tableSwitch _ _ _ | .lookupSwitch _ _ => true
  | .valueReturn _ | .voidReturn | .athrow => true
  | _ => false

end Instruction

end JavaFragment
