import JavaFragment.Bytecode.Instruction
/-!
The byte form of instructions: an opcode followed by its operands, most significant byte first.
Reading hands back the bytes after the instruction.
-/
namespace JavaFragment

/-- Two bytes, the higher first. -/
def bytes16 (n : UInt16) : List UInt8 := [(n >>> 8).toUInt8, n.toUInt8]

/-- Four bytes, the highest first. -/
def bytes32 (n : UInt32) : List UInt8 :=
  [(n >>> 24).toUInt8, (n >>> 16).toUInt8, (n >>> 8).toUInt8, n.toUInt8]

/-- Eight bytes, the highest first. -/
def bytes64 (n : UInt64) : List UInt8 := bytes32 (n >>> 32).toUInt32 ++ bytes32 n.toUInt32

def read8 : List UInt8 → Option (UInt8 × List UInt8)
  | a :: rest => some (a, rest)
  | [] => none

def read16 : List UInt8 → Option (UInt16 × List UInt8)
  | a :: b :: rest => some (a.toUInt16 <<< 8 ||| b.toUInt16, rest)
  | _ => none

def read32 : List UInt8 → Option (UInt32 × List UInt8)
  | a :: b :: c :: d :: rest =>
    some (a.toUInt32 <<< 24 ||| b.toUInt32 <<< 16 ||| c.toUInt32 <<< 8 ||| d.toUInt32, rest)
  | _ => none

/-- Place of a kind among the opcodes of its family. -/
def SlotKind.index : SlotKind → UInt8
  | .int => 0
  | .long => 1
  | .float => 2
  | .double => 3
  | .ref => 4

def ElementKind.index : ElementKind → UInt8
  | .int => 0
  | .long => 1
  | .float => 2
  | .double => 3
  | .ref => 4
  | .byte => 5
  | .char => 6
  | .short => 7

def NumberKind.index : NumberKind → UInt8
  | .int => 0
  | .long => 1
  | .float => 2
  | .double => 3

def IntegerKind.index : IntegerKind → UInt8
  | .int => 0
  | .long => 1

def StackOp.index : StackOp → UInt8
  | .pop => 0
  | .pop2 => 1
  | .dup => 2
  | .dupX1 => 3
  | .dupX2 => 4
  | .dup2 => 5
  | .dup2X1 => 6
  | .dup2X2 => 7
  | .swap => 8

def ArithOp.index : ArithOp → UInt8
  | .add => 0
  | .sub => 1
  | .mul => 2
  | .div => 3
  | .rem => 4

def ShiftOp.index : ShiftOp → UInt8
  | .left => 0
  | .right => 1
  | .unsignedRight => 2

def BitOp.index : BitOp → UInt8
  | .and => 0
  | .or => 1
  | .xor => 2

def Conversion.index : Conversion → UInt8
  | .intToLong => 0
  | .intToFloat => 1
  | .intToDouble => 2
  | .longToInt => 3
  | .longToFloat => 4
  | .longToDouble => 5
  | .floatToInt => 6
  | .floatToLong => 7
  | .floatToDouble => 8
  | .doubleToInt => 9
  | .doubleToLong => 10
  | .doubleToFloat => 11
  | .intToByte => 12
  | .intToChar => 13
  | .intToShort => 14

def Comparison.index : Comparison → UInt8
  | .long => 0
  | .floatLess => 1
  | .floatGreater => 2
  | .doubleLess => 3
  | .doubleGreater => 4

def Relation.index : Relation → UInt8
  | .eq => 0
  | .ne => 1
  | .lt => 2
  | .ge => 3
  | .gt => 4
  | .le => 5

def Branch.opcode : Branch → UInt8
  | .ifZero r => 0x99 + r.index
  | .ifInts r => 0x9f + r.index
  | .ifSame => 0xa5
  | .ifDistinct => 0xa6
  | .goto => 0xa7
  | .ifNull => 0xc6
  | .ifNonNull => 0xc7

/-- All branches. -/
def Branch.all : List Branch :=
  let relations : List Relation := [.eq, .ne, .lt, .ge, .gt, .le]
  relations.map ifZero ++ relations.map ifInts ++ [ifSame, ifDistinct, goto, ifNull, ifNonNull]

def FieldOp.opcode : FieldOp → UInt8
  | .getStatic => 0xb2
  | .putStatic => 0xb3
  | .getField => 0xb4
  | .putField => 0xb5

def InvokeOp.opcode : InvokeOp → UInt8
  | .virtual => 0xb6
  | .special => 0xb7
  | .static => 0xb8

namespace Instruction

/-- The byte before the opcode of an instruction with wide operands. -/
def wideMark : UInt8 := 0xc4

/-- The opcode. The wide forms share it with the narrow ones. -/
def opcode : Instruction → UInt8
  | .nop => 0x00
  | .aconstNull => 0x01
  | .iconst n => 0x02 + n.val.toUInt8
  | .lconst n => 0x09 + n.val.toUInt8
  | .fconst n => 0x0b + n.val.toUInt8
  | .dconst n => 0x0e + n.val.toUInt8
  | .bipush _ => 0x10
  | .sipush _ => 0x11
  | .ldc _ => 0x12
  | .ldcW _ => 0x13
  | .ldc2W _ => 0x14
  | .load kind _ | .loadWide kind _ => 0x15 + kind.index
  | .loadShort kind slot => 0x1a + 4 * kind.index + slot.val.toUInt8
  | .arrayLoad kind => 0x2e + kind.index
  | .store kind _ | .storeWide kind _ => 0x36 + kind.index
  | .storeShort kind slot => 0x3b + 4 * kind.index + slot.val.toUInt8
  | .arrayStore kind => 0x4f + kind.index
  | .stack op => 0x57 + op.index
  | .arith op kind => 0x60 + 4 * op.index + kind.index
  | .neg kind => 0x74 + kind.index
  | .shift op kind => 0x78 + 2 * op.index + kind.index
  | .bitwise op kind => 0x7e + 2 * op.index + kind.index
  | .iinc _ _ | .iincWide _ _ => 0x84
  | .convert c => 0x85 + c.index
  | .compare c => 0x94 + c.index
  | .branch b _ => b.opcode
  | .tableSwitch _ _ _ => 0xaa
  | .lookupSwitch _ _ => 0xab
  | .valueReturn kind => 0xac + kind.index
  | .voidReturn => 0xb1
  | .field op _ => op.opcode
  | .invoke op _ => op.opcode
  | .invokeInterface _ _ _ => 0xb9
  | .new _ => 0xbb
  | .newArray _ => 0xbc
  | .anewArray _ => 0xbd
  | .arrayLength => 0xbe
  | .athrow => 0xbf
  | .checkCast _ => 0xc0
  | .instanceOf _ => 0xc1
  | .monitorEnter => 0xc2
  | .monitorExit => 0xc3
  | .multiNewArray _ _ => 0xc5

/-- The operands of an instruction whose opcode is at an address. -/
def operands (address : Nat) : Instruction → List UInt8
  | .bipush value => [value.toUInt8]
  | .sipush value => bytes16 value.toUInt16
  | .ldc index => [index]
  | .ldcW index | .ldc2W index => bytes16 index
  | .load _ slot | .store _ slot => [slot]
  | .loadWide _ slot | .storeWide _ slot => bytes16 slot
  | .iinc slot value => [slot, value.toUInt8]
  | .iincWide slot value => bytes16 slot ++ bytes16 value.toUInt16
  | .branch _ offset => bytes16 offset.toUInt16
  | .tableSwitch default low offsets =>
    List.replicate (switchPadding address) 0 ++ bytes32 default.toUInt32 ++ bytes32 low.toUInt32 ++
      bytes32 (low + Int32.ofNat offsets.length - 1).toUInt32 ++
      offsets.flatMap fun offset => bytes32 offset.toUInt32
  | .lookupSwitch default pairs =>
    List.replicate (switchPadding address) 0 ++ bytes32 default.toUInt32 ++
      bytes32 pairs.length.toUInt32 ++
      pairs.flatMap fun (key, offset) => bytes32 key.toUInt32 ++ bytes32 offset.toUInt32
  | .field _ index | .invoke _ index | .new index | .anewArray index => bytes16 index
  | .checkCast index | .instanceOf index => bytes16 index
  | .invokeInterface index count filler => bytes16 index ++ [count, filler]
  | .newArray code => [code]
  | .multiNewArray index dimensions => bytes16 index ++ [dimensions]
  | _ => []

def isWide : Instruction → Bool
  | .loadWide _ _ | .storeWide _ _ | .iincWide _ _ => true
  | _ => false

/-- The bytes of an instruction whose first byte is at an address. -/
def encode (address : Nat) (i : Instruction) : List UInt8 :=
  let rest := i.opcode :: i.operands address
  if i.isWide then wideMark :: rest else rest

/-- All instructions without operands. -/
def plainInstructions : List Instruction :=
  let slots : List SlotKind := [.int, .long, .float, .double, .ref]
  let elements : List ElementKind := [.int, .long, .float, .double, .ref, .byte, .char, .short]
  let numbers : List NumberKind := [.int, .long, .float, .double]
  let integers : List IntegerKind := [.int, .long]
  [nop, aconstNull] ++ (List.finRange 7).map iconst ++ (List.finRange 2).map lconst ++
    (List.finRange 3).map fconst ++ (List.finRange 2).map dconst ++
    slots.flatMap (fun kind => (List.finRange 4).map (loadShort kind)) ++ elements.map arrayLoad ++
    slots.flatMap (fun kind => (List.finRange 4).map (storeShort kind)) ++ elements.map arrayStore ++
    [StackOp.pop, .pop2, .dup, .dupX1, .dupX2, .dup2, .dup2X1, .dup2X2, .swap].map stack ++
    [ArithOp.add, .sub, .mul, .div, .rem].flatMap (fun op => numbers.map (arith op)) ++
    numbers.map neg ++
    [ShiftOp.left, .right, .unsignedRight].flatMap (fun op => integers.map (shift op)) ++
    [BitOp.and, .or, .xor].flatMap (fun op => integers.map (bitwise op)) ++
    [Conversion.intToLong, .intToFloat, .intToDouble, .longToInt, .longToFloat, .longToDouble,
      .floatToInt, .floatToLong, .floatToDouble, .doubleToInt, .doubleToLong, .doubleToFloat,
      .intToByte, .intToChar, .intToShort].map convert ++
    [Comparison.long, .floatLess, .floatGreater, .doubleLess, .doubleGreater].map compare ++
    slots.map valueReturn ++
    [voidReturn, arrayLength, athrow, monitorEnter, monitorExit]

/-- How the operands of an opcode are read. -/
inductive Layout where
  | byte (make : UInt8 → Instruction)
  | signedByte (make : Int8 → Instruction)
  | short (make : UInt16 → Instruction)
  | signedShort (make : Int16 → Instruction)
  | increment
  | interface
  | dimensions
  | table
  | lookup
  | wide

/-- The opcodes with operands, each with a way to read them. -/
def layouts : List (UInt8 × Layout) :=
  let slots : List SlotKind := [.int, .long, .float, .double, .ref]
  ([(0x10, .signedByte bipush), (0x11, .signedShort sipush), (0x12, .byte ldc),
    (0x13, .short ldcW), (0x14, .short ldc2W)] : List (UInt8 × Layout)) ++
    slots.map (fun kind => (0x15 + kind.index, Layout.byte (load kind))) ++
    slots.map (fun kind => (0x36 + kind.index, Layout.byte (store kind))) ++
    ([(0x84, .increment)] : List (UInt8 × Layout)) ++
    Branch.all.map (fun b => (b.opcode, Layout.signedShort (branch b))) ++
    ([(0xaa, .table), (0xab, .lookup)] : List (UInt8 × Layout)) ++
    [FieldOp.getStatic, .putStatic, .getField, .putField].map
      (fun op => (op.opcode, Layout.short (field op))) ++
    [InvokeOp.virtual, .special, .static].map (fun op => (op.opcode, Layout.short (invoke op))) ++
    ([(0xb9, .interface), (0xbb, .short new), (0xbc, .byte newArray), (0xbd, .short anewArray),
      (0xc0, .short checkCast), (0xc1, .short instanceOf), (wideMark, .wide),
      (0xc5, .dimensions)] : List (UInt8 × Layout))

/-- Reads a number of four-byte offsets. -/
def readOffsets : Nat → List UInt8 → Option (List Int32 × List UInt8)
  | 0, bytes => some ([], bytes)
  | count + 1, bytes => do
    let (offset, bytes) ← read32 bytes
    let (others, bytes) ← readOffsets count bytes
    return (offset.toInt32 :: others, bytes)

/-- Reads a number of pairs of key and offset. -/
def readPairs : Nat → List UInt8 → Option (List (Int32 × Int32) × List UInt8)
  | 0, bytes => some ([], bytes)
  | count + 1, bytes => do
    let (key, bytes) ← read32 bytes
    let (offset, bytes) ← read32 bytes
    let (others, bytes) ← readPairs count bytes
    return ((key.toInt32, offset.toInt32) :: others, bytes)

/-- Reads the operands of a table switch, after the padding. -/
def readTable (bytes : List UInt8) : Option (Instruction × List UInt8) := do
  let (default, bytes) ← read32 bytes
  let (low, bytes) ← read32 bytes
  let (high, bytes) ← read32 bytes
  let count := high.toInt32.toInt - low.toInt32.toInt + 1
  if count < 0 || (bytes.length : Int) < 4 * count then none
  else do
    let (offsets, bytes) ← readOffsets count.toNat bytes
    return (tableSwitch default.toInt32 low.toInt32 offsets, bytes)

/-- Reads the operands of a lookup switch, after the padding. -/
def readLookup (bytes : List UInt8) : Option (Instruction × List UInt8) := do
  let (default, bytes) ← read32 bytes
  let (count, bytes) ← read32 bytes
  if bytes.length < 8 * count.toNat then none
  else do
    let (pairs, bytes) ← readPairs count.toNat bytes
    return (lookupSwitch default.toInt32 pairs, bytes)

/-- Reads what follows the mark of a wide instruction. -/
def readWide (bytes : List UInt8) : Option (Instruction × List UInt8) := do
  let (op, bytes) ← read8 bytes
  let (slot, bytes) ← read16 bytes
  let slots : List SlotKind := [.int, .long, .float, .double, .ref]
  if op = 0x84 then do
    let (value, bytes) ← read16 bytes
    return (iincWide slot value.toInt16, bytes)
  else
    let forms := slots.map (fun kind => loadWide kind slot) ++
      slots.map (fun kind => storeWide kind slot)
    (forms.find? fun form => form.opcode == op).map fun form => (form, bytes)

/-- Reads operands of a layout for an opcode at an address. -/
def Layout.read (address : Nat) (bytes : List UInt8) : Layout → Option (Instruction × List UInt8)
  | .byte make => (read8 bytes).map fun (n, rest) => (make n, rest)
  | .signedByte make => (read8 bytes).map fun (n, rest) => (make n.toInt8, rest)
  | .short make => (read16 bytes).map fun (n, rest) => (make n, rest)
  | .signedShort make => (read16 bytes).map fun (n, rest) => (make n.toInt16, rest)
  | .increment => do
    let (slot, bytes) ← read8 bytes
    let (value, bytes) ← read8 bytes
    return (iinc slot value.toInt8, bytes)
  | .interface => do
    let (index, bytes) ← read16 bytes
    let (count, bytes) ← read8 bytes
    let (filler, bytes) ← read8 bytes
    return (invokeInterface index count filler, bytes)
  | .dimensions => do
    let (index, bytes) ← read16 bytes
    let (count, bytes) ← read8 bytes
    return (multiNewArray index count, bytes)
  | .table => readTable (bytes.drop (switchPadding address))
  | .lookup => readLookup (bytes.drop (switchPadding address))
  | .wide => readWide bytes

/-- Reads one instruction whose first byte is at an address. Padding may hold any bytes. -/
def decode (address : Nat) : List UInt8 → Option (Instruction × List UInt8)
  | [] => none
  | op :: bytes =>
    match plainInstructions.find? fun i => i.opcode == op with
    | some i => some (i, bytes)
    | none => (layouts.lookup op).bind fun layout => layout.read address bytes

/-- Reads instructions until the bytes end, with their addresses. Fails with the address of the
first one that cannot be read. The fuel bounds their number. -/
def decodeAll : Nat → Nat → List UInt8 → Except Nat (List (Nat × Instruction))
  | _, _, [] => .ok []
  | 0, address, _ => .error address
  | fuel + 1, address, bytes =>
    match decode address bytes with
    | none => .error address
    | some (i, rest) => do
      let others ← decodeAll fuel (address + (i.encode address).length) rest
      return (address, i) :: others

end Instruction

end JavaFragment
