import JavaFragment.Number.FloatFormat
/-!
The two floating-point types of the language, each a bit pattern of its width. Equality is
equality of patterns, so both zeros differ and every value equals itself; the order of values is
`Binary64.compare`.
-/
namespace JavaFragment

/-- A value of the 32-bit type `float`. -/
structure Binary32 where
  bits : UInt32
deriving DecidableEq, Hashable, Repr, Inhabited

/-- A value of the 64-bit type `double`. -/
structure Binary64 where
  bits : UInt64
deriving DecidableEq, Hashable, Repr, Inhabited

namespace Binary64

/-- The nearest double to an integer. -/
def ofInt (n : Int) : Binary64 := ⟨(FloatFormat.double.ofInt n).toUInt64⟩

/-- The nearest double to `digits * 10 ^ scale`, for `length` digits. -/
def ofDecimal (digits length : Nat) (scale : Int) : Binary64 :=
  ⟨(FloatFormat.double.ofDecimal digits length scale).toUInt64⟩

/-- Applies an operation on patterns of the 64-bit format. -/
def lift₂ (op : Nat → Nat → Nat) (a b : Binary64) : Binary64 :=
  ⟨(op a.bits.toNat b.bits.toNat).toUInt64⟩

def add : Binary64 → Binary64 → Binary64 := lift₂ FloatFormat.double.add
def sub : Binary64 → Binary64 → Binary64 := lift₂ FloatFormat.double.sub
def mul : Binary64 → Binary64 → Binary64 := lift₂ FloatFormat.double.mul
def div : Binary64 → Binary64 → Binary64 := lift₂ FloatFormat.double.div
def rem : Binary64 → Binary64 → Binary64 := lift₂ FloatFormat.double.rem

def neg (a : Binary64) : Binary64 := ⟨(FloatFormat.double.negate a.bits.toNat).toUInt64⟩

/-- Order of values; `none` when either is no number. -/
def compare (a b : Binary64) : Option Ordering :=
  FloatFormat.double.compare a.bits.toNat b.bits.toNat

/-- The nearest `float`. -/
def toBinary32 (a : Binary64) : Binary32 :=
  ⟨(FloatFormat.double.convert .single a.bits.toNat).toUInt32⟩

/-- The integer part toward zero, held to the range of `int`. -/
def toInt32 (a : Binary64) : Int32 :=
  Int32.ofInt (FloatFormat.double.truncate (-2147483648) 2147483647 a.bits.toNat)

/-- The integer part toward zero, held to the range of `long`. -/
def toInt64 (a : Binary64) : Int64 :=
  Int64.ofInt (FloatFormat.double.truncate (-9223372036854775808) 9223372036854775807 a.bits.toNat)

/-- Whether the value is no number. -/
def isNaN (a : Binary64) : Bool :=
  match FloatFormat.double.decode a.bits.toNat with
  | .nan _ _ => true
  | _ => false

end Binary64

namespace Binary32

/-- The same value in the wider type. -/
def toBinary64 (a : Binary32) : Binary64 :=
  ⟨(FloatFormat.single.convert .double a.bits.toNat).toUInt64⟩

def neg (a : Binary32) : Binary32 := ⟨(FloatFormat.single.negate a.bits.toNat).toUInt32⟩

/-- The nearest `float` to an integer. -/
def ofInt (n : Int) : Binary32 := ⟨(FloatFormat.single.ofInt n).toUInt32⟩

end Binary32

end JavaFragment
