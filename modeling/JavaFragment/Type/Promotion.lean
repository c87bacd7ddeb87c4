import JavaFragment.Type.Basic
/-!
Numeric promotion and widening between primitive types.
-/
namespace JavaFragment

/-- Position of a numeric type in the order of promotion; the small integers count as `int`. -/
def Primitive.rank? : Primitive → Option Nat
  | .byte | .char | .short | .int => some 0
  | .long => some 1
  | .float => some 2
  | .double => some 3
  | .void | .boolean => none

/-- The promoted type of a rank. -/
def Primitive.ofRank : Nat → Primitive
  | 0 => .int
  | 1 => .long
  | 2 => .float
  | _ => .double

namespace BaseType

/-- Position in the order of promotion, for numeric types. -/
def rank? : BaseType → Option Nat
  | .primitive p => p.rank?
  | _ => none

/-- Conversions between primitives that lose no magnitude, every type to itself included. -/
def widensTo (source target : BaseType) : Bool :=
  source == target || match source, target with
    | .primitive p, .primitive q =>
      match p, q with
      | .byte, .short | .byte, .int | .byte, .long | .byte, .float | .byte, .double => true
      | .short, .int | .short, .long | .short, .float | .short, .double => true
      | .char, .int | .char, .long | .char, .float | .char, .double => true
      | .int, .long | .int, .float | .int, .double => true
      | .long, .float | .long, .double => true
      | .float, .double => true
      | _, _ => false
    | _, _ => false

/-- Whether an integer constant lies in the range of a type of the `int` family. -/
def holdsConstant (value : Int) : BaseType → Bool
  | .primitive .byte => -128 ≤ value && value < 128
  | .primitive .short => -32768 ≤ value && value < 32768
  | .primitive .char => 0 ≤ value && value < 65536
  | .primitive .int => -2147483648 ≤ value && value < 2147483648
  | _ => false

end BaseType

namespace JavaType

/-- Promotion of one operand: `byte`, `char` and `short` become `int`. -/
def promoted? (t : JavaType) : Option JavaType :=
  t.primitive?.bind fun p => p.rank?.map fun rank => prim (.ofRank rank)

/-- Promotion of two operands to the higher of their ranks. -/
def promotedWith? (a b : JavaType) : Option JavaType := do
  let p ← a.primitive?
  let q ← b.primitive?
  let r ← p.rank?
  let s ← q.rank?
  return prim (.ofRank (max r s))

end JavaType

end JavaFragment
