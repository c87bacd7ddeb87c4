/-!
Binary floating-point numbers as bit patterns. A format fixes how many bits hold the fraction and
the exponent; every operation is exact arithmetic on natural numbers followed by one rounding to
the nearest representable value, a tie going to the even one. Nothing here depends on the
machine's own floating-point unit.
-/
namespace JavaFragment

/-- A binary interchange format, given by the widths of its fraction and exponent fields. -/
structure FloatFormat where
  fractionBits : Nat
  exponentBits : Nat
deriving DecidableEq, Repr

/-- What a bit pattern stands for. A finite value is `mantissa * 2 ^ exponent` with a sign, so
both zeros are finite with mantissa zero. -/
inductive FloatValue where
  | nan (negative : Bool) (payload : Nat)
  | infinite (negative : Bool)
  | finite (negative : Bool) (mantissa : Nat) (exponent : Int)
deriving DecidableEq, Repr

namespace FloatFormat

/-- The 32-bit format. -/
def single : FloatFormat := ⟨23, 8⟩

/-- The 64-bit format. -/
def double : FloatFormat := ⟨52, 11⟩

/-- Number of different fractions. -/
def fractionCount (f : FloatFormat) : Nat := Nat.pow 2 f.fractionBits

/-- The exponent field that marks infinities and values that are no numbers. -/
def specialField (f : FloatFormat) : Nat := Nat.pow 2 f.exponentBits - 1

/-- Weight of the sign bit. -/
def signWeight (f : FloatFormat) : Nat := Nat.pow 2 (f.fractionBits + f.exponentBits)

/-- Exponent of the last place of the smallest positive values. -/
def leastExponent (f : FloatFormat) : Int :=
  2 - (Nat.pow 2 (f.exponentBits - 1) : Nat) - f.fractionBits

/-- Reads a bit pattern. Bits above the sign are ignored. -/
def decode (f : FloatFormat) (bits : Nat) : FloatValue :=
  let negative := bits / f.signWeight % 2 == 1
  let field := bits / f.fractionCount % Nat.pow 2 f.exponentBits
  let fraction := bits % f.fractionCount
  if field = f.specialField then
    if fraction = 0 then .infinite negative else .nan negative fraction
  else if field = 0 then
    .finite negative fraction f.leastExponent
  else
    .finite negative (fraction + f.fractionCount) (f.leastExponent + field - 1)

/-- Joins a sign with the bits below it. -/
def withSign (f : FloatFormat) (negative : Bool) (magnitude : Nat) : Nat :=
  if negative then magnitude + f.signWeight else magnitude

/-- The infinity of the given sign. -/
def infinity (f : FloatFormat) (negative : Bool) : Nat :=
  f.withSign negative (f.specialField * f.fractionCount)

/-- A quiet value that is no number: the highest fraction bit is set whatever the payload. -/
def quietNaN (f : FloatFormat) (negative : Bool) (payload : Nat) : Nat :=
  let top := f.fractionCount / 2
  f.withSign negative (f.specialField * f.fractionCount + top + payload % top)

/-- The result of an operation without a meaningful value, such as zero by zero. Its sign bit is
set and its payload is empty. -/
def invalid (f : FloatFormat) : Nat := f.quietNaN true 0

/-- `num / (den * 2 ^ exponent)` as a fraction of natural numbers. -/
def scaledRatio (num den : Nat) (exponent : Int) : Nat × Nat :=
  if 0 ≤ exponent then (num, den * Nat.pow 2 exponent.toNat)
  else (num * Nat.pow 2 (-exponent).toNat, den)

/-- The nearest natural number to `num / den`, a tie going to the even neighbour. -/
def roundHalfEven (num den : Nat) : Nat :=
  let quotient := num / den
  let excess := 2 * (num % den)
  if excess > den || (excess == den && quotient % 2 == 1) then quotient + 1 else quotient

/-- The exponent at which `num / den` is rounded: the one that leaves a full mantissa, or the
least exponent for values too small to have one. -/
def roundingExponent (f : FloatFormat) (num den : Nat) : Int :=
  let guess : Int := (num.log2 : Int) - den.log2 - f.fractionBits - 1
  let (n, d) := scaledRatio num den guess
  let exact := if n / d < 2 * f.fractionCount then guess else guess + 1
  max f.leastExponent exact

/-- The bit pattern nearest to `num / den`, for a positive denominator. Values beyond the largest
finite one become infinite. -/
def ofRatio (f : FloatFormat) (negative : Bool) (num den : Nat) : Nat :=
  if num = 0 then f.withSign negative 0
  else
    let exponent := f.roundingExponent num den
    let (n, d) := scaledRatio num den exponent
    let mantissa := roundHalfEven n d
    let steps := (exponent - f.leastExponent).toNat
    -- a mantissa rounded up to the next power of two carries into the exponent field by itself
    let magnitude := steps * f.fractionCount + mantissa
    if magnitude < f.specialField * f.fractionCount then f.withSign negative magnitude
    else f.infinity negative

/-- The bit pattern nearest to `mantissa * 2 ^ exponent`. -/
def ofScaled (f : FloatFormat) (negative : Bool) (mantissa : Nat) (exponent : Int) : Nat :=
  if 0 ≤ exponent then f.ofRatio negative (mantissa * Nat.pow 2 exponent.toNat) 1
  else f.ofRatio negative mantissa (Nat.pow 2 (-exponent).toNat)

/-- The bit pattern nearest to an integer. -/
def ofInt (f : FloatFormat) (n : Int) : Nat := f.ofRatio (n < 0) n.natAbs 1

/-- Longest decimal magnitude worth reading: every power of ten above it is infinite. -/
def decimalCeiling : Int := 400

/-- The bit pattern nearest to `digits * 10 ^ scale`, where `digits` has `length` digits.
Magnitudes far outside the format are settled without computing the power. -/
def ofDecimal (f : FloatFormat) (digits length : Nat) (scale : Int) : Nat :=
  if digits = 0 then f.withSign false 0
  else if decimalCeiling < scale + length then f.infinity false
  else if scale + length < -decimalCeiling then f.withSign false 0
  else if 0 ≤ scale then f.ofRatio false (digits * Nat.pow 10 scale.toNat) 1
  else f.ofRatio false digits (Nat.pow 10 (-scale).toNat)

/-- Reads a pattern of one format into another, rounding if the target is narrower. -/
def convert (source target : FloatFormat) (bits : Nat) : Nat :=
  match source.decode bits with
  | .nan negative payload =>
    let moved :=
      if source.fractionBits ≤ target.fractionBits then
        payload * Nat.pow 2 (target.fractionBits - source.fractionBits)
      else payload / Nat.pow 2 (source.fractionBits - target.fractionBits)
    target.quietNaN negative moved
  | .infinite negative => target.infinity negative
  | .finite negative mantissa exponent => target.ofScaled negative mantissa exponent

/-- A signed mantissa brought to a lower exponent. -/
def signedAt (negative : Bool) (mantissa : Nat) (exponent target : Int) : Int :=
  let scaled : Int := mantissa * Nat.pow 2 (exponent - target).toNat
  if negative then -scaled else scaled

/-- Arithmetic where both operands are numbers; `none` when an operand is not. -/
def propagated (f : FloatFormat) : FloatValue → FloatValue → Option Nat
  | .nan negative payload, _ => some (f.quietNaN negative payload)
  | _, .nan negative payload => some (f.quietNaN negative payload)
  | _, _ => none

/-- Sum. An exact zero is positive unless both operands are negative. -/
def add (f : FloatFormat) (a b : Nat) : Nat :=
  let x := f.decode a
  let y := f.decode b
  (f.propagated x y).getD <|
    match x, y with
    | .infinite s, .infinite t => if s = t then a else f.invalid
    | .infinite _, _ => a
    | _, .infinite _ => b
    | .finite s m e, .finite t n g =>
      let low := min e g
      let sum := signedAt s m e low + signedAt t n g low
      if sum = 0 then f.withSign (s && t) 0
      else f.ofScaled (sum < 0) sum.natAbs low
    | _, _ => f.invalid

/-- The same value with the other sign; also changes the sign of what is no number. -/
def negate (f : FloatFormat) (bits : Nat) : Nat :=
  if bits / f.signWeight % 2 == 1 then bits - f.signWeight else bits + f.signWeight

/-- Difference. -/
def sub (f : FloatFormat) (a b : Nat) : Nat :=
  match f.propagated (f.decode a) (f.decode b) with
  | some result => result
  | none => f.add a (f.negate b)

/-- Product. -/
def mul (f : FloatFormat) (a b : Nat) : Nat :=
  let x := f.decode a
  let y := f.decode b
  (f.propagated x y).getD <|
    match x, y with
    | .infinite s, .infinite t => f.infinity (s != t)
    | .infinite s, .finite t n _ => if n = 0 then f.invalid else f.infinity (s != t)
    | .finite s m _, .infinite t => if m = 0 then f.invalid else f.infinity (s != t)
    | .finite s m e, .finite t n g => f.ofScaled (s != t) (m * n) (e + g)
    | _, _ => f.invalid

/-- Quotient. -/
def div (f : FloatFormat) (a b : Nat) : Nat :=
  let x := f.decode a
  let y := f.decode b
  (f.propagated x y).getD <|
    match x, y with
    | .infinite _, .infinite _ => f.invalid
    | .infinite s, .finite t _ _ => f.infinity (s != t)
    | .finite s _ _, .infinite t => f.withSign (s != t) 0
    | .finite s m e, .finite t n g =>
      if n = 0 then if m = 0 then f.invalid else f.infinity (s != t)
      else
        let (num, den) := scaledRatio m n (g - e)
        f.ofRatio (s != t) num den
    | _, _ => f.invalid

/-- Remainder of division toward zero; exact, with the sign of the dividend. -/
def rem (f : FloatFormat) (a b : Nat) : Nat :=
  let x := f.decode a
  let y := f.decode b
  (f.propagated x y).getD <|
    match x, y with
    | .finite s m e, .finite _ n g =>
      if n = 0 then f.invalid
      else
        let low := min e g
        let left := m * Nat.pow 2 (e - low).toNat
        let right := n * Nat.pow 2 (g - low).toNat
        f.ofScaled s (left % right) low
    | .finite _ _ _, .infinite _ => a
    | _, _ => f.invalid

/-- Order of two patterns; `none` when either is no number. Both zeros are equal. -/
def compare (f : FloatFormat) (a b : Nat) : Option Ordering :=
  match f.decode a, f.decode b with
  | .nan _ _, _ => none
  | _, .nan _ _ => none
  | .infinite s, .infinite t =>
    some (if s = t then .eq else if s then .lt else .gt)
  | .infinite s, _ => some (if s then .lt else .gt)
  | _, .infinite t => some (if t then .gt else .lt)
  | .finite s m e, .finite t n g =>
    let low := min e g
    some (Ord.compare (signedAt s m e low) (signedAt t n g low))

/-- The integer part toward zero, held between two bounds. What is no number counts as zero. -/
def truncate (f : FloatFormat) (low high : Int) (bits : Nat) : Int :=
  match f.decode bits with
  | .nan _ _ => 0
  | .infinite negative => if negative then low else high
  | .finite negative mantissa exponent =>
    let (n, d) := if 0 ≤ exponent then (mantissa * Nat.pow 2 exponent.toNat, 1)
      else (mantissa, Nat.pow 2 (-exponent).toNat)
    let whole : Int := (n / d : Nat)
    max low (min high (if negative then -whole else whole))

end FloatFormat

end JavaFragment
