import JavaFragment.Number.FloatFormat
/-!
The shortest decimal that reads back as a given binary value, and the ways of laying it out.

A value stands for the interval of real numbers that round to it; its ends belong to it when the
mantissa is even. Decimal grids are tried from coarse to fine. On each grid only the two
neighbours of the value can be the nearest point of the interval, and the first grid with a hit
has the fewest digits.
-/
namespace JavaFragment

/-- The decimal `digits * 10 ^ exponent`. -/
structure Decimal where
  digits : Nat
  exponent : Int
deriving DecidableEq, Repr

/-- The interval of numbers that round to a value: `low`, `value` and `high` are in units of
`2 ^ exponent`. -/
structure RoundingInterval where
  low : Nat
  value : Nat
  high : Nat
  closed : Bool
  exponent : Int
deriving Repr

namespace RoundingInterval

/-- The interval around `mantissa * 2 ^ exponent` in a format. Below a power of two the next
smaller value is only half as far away. -/
def around (f : FloatFormat) (mantissa : Nat) (exponent : Int) : RoundingInterval :=
  let narrow := mantissa == f.fractionCount && f.leastExponent < exponent
  { low := 4 * mantissa - (if narrow then 1 else 2)
    value := 4 * mantissa
    high := 4 * mantissa + 2
    closed := mantissa % 2 == 0
    exponent := exponent - 2 }

/-- Factors that bring a point of the grid `10 ^ grid` and a binary value to one unit. -/
def units (i : RoundingInterval) (grid : Int) : Nat × Nat :=
  (Nat.pow 10 grid.toNat * Nat.pow 2 (-i.exponent).toNat,
    Nat.pow 2 i.exponent.toNat * Nat.pow 10 (-grid).toNat)

/-- Whether `point * 10 ^ grid` rounds to the value. -/
def contains (i : RoundingInterval) (grid : Int) (point : Nat) : Bool :=
  let (decimal, binary) := i.units grid
  let p := point * decimal
  if i.closed then i.low * binary ≤ p && p ≤ i.high * binary
  else i.low * binary < p && p < i.high * binary

/-- The point of a grid to write for the value, if one of its neighbours there rounds to it. Of
two such neighbours the nearer is taken, at equal distance the upper. -/
def onGrid (i : RoundingInterval) (grid : Int) : Option Nat :=
  let (decimal, binary) := i.units grid
  let below := i.value * binary / decimal
  let above := below + 1
  match i.contains grid below, i.contains grid above with
  | true, true =>
    some (if (below + above) * decimal ≤ 2 * (i.value * binary) then above else below)
  | true, false => some below
  | false, true => some above
  | false, false => none

/-- The first grid with a point, counting down from `grid`. -/
def search (i : RoundingInterval) : Nat → Int → Decimal
  | 0, grid => ⟨(i.onGrid grid).getD 0, grid⟩
  | fuel + 1, grid =>
    match i.onGrid grid with
    | some point => ⟨point, grid⟩
    | none => i.search fuel (grid - 1)

/-- A grid coarser than the value. -/
def coarsestGrid (i : RoundingInterval) : Int :=
  ((i.value.log2 : Int) + i.exponent + 1) * 30103 / 100000 + 2

/-- Seventeen digits always suffice; the other steps cover the estimate of the first grid. -/
def shortest (i : RoundingInterval) : Decimal := i.search 24 i.coarsestGrid

end RoundingInterval

/-- How a floating-point value is written as text. -/
structure FloatLayout where
  /-- Exponents of the leading digit that are written without an exponent; `none` for all. -/
  positional : Option (Int × Int)
  /-- Whether a whole number written without exponent ends in `.0`. -/
  wholePoint : Bool
  /-- Whether a single digit before an exponent is followed by `.0`. -/
  mantissaPoint : Bool
  exponentMark : String
  infinity : String

namespace FloatLayout

/-- Digits with the point after `whole` of them, padded with zeros as needed. -/
def placePoint (layout : FloatLayout) (digits : String) (whole : Int) : String :=
  if whole ≤ 0 then "0." ++ "".pushn '0' (-whole).toNat ++ digits
  else if (digits.length : Int) ≤ whole then
    digits.pushn '0' (whole.toNat - digits.length) ++ (if layout.wholePoint then ".0" else "")
  else
    String.ofList (digits.toList.take whole.toNat) ++ "." ++
      String.ofList (digits.toList.drop whole.toNat)

/-- One digit, the others behind a point, and the exponent. -/
def withExponent (layout : FloatLayout) (digits : String) (exponent : Int) : String :=
  let first := String.ofList (digits.toList.take 1)
  let others := String.ofList (digits.toList.drop 1)
  let tail := if others.isEmpty then (if layout.mantissaPoint then ".0" else "") else "." ++ others
  first ++ tail ++ layout.exponentMark ++ toString exponent

/-- Writes a decimal with its leading digit at `10 ^ exponent`. -/
def decimal (layout : FloatLayout) (d : Decimal) : String :=
  let digits := toString d.digits
  let exponent := d.exponent + digits.length - 1
  match layout.positional with
  | none => layout.placePoint digits (exponent + 1)
  | some (low, high) =>
    if low ≤ exponent && exponent ≤ high then layout.placePoint digits (exponent + 1)
    else layout.withExponent digits exponent

/-- Writes a bit pattern of a format. -/
def write (layout : FloatLayout) (f : FloatFormat) (bits : Nat) : String :=
  let signed (negative : Bool) (text : String) := if negative then "-" ++ text else text
  match f.decode bits with
  | .nan _ _ => "NaN"
  | .infinite negative => signed negative layout.infinity
  | .finite negative mantissa exponent =>
    if mantissa = 0 then signed negative (if layout.wholePoint then "0.0" else "0")
    else signed negative (layout.decimal (RoundingInterval.around f mantissa exponent).shortest)

end FloatLayout

end JavaFragment
