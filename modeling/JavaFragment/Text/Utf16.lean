/-!
Text as 16-bit units, which is what strings and characters of the language are made of.
-/
namespace JavaFragment.Utf16

/-- The units of a character: one, or a pair of surrogates. -/
def units (c : Char) : List UInt16 :=
  if c.toNat < 0x10000 then [c.toNat.toUInt16]
  else
    let offset := c.toNat - 0x10000
    [(0xd800 + offset / 0x400).toUInt16, (0xdc00 + offset % 0x400).toUInt16]

def isHigh (u : UInt16) : Bool := 0xd800 ≤ u && u ≤ 0xdbff
def isLow (u : UInt16) : Bool := 0xdc00 ≤ u && u ≤ 0xdfff

/-- The character written in place of half a pair. -/
def replacement : Char := '\ufffd'

/-- The character of a unit that stands alone. -/
def single (u : UInt16) : Char :=
  if isHigh u || isLow u then replacement else Char.ofNat u.toNat

/-- The character of a pair of surrogates. -/
def paired (high low : UInt16) : Char :=
  Char.ofNat (0x10000 + (high.toNat - 0xd800) * 0x400 + (low.toNat - 0xdc00))

/-- The text of a sequence of units, appended to `text`. Halves of pairs without their other half
are replaced. -/
def decodeOnto (text : String) : List UInt16 → String
  | [] => text
  | [u] => text.push (single u)
  | u :: v :: rest =>
    if isHigh u && isLow v then decodeOnto (text.push (paired u v)) rest
    else decodeOnto (text.push (single u)) (v :: rest)

def decode (units : List UInt16) : String := decodeOnto "" units

end JavaFragment.Utf16
