import CoEdit.Digits

/-!
# Numbers

Number elements hold doubles. This module says which integer a double stands for, how its bits are
written and read as sixteen hexadecimal digits, and how a number that is not finite is named.
-/
namespace CoEdit.Number

/-- Largest magnitude up to which every integer is a double of its own. -/
def maxSafeInteger : Nat := 9007199254740991

/-- The integer that the double with the given bits equals, if there is one. The bits are a sign, an
exponent of 11 bits and a fraction of 52 bits; a normal double is `2 ^ 52 + fraction` scaled by two to
the power `exponent - 1075`. -/
def integerOfBits? (bits : Nat) : Option Int :=
  let exponent := (bits >>> 52) % 2048
  let fraction := bits % 4503599627370496
  let significand := 4503599627370496 + fraction
  let signed (n : Nat) : Int := if (bits >>> 63) % 2 = 1 then -(n : Int) else n
  if exponent = 0 then
    if fraction = 0 then some 0 else none
  else if exponent = 2047 then none
  else if 1075 ≤ exponent then some (signed (significand <<< (exponent - 1075)))
  else
    let whole := significand >>> (1075 - exponent)
    if whole <<< (1075 - exponent) = significand then some (signed whole) else none

/-- The integer that `x` equals, if it has no fractional part; both zeros are `0`. -/
def integer? (x : Float) : Option Int :=
  integerOfBits? x.toBits.toNat

/-- The integer that `x` equals, if its magnitude is at most `maxSafeInteger`. -/
def safeInteger? (x : Float) : Option Int :=
  (integer? x).filter fun i => i.natAbs ≤ maxSafeInteger

/-- The sixteen hexadecimal digits of the bits of `x`. -/
def bitsText (x : Float) : String :=
  String.ofList (Digits.hex 16 x.toBits.toNat)

/-- The double whose bits are written by sixteen hexadecimal digits. -/
def ofBitsText? (text : String) : Option Float :=
  if text.length = 16 then
    (Digits.ofHex? text.toList).map fun n => Float.ofBits (UInt64.ofNat n)
  else none

/-- How a number that is not finite is named in a message. -/
def nonFiniteName (x : Float) : String :=
  if x.isNaN then "NaN" else if x < 0 then "-inf" else "inf"

example : integer? (-3.0) = some (-3) ∧ integer? 0.5 = none ∧ integer? (-0.0) = some 0 := by
  decide +kernel

end CoEdit.Number
