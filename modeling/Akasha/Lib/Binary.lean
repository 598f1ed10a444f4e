import Mathlib.Algebra.Group.Nat.Defs

/-!
# Rounding to binary interchange formats

Round-to-nearest-even of a dyadic number `m * 2 ^ e` into the magnitude bits of a binary
format with `fraction` stored fraction bits whose smallest subnormal is `2 ^ emin`. The
encoding of a magnitude with unit exponent `q` and rounded significand `n` is
`(q - emin) * 2 ^ fraction + n`, for normal and subnormal numbers alike, so a carry out of the
significand moves into the exponent by itself.
-/

namespace Akasha.Lib

/-- A binary interchange format: the stored fraction bits, the exponent of the smallest
subnormal, and the magnitude bits of infinity. -/
structure BinaryFormat where
  fraction : Nat
  emin : Int
  infinity : Nat

/-- IEEE 754 binary32. -/
def binary32 : BinaryFormat := ⟨23, -149, 0x7F800000⟩

/-- IEEE 754 binary64. -/
def binary64 : BinaryFormat := ⟨52, -1074, 0x7FF0000000000000⟩

/-- Divide and round to nearest, ties to even. -/
def roundHalfEven (numerator denominator : Nat) : Nat :=
  let quotient := numerator / denominator
  let twice := 2 * (numerator % denominator)
  if twice < denominator then quotient
  else if denominator < twice then quotient + 1
  else if quotient % 2 = 0 then quotient
  else quotient + 1

/-- The magnitude bits of `m * 2 ^ e` rounded into the format; overflow gives infinity. -/
def roundMagnitude (format : BinaryFormat) (m : Nat) (e : Int) : Nat :=
  if m = 0 then 0
  else
    let q := max format.emin (Nat.log2 m + e - format.fraction)
    let n :=
      if q ≤ e then m * 2 ^ (e - q).toNat else roundHalfEven m (2 ^ (q - e).toNat)
    min format.infinity ((q - format.emin).toNat * 2 ^ format.fraction + n)

/-- The significand and exponent a finite magnitude denotes. -/
def decodeMagnitude (format : BinaryFormat) (magnitude : Nat) : Nat × Int :=
  let exponent := magnitude / 2 ^ format.fraction
  let fraction := magnitude % 2 ^ format.fraction
  if exponent = 0 then (fraction, format.emin)
  else (2 ^ format.fraction + fraction, format.emin + (exponent - 1))

end Akasha.Lib
