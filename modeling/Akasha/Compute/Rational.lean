import Akasha.Document.Value
import Mathlib.Algebra.BigOperators.Group.List.Basic
import Mathlib.Algebra.Order.Field.Rat

/-!
# Exact scores

The numbers that finite floats denote, and the metrics on them without rounding. A cosine is
compared by its signed square, which orders the same.
-/

namespace Akasha

open Lib

/-- The number a finite `Float32` denotes. -/
def F32.toRat (x : F32) : ℚ :=
  let (m, e) := decodeMagnitude binary32 (x.bits.toNat % 2 ^ 31)
  (if x.bits.toNat / 2 ^ 31 = 0 then 1 else -1) * m * (2 : ℚ) ^ e

namespace Compute

def dotRat (lhs rhs : List ℚ) : ℚ :=
  (lhs.zipWith (· * ·) rhs).sum

def l2Rat (lhs rhs : List ℚ) : ℚ :=
  (lhs.zipWith (fun x y => (x - y) * (x - y)) rhs).sum

/-- The square of the cosine, with the sign of the product. -/
def cosineRat (lhs rhs : List ℚ) : ℚ :=
  dotRat lhs rhs * |dotRat lhs rhs| / (dotRat lhs lhs * dotRat rhs rhs)

end Compute

end Akasha
