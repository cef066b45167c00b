import Mathlib.Data.Rat.Floor
import Mathlib.Data.Nat.Log

/-!
# Binary floats

A finite float is given by its exact value. Rounding a real result to the nearest float with a
53-bit significand, ties to even, is enough for the magnitudes that scores and confidences
have; the exponent range is not bounded here.
-/

namespace MemoryPlane

/-- The float operations of the language runtime. -/
structure FloatOps where
  /-- The float nearest to a real result. -/
  round : ℚ → ℚ
  /-- The built-in `sum` of floats. -/
  sum : List ℚ → ℚ
  /-- `math.sqrt`. -/
  sqrt : ℚ → ℚ
  /-- `base ** exponent`. -/
  pow : ℚ → ℚ → ℚ

/-- The nearest integer, ties to even. -/
def roundHalfEven (q : ℚ) : ℤ :=
  let low := q.floor
  let rest := q - low
  if rest < 1 / 2 then low
  else if 1 / 2 < rest then low + 1
  else if low % 2 = 0 then low else low + 1

/-- `2 ^ e` for an integer exponent. -/
def twoPow (e : ℤ) : ℚ := if 0 ≤ e then (2 : ℚ) ^ e.toNat else 1 / (2 : ℚ) ^ (-e).toNat

/-- The exponent of the last bit of a 53-bit significand of a positive number: that of its
numerator less that of its denominator, one lower if the quotient falls below. -/
def lastBit (q : ℚ) : ℤ :=
  let e : ℤ := (Nat.log2 q.num.natAbs : ℤ) - Nat.log2 q.den
  (if twoPow e ≤ |q| then e else e - 1) - 52

/-- Round to the nearest float. -/
def binary64 (q : ℚ) : ℚ :=
  if q = 0 then 0 else roundHalfEven (q / twoPow (lastBit q)) * twoPow (lastBit q)

example : binary64 (1 / 10) = 3602879701896397 / 36028797018963968 := by decide +kernel

example : binary64 (binary64 (1 / 10) + binary64 (1 / 5)) ≠ binary64 (3 / 10) := by
  decide +kernel

end MemoryPlane
