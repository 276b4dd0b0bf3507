import Mathlib.Data.Int.Log
import Mathlib.Data.Rat.Floor

/-! Rounding a nonnegative rational to a binary format with unbounded exponents. -/

namespace ZSim

namespace BinaryFloat

/-- The nearest integer, the even one of two. -/
def roundTiesEven (q : ℚ) : ℤ :=
  if q - ⌊q⌋ < 1 / 2 then ⌊q⌋
  else if 1 / 2 < q - ⌊q⌋ then ⌊q⌋ + 1
  else if ⌊q⌋ % 2 = 0 then ⌊q⌋
  else ⌊q⌋ + 1

/-- The nearest value with a significand of `p` bits. -/
def round (p : ℕ) (q : ℚ) : ℚ :=
  let ulp : ℚ := (2 : ℚ) ^ (Int.log 2 q - (p - 1))
  roundTiesEven (q / ulp) * ulp

def float : ℚ → ℚ := round 24

def double : ℚ → ℚ := round 53

end BinaryFloat

end ZSim
