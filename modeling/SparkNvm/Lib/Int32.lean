import Mathlib.Algebra.Order.Ring.Int

/-!
# 32-bit integers

A Java `int`, and a C++ `int` under `-fwrapv`, is an integer from `-2 ^ 31` up to
`2 ^ 31 - 1`, and every result is taken modulo `2 ^ 32` into that range.
-/

namespace SparkNvm.Lib

/-- The representative of `x` modulo `2 ^ 32` that fits into 32 bits. -/
def wrap32 (x : Int) : Int := (x + 2 ^ 31) % 2 ^ 32 - 2 ^ 31

theorem wrap32_of_fits {x : Int} (hlo : -2 ^ 31 ≤ x) (hhi : x < 2 ^ 31) : wrap32 x = x := by
  unfold wrap32
  omega

theorem wrap32_zero : wrap32 0 = 0 := wrap32_of_fits (by decide) (by decide)

/-- A sum of two non-negative 32-bit integers that is too large wraps to a
negative one. -/
theorem wrap32_neg {x : Int} (hlo : 2 ^ 31 ≤ x) (hhi : x < 2 ^ 32) : wrap32 x < 0 := by
  unfold wrap32
  omega

theorem wrap32_le (x : Int) : wrap32 x < 2 ^ 31 := by
  unfold wrap32
  omega

/-- A sum that was wrapped on the way. -/
theorem wrap32_add_left (x y : Int) : wrap32 (wrap32 x + y) = wrap32 (x + y) := by
  unfold wrap32
  omega

end SparkNvm.Lib
