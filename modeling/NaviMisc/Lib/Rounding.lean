import Mathlib.Data.Rat.Floor

/-!
Rounding towards zero, and representatives modulo a period.
-/

namespace NaviMisc.Lib.Rounding

/-- `int(x)`, which drops the fraction. -/
def truncate (q : ℚ) : ℤ := if 0 ≤ q then ⌊q⌋ else ⌈q⌉

theorem truncate_of_nonneg {q : ℚ} (h : 0 ≤ q) : truncate q = ⌊q⌋ := if_pos h

/-- Of the numbers that differ from `x` by multiples of the period, the one from 0 up. -/
def turn (period x : ℚ) : ℚ := Int.fract (x / period) * period

variable {period x y : ℚ}

theorem turn_nonneg (h : 0 < period) : 0 ≤ turn period x :=
  (Int.fract_div_mul_self_mem_Ico period x h).1

theorem turn_lt (h : 0 < period) : turn period x < period :=
  (Int.fract_div_mul_self_mem_Ico period x h).2

theorem turn_sub_mul (h : 0 < period) (k : ℤ) : turn period (x - period * k) = turn period x := by
  have hdiv : (x - period * k) / period = x / period - k := by
    field_simp
  rw [turn, turn, hdiv, Int.fract_sub_intCast]

theorem turn_of_mem (h : 0 < period) (hx : 0 ≤ x) (hlt : x < period) : turn period x = x := by
  have hfract : Int.fract (x / period) = x / period :=
    Int.fract_eq_self.mpr ⟨by positivity, (div_lt_one h).mpr hlt⟩
  rw [turn, hfract, div_mul_cancel₀ x h.ne']

theorem turn_eq_sub (h : 0 < period) : turn period x = x - period * ⌊x / period⌋ := by
  rw [turn, Int.fract, sub_mul, div_mul_cancel₀ x h.ne', mul_comm]

end NaviMisc.Lib.Rounding
