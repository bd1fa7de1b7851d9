import Mathlib.Analysis.SpecialFunctions.Gaussian.GaussianIntegral
import Mathlib.Analysis.SpecialFunctions.Integrals.Basic
import Mathlib.MeasureTheory.Integral.DominatedConvergence
import Mathlib.MeasureTheory.Measure.Lebesgue.Integral

/-!
# `Lib.Gauss` — the tail of the Gaussian integral

The area under `exp (-t²)` from a point on. The two tails at opposite points make up the whole area, and the tail moves
continuously with its point.
-/

namespace Gauss

open MeasureTheory Set

/-- The area under `exp (-t²)` above `x`. -/
noncomputable def tail (x : ℝ) : ℝ := ∫ t in Ioi x, Real.exp (-t ^ 2)

theorem integrable_bell : Integrable (fun t : ℝ => Real.exp (-t ^ 2)) := by
  simpa using integrable_exp_neg_mul_sq (b := 1) one_pos

theorem integral_bell : ∫ t : ℝ, Real.exp (-t ^ 2) = √Real.pi := by
  simpa using integral_gaussian 1

/-- The tails at opposite points. -/
theorem tail_add_tail_neg (x : ℝ) : tail x + tail (-x) = √Real.pi := by
  have hmirror : tail (-x) = ∫ t in Iic x, Real.exp (-t ^ 2) := by
    have h := integral_comp_neg_Ioi (-x) (fun t : ℝ => Real.exp (-t ^ 2))
    simp only [neg_sq, neg_neg] at h
    exact h
  rw [hmirror, add_comm, ← integral_bell]
  exact intervalIntegral.integral_Iic_add_Ioi integrable_bell.integrableOn integrable_bell.integrableOn

theorem continuous_tail : Continuous tail := by
  have hsplit : tail = fun x => tail 0 - ∫ t in (0 : ℝ)..x, Real.exp (-t ^ 2) := by
    funext x
    have h := intervalIntegral.integral_interval_add_Ioi (a := 0) (b := x) integrable_bell.integrableOn
      integrable_bell.integrableOn
    unfold tail
    linarith
  rw [hsplit]
  exact continuous_const.sub
    (intervalIntegral.continuous_primitive (fun _ _ => integrable_bell.intervalIntegrable) 0)

/-! ## The area from the middle -/

/-- The area under `exp (-t²)` between 0 and `x`. -/
noncomputable def area (x : ℝ) : ℝ := ∫ t in (0 : ℝ)..x, Real.exp (-t ^ 2)

theorem tail_neg_sub_tail (x : ℝ) : tail (-x) - tail x = 2 * area x := by
  have hsplit : area x + tail x = tail 0 :=
    intervalIntegral.integral_interval_add_Ioi integrable_bell.integrableOn integrable_bell.integrableOn
  have hmiddle := tail_add_tail_neg 0
  have htails := tail_add_tail_neg x
  rw [neg_zero] at hmiddle
  linarith

theorem exp_neg_le {v : ℝ} (hv : 0 ≤ v) : Real.exp (-v) ≤ 1 - v + v ^ 2 / 2 := by
  have hexp := Real.quadratic_le_exp_of_nonneg hv
  have hpos : 0 < 1 + v + v ^ 2 / 2 := by positivity
  rw [Real.exp_neg, inv_le_comm₀ (Real.exp_pos v) (by nlinarith [sq_nonneg (v - 1)])]
  refine le_trans ?_ hexp
  rw [inv_le_iff_one_le_mul₀ (by nlinarith [sq_nonneg (v - 1)])]
  nlinarith [sq_nonneg (v ^ 2)]

/-- The first terms of the series bound the area from below and from above. -/
theorem area_bounds {x : ℝ} (hx : 0 ≤ x) : x - x ^ 3 / 3 ≤ area x ∧ area x ≤ x - x ^ 3 / 3 + x ^ 5 / 10 := by
  have hlower : ∫ t in (0 : ℝ)..x, (1 - t ^ 2) = x - x ^ 3 / 3 := by
    rw [intervalIntegral.integral_sub (Continuous.intervalIntegrable (by fun_prop) 0 x)
      (Continuous.intervalIntegrable (by fun_prop) 0 x), intervalIntegral.integral_const, integral_pow, sub_zero,
      smul_eq_mul]
    ring
  have hupper : ∫ t in (0 : ℝ)..x, (1 - t ^ 2 + t ^ 4 / 2) = x - x ^ 3 / 3 + x ^ 5 / 10 := by
    rw [intervalIntegral.integral_add (Continuous.intervalIntegrable (by fun_prop) 0 x)
      (Continuous.intervalIntegrable (by fun_prop) 0 x), hlower, intervalIntegral.integral_div, integral_pow]
    ring
  have hbell : IntervalIntegrable (fun t : ℝ => Real.exp (-t ^ 2)) MeasureTheory.volume 0 x :=
    integrable_bell.intervalIntegrable
  constructor
  · rw [← hlower]
    apply intervalIntegral.integral_mono_on hx (Continuous.intervalIntegrable (by fun_prop) 0 x) hbell
    intro t _
    linarith [Real.add_one_le_exp (-t ^ 2)]
  · rw [← hupper]
    apply intervalIntegral.integral_mono_on hx hbell (Continuous.intervalIntegrable (by fun_prop) 0 x)
    intro t _
    have h := exp_neg_le (sq_nonneg t)
    nlinarith

end Gauss
