import Mathlib.Analysis.Real.Sqrt
import Mathlib.Tactic.Linarith

/-!
# `Lib.Bracket` — a bracket around a level of a function

A bracket is an interval at whose left end a function is not above a level, and at whose right end it is not below it
by more than a slack. Probing any point inside leaves a smaller bracket; and where the function is continuous, a
bracket always holds a point at which it meets the level, up to the slack.
-/

namespace Bracketing

/-- `f` meets the level `m` between `lo` and `hi`, up to `slack` at the right end. -/
structure Bracket (f : ℝ → ℝ) (m slack lo hi : ℝ) : Prop where
  lt : lo < hi
  left : f lo ≤ m
  right : m ≤ f hi + slack

variable {f : ℝ → ℝ} {m slack lo hi x : ℝ}

/-- A probe above the level is the new right end. -/
theorem Bracket.above (h : Bracket f m slack lo hi) (hslack : 0 ≤ slack) (hx : lo < x) (hf : m < f x) :
    Bracket f m slack lo x where
  lt := hx
  left := h.left
  right := by linarith

/-- Any other probe is the new left end. -/
theorem Bracket.below (h : Bracket f m slack lo hi) (hx : x < hi) (hf : f x ≤ m) : Bracket f m slack x hi where
  lt := hx
  left := hf
  right := h.right

/-- **A bracket holds a solution.** -/
theorem Bracket.exists_solution (h : Bracket f m slack lo hi) (hslack : 0 ≤ slack)
    (hf : ContinuousOn f (Set.Icc lo hi)) : ∃ x ∈ Set.Icc lo hi, |f x - m| ≤ slack := by
  rcases le_total m (f hi) with hle | hge
  · obtain ⟨x, hx, hfx⟩ := intermediate_value_Icc h.lt.le hf ⟨h.left, hle⟩
    refine ⟨x, hx, ?_⟩
    rw [hfx, sub_self, abs_zero]
    exact hslack
  · -- the right end itself is within the slack
    refine ⟨hi, Set.right_mem_Icc.mpr h.lt.le, ?_⟩
    rw [abs_sub_comm, abs_of_nonneg (sub_nonneg.mpr hge)]
    linarith [h.right]

end Bracketing
