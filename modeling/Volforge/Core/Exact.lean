import Volforge.Core.Types
import Mathlib.Analysis.Real.Sqrt
import Mathlib.Analysis.SpecialFunctions.Log.Basic
import Mathlib.MeasureTheory.Integral.Bochner.Set
import Mathlib.MeasureTheory.Measure.Lebesgue.Basic

/-!
# `Core.Exact` — the arithmetic of `double` without rounding

A `double` that never rounds is a real number, or NaN where the operation has no value. What the source says
about its formulas "in exact arithmetic" is said about this instance.
-/

namespace Volforge

/-- A real number, or NaN. -/
abbrev Exact := Option ℝ

namespace Exact

/-- `2 / √π · ∫ t in x..∞, exp (-t²)`. -/
noncomputable def erfc (x : ℝ) : ℝ := 2 / √Real.pi * ∫ t in Set.Ioi x, Real.exp (-t ^ 2)

end Exact

open Classical in
noncomputable instance : Double Exact where
  add a b := do return (← a) + (← b)
  sub a b := do return (← a) - (← b)
  mul a b := do return (← a) * (← b)
  div a b := do
    let x ← a
    let y ← b
    if y = 0 then none else some (x / y)
  neg a := a.map (- ·)
  ofInt n := some n
  lit n d := some (n / d)
  abs a := a.map (|·|)
  sqrt a := do
    let x ← a
    if x < 0 then none else some (√x)
  exp a := a.map Real.exp
  log a := do
    let x ← a
    if x ≤ 0 then none else some (Real.log x)
  erfc a := a.map Exact.erfc
  -- a comparison with NaN is false
  lt a b := decide (∃ x ∈ a, ∃ y ∈ b, x < y)
  le a b := decide (∃ x ∈ a, ∃ y ∈ b, x ≤ y)
  nan := none
  isNaN a := a.isNone
  isFinite a := a.isSome
  llround a := match a with
    | none => 0
    | some x => if 0 ≤ x then ⌊x + 1 / 2⌋ else ⌈x - 1 / 2⌉

namespace Exact

@[simp] theorem add_some (x y : ℝ) : (some x : Exact) + some y = some (x + y) := rfl

@[simp] theorem sub_some (x y : ℝ) : (some x : Exact) - some y = some (x - y) := rfl

@[simp] theorem mul_some (x y : ℝ) : (some x : Exact) * some y = some (x * y) := rfl

/-- Only a division by zero has no value. -/
theorem div_some (x : ℝ) {y : ℝ} (hy : y ≠ 0) : (some x : Exact) / some y = some (x / y) := if_neg hy

@[simp] theorem zero_eq : (Double.zero : Exact) = some 0 := congrArg some Int.cast_zero

@[simp] theorem ofInt_eq (n : Int) : (Double.ofInt n : Exact) = some (n : ℝ) := rfl

theorem sqrt_some {x : ℝ} (hx : 0 ≤ x) : (Double.sqrt (some x) : Exact) = some (√x) := if_neg (not_lt.mpr hx)

/-- Paise are hundredths. -/
theorem ofMinor_eq (m : Int) : (Double.ofMinor m : Exact) = some ((m : ℝ) / 100) := by
  unfold Double.ofMinor
  rw [ofInt_eq, ofInt_eq, div_some _ (by norm_num)]
  norm_num

end Exact

end Volforge
