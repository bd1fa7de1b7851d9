import Mathlib.Algebra.Order.Group.Defs
import Mathlib.Algebra.Order.Group.Unbundled.Basic
import Mathlib.Algebra.Order.Group.MinMax

/-!
# `Lib.Worst` — the worst of many outcomes

`worst f ss` is the largest of the losses `f` over the outcomes `ss`, and never below nothing. Two books that
are held together cannot lose more than the worst of each, since their worst outcomes need not be the same.
-/

namespace Volforge

namespace Worst

variable {S M : Type} [AddCommGroup M] [LinearOrder M]

/-- The worst loss over a list of outcomes. -/
def worst (f : S → M) (ss : List S) : M := ss.foldl (fun m s => max m (f s)) 0

omit [AddCommGroup M] in
theorem foldl_max_le_iff (f : S → M) (ss : List S) (m b : M) :
    ss.foldl (fun m s => max m (f s)) m ≤ b ↔ m ≤ b ∧ ∀ s ∈ ss, f s ≤ b := by
  induction ss generalizing m with
  | nil => simp
  | cons s ss ih =>
      rw [List.foldl_cons, ih, max_le_iff, and_assoc]
      simp

/-- What bounds the worst loss bounds each of them. -/
theorem worst_le_iff (f : S → M) (ss : List S) (b : M) : worst f ss ≤ b ↔ 0 ≤ b ∧ ∀ s ∈ ss, f s ≤ b :=
  foldl_max_le_iff f ss 0 b

theorem worst_nonneg (f : S → M) (ss : List S) : 0 ≤ worst f ss := ((worst_le_iff f ss _).mp (le_refl _)).1

theorem le_worst (f : S → M) {ss : List S} {s : S} (hs : s ∈ ss) : f s ≤ worst f ss :=
  ((worst_le_iff f ss _).mp (le_refl _)).2 s hs

variable [IsOrderedAddMonoid M]

/-- **The worst of a sum is at most the sum of the worst.** -/
theorem worst_add_le {f g h : S → M} {ss : List S} (hadd : ∀ s ∈ ss, h s = f s + g s) :
    worst h ss ≤ worst f ss + worst g ss := by
  rw [worst_le_iff]
  refine ⟨add_nonneg (worst_nonneg f ss) (worst_nonneg g ss), fun s hs => ?_⟩
  rw [hadd s hs]
  exact add_le_add (le_worst f hs) (le_worst g hs)

/-- What is charged on a net amount. -/
theorem net_add_le (a b : M) : max 0 (a + b) ≤ max 0 a + max 0 b := by
  have h := max_add_add_le_max_add_max (a := (0 : M)) (b := 0) (c := a) (d := b)
  rw [add_zero] at h
  exact h

end Worst

end Volforge
