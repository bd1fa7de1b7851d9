import Mathlib.Tactic

/-!
# `Lib.Tally` — sums over a list as one entry changes

A running total that is kept next to a list is right as long as every write to the list adds what the entry
gained. `sum_map_modify` is that fact.
-/

namespace Tally

variable {α : Type}

/-- **A write changes the total by what its entry gained.** -/
theorem sum_map_modify (f : α → Int) (g : α → α) {l : List α} {i : Nat} {a : α} (h : l[i]? = some a) :
    ((l.modify i g).map f).sum = (l.map f).sum + (f (g a) - f a) := by
  induction l generalizing i with
  | nil => simp at h
  | cons x xs ih =>
      cases i with
      | zero =>
          simp only [List.getElem?_cons_zero, Option.some.injEq] at h
          subst h
          simp only [List.modify_zero_cons, List.map_cons, List.sum_cons]
          ring
      | succ i =>
          simp only [List.getElem?_cons_succ] at h
          simp only [List.modify_succ_cons, List.map_cons, List.sum_cons, ih h]
          ring

theorem sum_map_sub (f g : α → Int) (l : List α) :
    (l.map (fun a => f a - g a)).sum = (l.map f).sum - (l.map g).sum := by
  induction l with
  | nil => rfl
  | cons x xs ih =>
      simp only [List.map_cons, List.sum_cons, ih]
      ring

theorem sum_filter_concat (f : α → Int) (keep : α → Bool) (l : List α) (a : α) :
    (((l ++ [a]).filter keep).map f).sum =
      ((l.filter keep).map f).sum + if keep a then f a else 0 := by
  cases hk : keep a with
  | true => simp [List.filter_append, hk]
  | false => simp [List.filter_append, hk]

end Tally
