import Mathlib.Tactic

/-!
# `Lib.Falls` — the changes of a sequence

A sequence changes from an entry to the same or a later one by the difference of the two; the worst fall is the least
of its changes. The sums of consecutive differences are just these changes.

## Contents
- **Changes.** `ChangesBy`, at either end of a sequence.
- **Differences.** Their consecutive sums.
- **The worst fall.** `IsWorst`, and when one more entry in front leaves it as it is.
-/

namespace Falls

variable {K : Type} [AddCommGroup K]

/-! ## Changes -/

/-- The sequence changes by `d` from some entry to the same or a later one. -/
def ChangesBy (xs : List K) (d : K) : Prop :=
  ∃ (i j : Nat) (a b : K), i ≤ j ∧ xs[i]? = some a ∧ xs[j]? = some b ∧ b - a = d

theorem changesBy_cons {s : K} {xs : List K} {d : K} :
    ChangesBy (s :: xs) d ↔ d = 0 ∨ (∃ b ∈ xs, b - s = d) ∨ ChangesBy xs d := by
  constructor
  · rintro ⟨i, j, a, b, hij, ha, hb, rfl⟩
    cases i with
    | zero =>
        obtain rfl : s = a := by simpa using ha
        cases j with
        | zero =>
            obtain rfl : s = b := by simpa using hb
            exact Or.inl (sub_self s)
        | succ j => exact Or.inr (Or.inl ⟨b, List.mem_of_getElem? hb, rfl⟩)
    | succ i =>
        cases j with
        | zero => cases hij
        | succ j => exact Or.inr (Or.inr ⟨i, j, a, b, Nat.le_of_succ_le_succ hij, ha, hb, rfl⟩)
  · rintro (rfl | ⟨b, hb, rfl⟩ | ⟨i, j, a, b, hij, ha, hb, rfl⟩)
    · exact ⟨0, 0, s, s, le_refl 0, rfl, rfl, sub_self s⟩
    · obtain ⟨j, hj⟩ := List.getElem?_of_mem hb
      exact ⟨0, j + 1, s, b, Nat.zero_le _, rfl, hj, rfl⟩
    · exact ⟨i + 1, j + 1, a, b, Nat.succ_le_succ hij, ha, hb, rfl⟩

/-- One entry more at the end. -/
theorem ChangesBy.concat {xs : List K} {v d : K} (h : ChangesBy (xs ++ [v]) d) :
    ChangesBy xs d ∨ ∃ a ∈ xs ++ [v], v - a = d := by
  obtain ⟨i, j, a, b, hij, ha, hb, rfl⟩ := h
  rcases Nat.lt_or_ge j xs.length with hj | hj
  · left
    rw [List.getElem?_append_left hj] at hb
    rw [List.getElem?_append_left (lt_of_le_of_lt hij hj)] at ha
    exact ⟨i, j, a, b, hij, ha, hb, rfl⟩
  · right
    rw [List.getElem?_append_right hj] at hb
    obtain rfl : v = b := List.mem_singleton.mp (List.mem_of_getElem? hb) |>.symm
    exact ⟨a, List.mem_of_getElem? ha, rfl⟩

/-! ## Differences -/

/-- What each entry adds to the one before it, the first one to `start`. -/
def differences (start : K) : List K → List K
  | [] => []
  | x :: xs => (x - start) :: differences x xs

theorem length_differences (start : K) (xs : List K) : (differences start xs).length = xs.length := by
  induction xs generalizing start with
  | nil => rfl
  | cons x xs ih => exact congrArg Nat.succ (ih x)

/-- The first differences lead to the entry after them. -/
theorem getElem?_of_le_length {start : K} {xs : List K} {n : Nat} (h : n ≤ xs.length) :
    (start :: xs)[n]? = some (start + ((differences start xs).take n).sum) := by
  induction xs generalizing start n with
  | nil =>
      obtain rfl := Nat.le_zero.mp h
      simp
  | cons x xs ih =>
      cases n with
      | zero => simp
      | succ n =>
          rw [List.getElem?_cons_succ, ih (Nat.le_of_succ_le_succ h)]
          show _ = some (start + ((x - start) + ((differences x xs).take n).sum))
          rw [← add_assoc, add_sub_cancel]

/-- Consecutive differences add up to the changes of the whole sequence. -/
theorem sum_infix_iff {start : K} {xs : List K} {d : K} :
    (∃ s, s <:+: differences start xs ∧ s.sum = d) ↔ ChangesBy (start :: xs) d := by
  constructor
  · rintro ⟨s, ⟨pre, post, h⟩, rfl⟩
    have hlength : pre.length + s.length + post.length = xs.length := by
      rw [← length_differences start xs, ← h, List.length_append, List.length_append]
    have hfrom := @getElem?_of_le_length _ _ start xs pre.length (by omega)
    have hto := @getElem?_of_le_length _ _ start xs (pre ++ s).length (by simp; omega)
    rw [← h, List.append_assoc, List.take_left] at hfrom
    rw [← h, List.take_left, List.sum_append] at hto
    refine ⟨_, _, _, _, ?_, hfrom, hto, by abel⟩
    simp
  · rintro ⟨i, j, a, b, hij, ha, hb, rfl⟩
    have hj : j ≤ xs.length := Nat.le_of_lt_succ (List.getElem?_eq_some_iff.mp hb).1
    rw [getElem?_of_le_length (le_trans hij hj)] at ha
    rw [getElem?_of_le_length hj] at hb
    obtain rfl := Option.some.inj ha
    obtain rfl := Option.some.inj hb
    refine ⟨((differences start xs).take j).drop i, ?_, ?_⟩
    · exact (List.drop_suffix _ _).isInfix.trans (List.take_prefix _ _).isInfix
    · have hsum := congrArg List.sum (List.take_append_drop i ((differences start xs).take j))
      rw [List.sum_append, List.take_take, min_eq_left hij] at hsum
      rw [← hsum]
      abel

/-! ## The worst fall -/

variable [LinearOrder K]

/-- The least change of a sequence. -/
structure IsWorst (xs : List K) (d : K) : Prop where
  changesBy : ChangesBy xs d
  least : ∀ d', ChangesBy xs d' → d ≤ d'

theorem isWorst_singleton (s : K) : IsWorst [s] 0 := by
  refine ⟨changesBy_cons.mpr (Or.inl rfl), ?_⟩
  rintro d ⟨i, j, a, b, _, ha, hb, rfl⟩
  obtain rfl := List.mem_singleton.mp (List.mem_of_getElem? ha)
  obtain rfl := List.mem_singleton.mp (List.mem_of_getElem? hb)
  exact le_of_eq (sub_self _).symm

/-- The worst fall as the least sum of consecutive differences. -/
theorem isWorst_iff_sums {start : K} {xs : List K} {d : K} :
    IsWorst (start :: xs) d ↔
      (∃ s, s <:+: differences start xs ∧ s.sum = d) ∧ ∀ s, s <:+: differences start xs → d ≤ s.sum := by
  constructor
  · intro h
    exact ⟨sum_infix_iff.mpr h.changesBy, fun s hs => h.least _ (sum_infix_iff.mp ⟨s, hs, rfl⟩)⟩
  · rintro ⟨hattained, hleast⟩
    refine ⟨sum_infix_iff.mp hattained, fun d' hd' => ?_⟩
    obtain ⟨s, hs, rfl⟩ := sum_infix_iff.mpr hd'
    exact hleast s hs

/-- An entry in front leaves the worst fall as it is, unless the sequence falls further from there. -/
theorem isWorst_cons_iff {s : K} {xs : List K} {d : K} (h : IsWorst xs d) (hd : d ≤ 0) :
    IsWorst (s :: xs) d ↔ ∀ b ∈ xs, d ≤ b - s := by
  constructor
  · intro hall b hb
    exact hall.least _ (changesBy_cons.mpr (Or.inr (Or.inl ⟨b, hb, rfl⟩)))
  · intro hfront
    refine ⟨changesBy_cons.mpr (Or.inr (Or.inr h.changesBy)), fun d' hd' => ?_⟩
    rcases changesBy_cons.mp hd' with rfl | ⟨b, hb, rfl⟩ | hd'
    · exact hd
    · exact hfront b hb
    · exact h.least d' hd'

end Falls
