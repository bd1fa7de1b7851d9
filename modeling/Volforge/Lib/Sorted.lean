import Mathlib.Tactic
import Mathlib.Data.List.TakeWhile

/-!
# `Lib.Sorted` — prefixes cut off by a downward closed predicate

`std::upper_bound` on a partitioned range counts the elements before the partition point, i.e. the length of
`takeWhile`. The facts here are about that count, over any list and predicate. A strictly ascending list is
determined by its elements.
-/

namespace Sorted

variable {α : Type} {p q : α → Bool} {l : List α}

/-- An element counted by `takeWhile` satisfies the predicate. -/
theorem of_lt_length_takeWhile {i : Nat} (hi : i < l.length) (h : i < (l.takeWhile p).length) :
    p l[i] = true := by
  have hmem : (l.takeWhile p)[i] ∈ l.takeWhile p := List.getElem_mem h
  have heq : (l.takeWhile p)[i] = l[i] := (List.takeWhile_prefix p).getElem h
  rw [heq] at hmem
  exact List.mem_takeWhile_imp hmem

/-- **Partition point.** Where the predicate is downward closed along the list, `takeWhile` counts exactly
    the elements that satisfy it. -/
theorem lt_length_takeWhile_iff (hl : l.Pairwise (fun a b => p b = true → p a = true)) {i : Nat}
    (hi : i < l.length) : i < (l.takeWhile p).length ↔ p l[i] = true := by
  refine ⟨of_lt_length_takeWhile hi, ?_⟩
  induction l generalizing i with
  | nil => simp at hi
  | cons a l ih =>
      intro hp
      obtain ⟨ha, hl⟩ := List.pairwise_cons.mp hl
      cases i with
      | zero =>
          have hpa : p a = true := by simpa using hp
          simp [hpa]
      | succ i =>
          have hi' : i < l.length := by simpa using hi
          have hpi : p l[i] = true := by simpa using hp
          have hpa : p a = true := ha _ (List.getElem_mem hi') hpi
          have := ih hl hi' hpi
          simpa [List.takeWhile_cons, hpa] using this

/-- Cutting at a weaker predicate first does not change the count of a stronger one. -/
theorem takeWhile_take_length_takeWhile (hpq : ∀ a, p a = true → q a = true) :
    (l.take (l.takeWhile q).length).takeWhile p = l.takeWhile p := by
  have htake : l.take (l.takeWhile q).length = l.takeWhile q :=
    (List.prefix_iff_eq_take.mp (List.takeWhile_prefix q)).symm
  rw [htake, List.takeWhile_takeWhile]
  congr 1
  funext a
  cases hpa : p a
  · simp
  · simp [hpq a hpa]

/-- The counts of two nested predicates are ordered. -/
theorem length_takeWhile_le_of_imp (hpq : ∀ a, p a = true → q a = true) :
    (l.takeWhile p).length ≤ (l.takeWhile q).length := by
  rw [← takeWhile_take_length_takeWhile (l := l) hpq]
  have htake : l.take (l.takeWhile q).length = l.takeWhile q :=
    (List.prefix_iff_eq_take.mp (List.takeWhile_prefix q)).symm
  rw [htake]
  exact (List.takeWhile_sublist p).length_le

/-- Where the predicate is downward closed along the list, the elements that satisfy it come first. -/
theorem filter_append_filter_not (hl : l.Pairwise (fun a b => p b = true → p a = true)) :
    l.filter p ++ l.filter (fun a => !p a) = l := by
  induction l with
  | nil => rfl
  | cons a l ih =>
      obtain ⟨ha, hl⟩ := List.pairwise_cons.mp hl
      cases hpa : p a with
      | true => simp [hpa, ih hl]
      | false =>
          have hnone : l.filter p = [] := by
            rw [List.filter_eq_nil_iff]
            intro b hb hpb
            rw [ha b hb hpb] at hpa
            cases hpa
          have hall : l.filter (fun a => !p a) = l := by
            rw [List.filter_eq_self]
            intro b hb
            cases hpb : p b with
            | false => rfl
            | true =>
                rw [ha b hb hpb] at hpa
                cases hpa
          simp [hpa, hnone, hall]

/-- Two lists in the order of an asymmetric relation with the same elements are equal. -/
theorem eq_of_mem_iff_of_asymm {r : α → α → Prop} (hr : ∀ a b, r a b → ¬ r b a) {xs ys : List α}
    (hx : xs.Pairwise r) (hy : ys.Pairwise r) (h : ∀ a, a ∈ xs ↔ a ∈ ys) : xs = ys := by
  have hne : ∀ {a b}, r a b → a ≠ b := by
    rintro a b hab rfl
    exact hr a a hab hab
  have hperm : xs.Perm ys := by
    rw [List.perm_ext_iff_of_nodup (hx.imp hne) (hy.imp hne)]
    exact h
  exact hperm.eq_of_pairwise (fun a b _ _ hab hba => absurd hba (hr a b hab)) hx hy

/-- Two strictly ascending lists with the same elements are equal. -/
theorem eq_of_mem_iff [Preorder α] {xs ys : List α} (hx : xs.Pairwise (· < ·)) (hy : ys.Pairwise (· < ·))
    (h : ∀ a, a ∈ xs ↔ a ∈ ys) : xs = ys :=
  eq_of_mem_iff_of_asymm (fun _ _ hab => lt_asymm hab) hx hy h

/-- Entries of distinct keys, in the order of their keys, come in one order only. -/
theorem eq_of_perm_of_key {κ : Type} {le : κ → κ → Prop} [Std.Antisymm le] (key : α → κ) {xs ys : List α}
    (hnodup : (xs.map key).Nodup) (hx : xs.Pairwise (fun a b => le (key a) (key b)))
    (hy : ys.Pairwise (fun a b => le (key a) (key b))) (hperm : xs.Perm ys) : xs = ys := by
  refine List.Perm.eq_of_pairwise ?_ hx hy hperm
  intro a b ha hb hab hba
  have hkey : key a = key b := Std.Antisymm.antisymm (key a) (key b) hab hba
  exact List.inj_on_of_nodup_map hnodup ha (hperm.mem_iff.mpr hb) hkey

end Sorted
