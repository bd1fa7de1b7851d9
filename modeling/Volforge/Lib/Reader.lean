import Mathlib.Tactic

/-!
# `Lib.Reader` — readers that look at nothing beyond what they take

A reader takes a value off the front of a list, or fails. It is local when what it returns is decided by the items it
takes, whatever follows them; then it fails on every list that is cut inside them. Local readers compose.

## Contents
- **Local readers.** `Local`, and that a truncated list is refused.
- **Composition.** One reader after another, and the readers to start from.
-/

namespace Reader

variable {σ α β : Type}

/-! ## Local readers -/

/-- What a reader returns is decided by the items it takes. -/
def Local (f : List σ → Option (α × List σ)) : Prop :=
  ∀ p a rest, f p = some (a, rest) → ∃ used, p = used ++ rest ∧ ∀ rest', f (used ++ rest') = some (a, rest')

theorem Local.length_le {f : List σ → Option (α × List σ)} (h : Local f) {p : List σ} {a : α} {rest : List σ}
    (hread : f p = some (a, rest)) : rest.length ≤ p.length := by
  obtain ⟨used, rfl, _⟩ := h _ _ _ hread
  rw [List.length_append]
  exact Nat.le_add_left _ _

/-- The same items first give the same value. -/
theorem Local.of_take {f : List σ → Option (α × List σ)} (h : Local f) {p p' : List σ} {a : α} {rest : List σ}
    (hread : f p = some (a, rest))
    (hsame : p'.take (p.length - rest.length) = p.take (p.length - rest.length)) :
    f p' = some (a, p'.drop (p.length - rest.length)) := by
  obtain ⟨used, rfl, hused⟩ := h _ _ _ hread
  rw [List.length_append, Nat.add_sub_cancel, List.take_left] at hsame
  have hsplit := List.take_append_drop used.length p'
  rw [hsame] at hsplit
  rw [List.length_append, Nat.add_sub_cancel]
  conv_lhs => rw [← hsplit]
  exact hused _

/-- **A list that is cut short is refused.** -/
theorem Local.truncated {f : List σ → Option (α × List σ)} (h : Local f) {used rest : List σ} {a : α}
    (hread : f (used ++ rest) = some (a, rest)) {t : List σ} (ht : t <+: used) (hne : t ≠ used) : f t = none := by
  cases hcut : f t with
  | none => rfl
  | some read =>
      -- what was read off the cut list would be read off the whole one
      obtain ⟨b, left⟩ := read
      obtain ⟨more, rfl⟩ := ht
      obtain ⟨used', rfl, hused⟩ := h _ _ _ hcut
      have hwhole := hused (left ++ (more ++ rest))
      simp only [List.append_assoc] at hread hwhole
      rw [hwhole] at hread
      have hleft := congrArg List.length (congrArg Prod.snd (Option.some.inj hread))
      simp only [List.length_append] at hleft
      have hmore : more = [] := List.eq_nil_of_length_eq_zero (by omega)
      exact absurd (by rw [hmore, List.append_nil]) hne

/-! ## Composition -/

theorem local_pure (a : α) : Local (fun p : List σ => some (a, p)) := by
  rintro p b rest ⟨⟩
  exact ⟨[], rfl, fun _ => rfl⟩

theorem local_fail : Local (fun _ : List σ => (none : Option (α × List σ))) := nofun

/-- One reader after another. -/
theorem Local.bind {f : List σ → Option (α × List σ)} (hf : Local f) {g : α × List σ → Option (β × List σ)}
    (hg : ∀ a, Local (fun p => g (a, p))) : Local (fun p => (f p).bind g) := by
  intro p b rest hread
  obtain ⟨⟨a, mid⟩, hfirst, hsecond⟩ := Option.bind_eq_some_iff.mp hread
  obtain ⟨used, rfl, hused⟩ := hf _ _ _ hfirst
  obtain ⟨used', rfl, hused'⟩ := hg a _ _ _ hsecond
  refine ⟨used ++ used', (List.append_assoc used used' rest).symm, fun rest' => ?_⟩
  dsimp only
  rw [List.append_assoc, hused]
  exact hused' rest'

/-- A reader that needs an item, and goes on from it. -/
theorem local_item {f : List σ → Option (β × List σ)} (hnil : f [] = none) (hcons : ∀ c, Local (fun p => f (c :: p))) :
    Local f := by
  intro p b rest hread
  cases p with
  | nil =>
      rw [hnil] at hread
      cases hread
  | cons c p =>
      obtain ⟨used, rfl, hused⟩ := hcons c _ _ _ hread
      exact ⟨c :: used, rfl, hused⟩

/-- A fixed number of items at once. -/
theorem local_take (n : Nat) (f : List σ → α) (hf : ∀ used rest, used.length = n → f (used ++ rest) = f used) :
    Local (fun p => if p.length < n then none else some (f p, p.drop n)) := by
  intro p a rest hread
  rw [Option.ite_none_left_eq_some] at hread
  obtain ⟨hlength, hread⟩ := hread
  obtain ⟨rfl, rfl⟩ := Prod.mk.inj (Option.some.inj hread)
  have htake : (p.take n).length = n := by
    rw [List.length_take]
    omega
  have hvalue : f p = f (p.take n) := by
    conv_lhs => rw [← List.take_append_drop n p]
    exact hf _ _ htake
  refine ⟨p.take n, (List.take_append_drop n p).symm, fun rest' => ?_⟩
  dsimp only
  rw [if_neg (by rw [List.length_append]; omega), hf _ _ htake, hvalue, List.drop_left' htake]

end Reader
