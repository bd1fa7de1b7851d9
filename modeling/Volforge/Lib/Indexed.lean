import Mathlib.Tactic

/-!
# `Lib.Indexed` — an append-only table with an index by key

A table is a list, the id of an element is its position. The index is an association list from keys to ids.
`Indexed` says that looking a key up finds the element with that key; appending an element whose key is not yet
in the index keeps it.

## Contents
- **Tables.** `At` and `Indexed`.
- **Related lists.** A list of ids next to the list of what they stand for.
-/

namespace IdTable

variable {α κ : Type} [BEq κ]

/-- What is put at the end is found, if its key is new. -/
theorem lookup_concat_self [LawfulBEq κ] {β : Type} {index : List (κ × β)} {k : κ} {b : β} (h : index.lookup k = none) :
    (index ++ [(k, b)]).lookup k = some b := by
  rw [List.lookup_append, h]
  simp

theorem lookup_concat_ne [LawfulBEq κ] {β : Type} {index : List (κ × β)} {k k' : κ} {b : β} (h : k' ≠ k) :
    (index ++ [(k, b)]).lookup k' = index.lookup k' := by
  have hbeq : (k' == k) = false := beq_eq_false_iff_ne.mpr h
  rw [List.lookup_append]
  rw [List.lookup_cons, hbeq, List.lookup_nil]
  exact Option.or_none

/-! ## Tables -/

/-- The element at an id. -/
def At (table : List α) (id : Int) (a : α) : Prop := ∃ i : Nat, id = i ∧ table[i]? = some a

/-- An id has one element. -/
theorem at_inj {table : List α} {id : Int} {a b : α} (ha : At table id a) (hb : At table id b) : a = b := by
  obtain ⟨i, rfl, hget⟩ := ha
  obtain ⟨j, hij, hget'⟩ := hb
  rw [← Int.ofNat.inj hij, hget, Option.some.injEq] at hget'
  exact hget'

/-- A table with one more element has what it had, and that element at the end. -/
theorem at_concat {table : List α} {a b : α} {id : Int} :
    At (table ++ [a]) id b ↔ At table id b ∨ (id = table.length ∧ b = a) := by
  constructor
  · rintro ⟨i, rfl, hget⟩
    rcases Nat.lt_trichotomy i table.length with hlt | rfl | hgt
    · rw [List.getElem?_append_left hlt] at hget
      exact .inl ⟨i, rfl, hget⟩
    · rw [List.getElem?_concat_length, Option.some.injEq] at hget
      exact .inr ⟨rfl, hget.symm⟩
    · rw [List.getElem?_eq_none (by rw [List.length_append, List.length_singleton]; omega)] at hget
      cases hget
  · rintro (⟨i, rfl, hget⟩ | ⟨rfl, rfl⟩)
    · obtain ⟨hlt, _⟩ := List.getElem?_eq_some_iff.mp hget
      exact ⟨i, rfl, by rw [List.getElem?_append_left hlt, hget]⟩
    · exact ⟨_, rfl, List.getElem?_concat_length⟩

/-- The index finds the ids of a key, and nothing else. -/
def Indexed (key : α → κ) (table : List α) (index : List (κ × Int)) : Prop :=
  ∀ k id, index.lookup k = some id ↔ ∃ a, At table id a ∧ key a = k

variable {key : α → κ} {table : List α} {index : List (κ × Int)}

theorem Indexed.nil : Indexed key [] [] := by
  intro k id
  simp [At]

/-- Two ids of one key are the same. -/
theorem Indexed.unique (h : Indexed key table index) {i j : Int} {a b : α} (ha : At table i a) (hb : At table j b)
    (hkey : key a = key b) : i = j := by
  have hi := (h (key a) i).mpr ⟨a, ha, rfl⟩
  have hj := (h (key a) j).mpr ⟨b, hb, hkey.symm⟩
  exact Option.some.inj (hi.symm.trans hj)

/-- A key that is not found belongs to no element. -/
theorem Indexed.lookup_eq_none (h : Indexed key table index) {k : κ} :
    index.lookup k = none ↔ ∀ id a, At table id a → key a ≠ k := by
  rw [Option.eq_none_iff_forall_ne_some]
  constructor
  · intro hnone id a ha hk
    exact hnone id ((h k id).mpr ⟨a, ha, hk⟩)
  · intro hall id hlookup
    obtain ⟨a, ha, hk⟩ := (h k id).mp hlookup
    exact hall id a ha hk

/-- **Appending** an element with a new key. -/
theorem Indexed.concat [LawfulBEq κ] (h : Indexed key table index) {a : α} (hnew : index.lookup (key a) = none) :
    Indexed key (table ++ [a]) (index ++ [(key a, (table.length : Int))]) := by
  intro k id
  by_cases hk : k = key a
  · subst hk
    rw [lookup_concat_self hnew, Option.some.injEq]
    constructor
    · rintro rfl
      exact ⟨a, at_concat.mpr (.inr ⟨rfl, rfl⟩), rfl⟩
    · rintro ⟨b, hb, hkey⟩
      rcases at_concat.mp hb with hold | ⟨rfl, _⟩
      · exact absurd hkey (h.lookup_eq_none.mp hnew id b hold)
      · rfl
  · rw [lookup_concat_ne hk, h k id]
    constructor
    · rintro ⟨b, hb, hkey⟩
      exact ⟨b, at_concat.mpr (.inl hb), hkey⟩
    · rintro ⟨b, hb, hkey⟩
      rcases at_concat.mp hb with hold | ⟨_, rfl⟩
      · exact ⟨b, hold, hkey⟩
      · exact absurd hkey.symm hk

/-! ## Related lists

`List.Forall₂` with an arbitrary relation: what is said of each pair is carried over to the lists. -/

section Related

variable {β γ : Type} {R : α → β → Prop} {as : List α} {bs : List β}

theorem exists_of_mem_left (h : List.Forall₂ R as bs) {a : α} (ha : a ∈ as) : ∃ b ∈ bs, R a b := by
  induction h with
  | nil => cases ha
  | cons hab _ ih =>
      rcases List.mem_cons.mp ha with rfl | ha
      · exact ⟨_, List.mem_cons_self .., hab⟩
      · obtain ⟨b, hb, hr⟩ := ih ha
        exact ⟨b, List.mem_cons_of_mem _ hb, hr⟩

theorem exists_of_mem_right (h : List.Forall₂ R as bs) {b : β} (hb : b ∈ bs) : ∃ a ∈ as, R a b := by
  obtain ⟨a, ha, hr⟩ := exists_of_mem_left h.flip hb
  exact ⟨a, ha, hr⟩

/-- The relation may use that both of a pair are in their lists. -/
theorem with_mem (h : List.Forall₂ R as bs) : List.Forall₂ (fun a b => (a ∈ as ∧ b ∈ bs) ∧ R a b) as bs := by
  induction h with
  | nil => exact .nil
  | cons hab _ ih =>
      refine .cons ⟨⟨List.mem_cons_self .., List.mem_cons_self ..⟩, hab⟩ (ih.imp ?_)
      rintro a b ⟨⟨ha, hb⟩, hr⟩
      exact ⟨⟨List.mem_cons_of_mem _ ha, List.mem_cons_of_mem _ hb⟩, hr⟩

/-- Two relations of the same lists, at once. -/
theorem related_and {S : α → β → Prop} (h : List.Forall₂ R as bs) (h' : List.Forall₂ S as bs) :
    List.Forall₂ (fun a b => R a b ∧ S a b) as bs := by
  induction h with
  | nil => exact .nil
  | cons hab _ ih =>
      cases h' with
      | cons hab' h' => exact .cons ⟨hab, hab'⟩ (ih h')

theorem related_comp {S : β → γ → Prop} {cs : List γ} (h : List.Forall₂ R as bs) (h' : List.Forall₂ S bs cs) :
    List.Forall₂ (fun a c => ∃ b, R a b ∧ S b c) as cs := by
  induction h generalizing cs with
  | nil =>
      cases h'
      exact .nil
  | cons hab _ ih =>
      cases h' with
      | cons hbc h' => exact .cons ⟨_, hab, hbc⟩ (ih h')

/-- Where everything on the left is related to something, there is a list of what it is related to. -/
theorem exists_related (h : ∀ a ∈ as, ∃ b, R a b) : ∃ bs, List.Forall₂ R as bs := by
  induction as with
  | nil => exact ⟨[], .nil⟩
  | cons a as ih =>
      obtain ⟨b, hb⟩ := h a (List.mem_cons_self ..)
      obtain ⟨bs, hbs⟩ := ih (fun a ha => h a (List.mem_cons_of_mem _ ha))
      exact ⟨b :: bs, .cons hb hbs⟩

/-- What agrees on related pairs agrees on the lists. -/
theorem map_eq_map {f : α → γ} {g : β → γ} (h : List.Forall₂ R as bs) (hfg : ∀ a b, R a b → f a = g b) :
    as.map f = bs.map g := by
  induction h with
  | nil => rfl
  | cons hab _ ih => rw [List.map_cons, List.map_cons, hfg _ _ hab, ih]

/-- Ids are listed once exactly when what they stand for is. -/
theorem nodup_iff {f : β → γ} (h : List.Forall₂ R as bs) (hinj : ∀ a b a' b', R a b → R a' b' → (a = a' ↔ f b = f b')) :
    as.Nodup ↔ (bs.map f).Nodup := by
  induction h with
  | nil => simp
  | @cons a b as bs hab hrest ih =>
      rw [List.map_cons, List.nodup_cons, List.nodup_cons, ih]
      refine and_congr_left (fun _ => not_congr ?_)
      constructor
      · intro ha
        obtain ⟨b', hb', hr⟩ := exists_of_mem_left hrest ha
        exact List.mem_map.mpr ⟨b', hb', ((hinj a b a b' hab hr).mp rfl).symm⟩
      · intro hb
        obtain ⟨b', hb', heq⟩ := List.mem_map.mp hb
        obtain ⟨a', ha', hr⟩ := exists_of_mem_right hrest hb'
        rw [(hinj a b a' b' hab hr).mpr heq.symm]
        exact ha'

end Related

end IdTable
