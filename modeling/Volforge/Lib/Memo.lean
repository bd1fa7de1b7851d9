import Mathlib.Tactic

/-!
# `Lib.Memo` — tables of answers already given

A program that computes an answer once and looks it up afterwards keeps a table beside the function. This file is
about such tables, over arbitrary keys and answers: what is kept of an answer may be less than the answer, and
some answers are not kept at all.

## Contents
- **Policies.** `Policy` says what is kept of an answer, and that it gives the answer back.
- **Faithful tables.** `Faithful`, and looking keys up where none comes twice.
- **One question.** `ask`: a `Faithful` table answers as the function does and stays faithful.
- **Many questions.** `askAll` over a list of keys: the answers are the function's, and `keys_askAll` says which
  keys the table holds afterwards.
-/

namespace Memo

variable {κ α β : Type}

/-! ## Policies -/

/-- What is kept of the answer to a key, if anything, and how it is given again. -/
structure Policy (κ α β : Type) where
  keep : κ → α → Option β
  give : β → α
  give_keep : ∀ k a b, keep k a = some b → give b = a

/-- Of an answer that may fail, the result is kept. -/
def Policy.results (κ ε β : Type) : Policy κ (Except ε β) β where
  keep _ a := a.toOption
  give := .ok
  give_keep := by
    intro _ a b h
    cases a with
    | error e => cases h
    | ok a =>
        cases h
        rfl

/-- Of an answer that may be missing, the value is kept. -/
def Policy.values (κ β : Type) : Policy κ (Option β) β where
  keep _ a := a
  give := some
  give_keep := fun _ _ _ h => h.symm

/-- Keeps what another policy keeps, for some keys only. -/
def Policy.only (p : Policy κ α β) (wanted : κ → Bool) : Policy κ α β where
  keep k a := if wanted k then p.keep k a else none
  give := p.give
  give_keep := by
    intro k a b h
    split_ifs at h with hk
    exact p.give_keep k a b h

/-! ## Faithful tables -/

/-- The table holds what would be kept now, each key once. -/
structure Faithful (p : Policy κ α β) (f : κ → α) (table : List (κ × β)) : Prop where
  kept : ∀ k b, (k, b) ∈ table → p.keep k (f k) = some b
  nodup : (table.map (·.1)).Nodup

variable {p : Policy κ α β} {f : κ → α} {table : List (κ × β)} {k : κ}

theorem Faithful.nil : Faithful p f [] := ⟨fun _ _ h => (List.not_mem_nil h).elim, List.nodup_nil⟩

/-- A function that would keep the same of every key in the table has the same faithful tables. -/
theorem Faithful.congr {g : κ → α} (h : Faithful p f table)
    (heq : ∀ k ∈ table.map (·.1), p.keep k (g k) = p.keep k (f k)) : Faithful p g table := by
  refine ⟨fun k b hb => ?_, h.nodup⟩
  rw [heq k (List.mem_map_of_mem hb)]
  exact h.kept k b hb

variable [BEq κ] [LawfulBEq κ]

theorem mem_of_lookup {b : β} (h : table.lookup k = some b) : (k, b) ∈ table := by
  obtain ⟨before, after, rfl, _⟩ := List.lookup_eq_some_iff.mp h
  exact List.mem_append_right _ (List.mem_cons_self ..)

theorem not_mem_keys_of_lookup (h : table.lookup k = none) : k ∉ table.map (·.1) := by
  rw [List.lookup_eq_none_iff] at h
  intro hk
  obtain ⟨x, hx, rfl⟩ := List.mem_map.mp hk
  simpa using h x hx

/-- Where no key comes twice, an entry is what its key is looked up as. -/
theorem lookup_of_mem (hnodup : (table.map (·.1)).Nodup) {b : β} (h : (k, b) ∈ table) : table.lookup k = some b := by
  obtain ⟨before, after, rfl⟩ := List.append_of_mem h
  refine List.lookup_eq_some_iff.mpr ⟨before, after, rfl, fun x hx => ?_⟩
  rw [List.map_append, List.nodup_append] at hnodup
  rw [bne_iff_ne]
  exact Ne.symm (hnodup.2.2 x.1 (List.mem_map_of_mem hx) k (List.mem_map_of_mem (List.mem_cons_self ..)))

/-- Added up over some of its keys, a table makes at most what it makes over all of them. -/
theorem sum_lookup_le (weight : β → Nat) (hnodup : (table.map (·.1)).Nodup) {keys : List κ} (hkeys : keys.Nodup)
    (hsub : keys ⊆ table.map (·.1)) :
    (keys.map (fun k => ((table.lookup k).map weight).getD 0)).sum ≤ (table.map (fun x => weight x.2)).sum := by
  have hall : table.map (fun x => weight x.2) = (table.map (·.1)).map (fun k => ((table.lookup k).map weight).getD 0) := by
    rw [List.map_map]
    refine List.map_congr_left (fun x hx => ?_)
    simp [lookup_of_mem hnodup hx]
  rw [hall]
  obtain ⟨part, hperm, hpart⟩ := hkeys.subperm hsub
  rw [← (hperm.map (fun k => ((table.lookup k).map weight).getD 0)).sum_eq]
  exact (hpart.map _).sum_le_sum (fun n _ => Nat.zero_le n)

/-! ## One question -/

/-- The answer to a key, from the table if it is there, and the table afterwards. -/
def ask (p : Policy κ α β) (f : κ → α) (table : List (κ × β)) (k : κ) : α × List (κ × β) :=
  match table.lookup k with
  | some b => (p.give b, table)
  | none =>
      match p.keep k (f k) with
      | none => (f k, table)
      | some b => (f k, table ++ [(k, b)])

/-- The three ways a question is answered. -/
theorem ask_cases (p : Policy κ α β) (f : κ → α) (table : List (κ × β)) (k : κ) :
    (∃ b, (k, b) ∈ table ∧ ask p f table k = (p.give b, table)) ∨
    (k ∉ table.map (·.1) ∧ p.keep k (f k) = none ∧ ask p f table k = (f k, table)) ∨
    (k ∉ table.map (·.1) ∧ ∃ b, p.keep k (f k) = some b ∧ ask p f table k = (f k, table ++ [(k, b)])) := by
  unfold ask
  cases hlookup : table.lookup k with
  | some b => exact .inl ⟨b, mem_of_lookup hlookup, rfl⟩
  | none =>
      right
      have hnew := not_mem_keys_of_lookup hlookup
      cases hkeep : p.keep k (f k) with
      | none => exact .inl ⟨hnew, rfl, rfl⟩
      | some b => exact .inr ⟨hnew, b, rfl, rfl⟩

/-- **A faithful table answers as the function does.** -/
theorem Faithful.answer (h : Faithful p f table) (k : κ) : (ask p f table k).1 = f k := by
  obtain ⟨b, hb, hask⟩ | ⟨_, _, hask⟩ | ⟨_, b, _, hask⟩ := ask_cases p f table k
  · rw [hask]
    exact p.give_keep k (f k) b (h.kept k b hb)
  · rw [hask]
  · rw [hask]

/-- The table stays faithful. -/
theorem Faithful.step (h : Faithful p f table) (k : κ) : Faithful p f (ask p f table k).2 := by
  obtain ⟨b, _, hask⟩ | ⟨_, _, hask⟩ | ⟨hnew, b, hkeep, hask⟩ := ask_cases p f table k
  · rw [hask]
    exact h
  · rw [hask]
    exact h
  · rw [hask]
    constructor
    · intro k' b' hmem
      rcases List.mem_append.mp hmem with hold | hlast
      · exact h.kept k' b' hold
      · obtain ⟨rfl, rfl⟩ := Prod.mk.inj (List.mem_singleton.mp hlast)
        exact hkeep
    · rw [List.map_append, List.nodup_append]
      refine ⟨h.nodup, List.nodup_singleton _, fun x hx y hy hxy => ?_⟩
      rw [List.map_singleton, List.mem_singleton] at hy
      rw [hxy, hy] at hx
      exact hnew hx

/-- The keys the table holds afterwards. -/
theorem mem_keys_ask (p : Policy κ α β) (f : κ → α) (table : List (κ × β)) (k k' : κ) :
    k' ∈ ((ask p f table k).2).map (·.1) ↔ k' ∈ table.map (·.1) ∨ (k' = k ∧ (p.keep k (f k)).isSome) := by
  obtain ⟨b, hb, hask⟩ | ⟨_, hkeep, hask⟩ | ⟨_, b, hkeep, hask⟩ := ask_cases p f table k
  · rw [hask]
    refine ⟨.inl, ?_⟩
    rintro (hmem | ⟨rfl, _⟩)
    · exact hmem
    · exact List.mem_map_of_mem hb
  · rw [hask, hkeep]
    simp
  · rw [hask, hkeep, List.map_append, List.mem_append]
    simp

/-! ## Many questions -/

/-- The answers to keys asked one after the other, and the table at the end. -/
def askAll (p : Policy κ α β) (f : κ → α) : List (κ × β) → List κ → List α × List (κ × β)
  | table, [] => ([], table)
  | table, k :: ks => ((ask p f table k).1 :: (askAll p f (ask p f table k).2 ks).1, (askAll p f (ask p f table k).2 ks).2)

/-- **A memo table is transparent**: whatever is asked, in whatever order and how often. -/
theorem Faithful.answers (h : Faithful p f table) (ks : List κ) : (askAll p f table ks).1 = ks.map f := by
  induction ks generalizing table with
  | nil => rfl
  | cons k ks ih =>
      rw [askAll, List.map_cons, h.answer k, ih (h.step k)]

theorem Faithful.run (h : Faithful p f table) (ks : List κ) : Faithful p f (askAll p f table ks).2 := by
  induction ks generalizing table with
  | nil => exact h
  | cons k ks ih => exact ih (h.step k)

theorem mem_keys_askAll (p : Policy κ α β) (f : κ → α) (table : List (κ × β)) (ks : List κ) (k' : κ) :
    k' ∈ ((askAll p f table ks).2).map (·.1) ↔
      k' ∈ table.map (·.1) ∨ (k' ∈ ks ∧ (p.keep k' (f k')).isSome) := by
  induction ks generalizing table with
  | nil => simp [askAll]
  | cons k ks ih =>
      rw [askAll, ih, mem_keys_ask, List.mem_cons]
      constructor
      · rintro ((hold | ⟨rfl, hkept⟩) | ⟨hmem, hkept⟩)
        · exact .inl hold
        · exact .inr ⟨.inl rfl, hkept⟩
        · exact .inr ⟨.inr hmem, hkept⟩
      · rintro (hold | ⟨rfl | hmem, hkept⟩)
        · exact .inl (.inl hold)
        · exact .inl (.inr ⟨rfl, hkept⟩)
        · exact .inr ⟨hmem, hkept⟩

end Memo
