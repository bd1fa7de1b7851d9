import Volforge.Core.Instrument
import Volforge.Lib.Indexed

/-!
# `Core.Correctness.Registry` — what a registry keeps

A registry is `Sound` when its two indexes find what is stored, and nothing else. Interning and adding keep it
sound and only append: `Extends` says that every id means afterwards what it meant before.

## Contents
- **Invariant.** `Sound`, and `Extends`.
- **Operations.** One step lemma for `internUnderlying`, one for `add`.
-/

namespace Volforge

namespace InstrumentRegistry

open IdTable

/-! ## Invariant -/

theorem underlyingName_eq_ok {r : InstrumentRegistry} {u : UnderlyingId} {name : Bytes} :
    r.underlyingName u = .ok name ↔ At r.underlyings u name := by
  unfold underlyingName
  constructor
  · intro h
    split_ifs at h with hneg
    refine ⟨u.toNat, (Int.toNat_of_nonneg (not_lt.mp hneg)).symm, ?_⟩
    cases hget : r.underlyings[u.toNat]? with
    | none =>
        rw [hget] at h
        cases h
    | some name' =>
        rw [hget] at h
        cases h
        rfl
  · rintro ⟨i, rfl, hget⟩
    rw [if_neg (Int.natCast_nonneg i).not_gt, Int.toNat_natCast, hget]

theorem spec_eq_ok {r : InstrumentRegistry} {id : InstrumentId} {s : InstrumentSpec} :
    r.spec id = .ok s ↔ At r.specs id s := by
  unfold spec
  constructor
  · intro h
    split_ifs at h with hneg
    refine ⟨id.toNat, (Int.toNat_of_nonneg (not_lt.mp hneg)).symm, ?_⟩
    cases hget : r.specs[id.toNat]? with
    | none =>
        rw [hget] at h
        cases h
    | some s' =>
        rw [hget] at h
        cases h
        rfl
  · rintro ⟨i, rfl, hget⟩
    rw [if_neg (Int.natCast_nonneg i).not_gt, Int.toNat_natCast, hget]

/-- The indexes find what is stored, and a contract knows its id. -/
structure Sound (r : InstrumentRegistry) : Prop where
  names : Indexed (fun name => name) r.underlyings r.underlyingIds
  keys : Indexed keyOf r.specs r.byKey
  ids : ∀ id s, At r.specs id s → s.id = id

theorem sound_empty : Sound {} where
  names := .nil
  keys := .nil
  ids id s hs := by
    obtain ⟨i, _, hget⟩ := hs
    cases hget

/-- Every id of `r` means the same in `r'`. -/
structure Extends (r r' : InstrumentRegistry) : Prop where
  names : ∀ u name, At r.underlyings u name → At r'.underlyings u name
  specs : ∀ id s, At r.specs id s → At r'.specs id s

theorem Extends.refl (r : InstrumentRegistry) : r.Extends r := ⟨fun _ _ h => h, fun _ _ h => h⟩

theorem Extends.trans {r r' r'' : InstrumentRegistry} (h : r.Extends r') (h' : r'.Extends r'') : r.Extends r'' :=
  ⟨fun u name hu => h'.names u name (h.names u name hu), fun id s hs => h'.specs id s (h.specs id s hs)⟩

/-! ## Operations -/

/-- A name that is known changes nothing. -/
theorem internUnderlying_of_at {r : InstrumentRegistry} (h : r.Sound) {u : UnderlyingId} {name : Bytes}
    (hat : At r.underlyings u name) : r.internUnderlying name = (r, u) := by
  have hlookup := (h.names name u).mpr ⟨name, hat, rfl⟩
  unfold internUnderlying
  rw [hlookup]

/-- The step lemma of `internUnderlying`. -/
theorem internUnderlying_spec {r : InstrumentRegistry} (h : r.Sound) (name : Bytes) :
    (r.internUnderlying name).1.Sound ∧ r.Extends (r.internUnderlying name).1 ∧
      At (r.internUnderlying name).1.underlyings (r.internUnderlying name).2 name ∧
      (r.internUnderlying name).1.specs = r.specs := by
  cases hlookup : r.underlyingIds.lookup name with
  | some u =>
      obtain ⟨name', hat, hname⟩ := (h.names name u).mp hlookup
      have heq : name' = name := hname
      subst heq
      rw [internUnderlying_of_at h hat]
      exact ⟨h, .refl r, hat, rfl⟩
  | none =>
      unfold internUnderlying
      rw [hlookup]
      exact ⟨⟨h.names.concat hlookup, h.keys, h.ids⟩, ⟨fun u name' hu => at_concat.mpr (.inl hu), fun _ _ hs => hs⟩,
        at_concat.mpr (.inr ⟨rfl, rfl⟩), rfl⟩

/-- Names and their index after interning depend on names and index alone. -/
theorem internUnderlying_congr {r r' : InstrumentRegistry} (hnames : r.underlyings = r'.underlyings)
    (hids : r.underlyingIds = r'.underlyingIds) (name : Bytes) :
    (r.internUnderlying name).1.underlyings = (r'.internUnderlying name).1.underlyings ∧
      (r.internUnderlying name).1.underlyingIds = (r'.internUnderlying name).1.underlyingIds := by
  unfold internUnderlying
  rw [← hids, ← hnames]
  cases r.underlyingIds.lookup name with
  | some u => exact ⟨hnames, hids⟩
  | none => exact ⟨rfl, rfl⟩

theorem add_names (r : InstrumentRegistry) (spec : InstrumentSpec) :
    (r.add spec).1.underlyings = r.underlyings ∧ (r.add spec).1.underlyingIds = r.underlyingIds := by
  unfold add
  dsimp only
  cases r.byKey.lookup (keyOf spec) with
  | some id => exact ⟨rfl, rfl⟩
  | none => exact ⟨rfl, rfl⟩

/-- A contract that is known changes nothing. -/
theorem add_of_at {r : InstrumentRegistry} (h : r.Sound) {id : InstrumentId} {s spec : InstrumentSpec}
    (hat : At r.specs id s) (hkey : keyOf s = keyOf spec) : r.add spec = (r, id) := by
  have hlookup := (h.keys (keyOf spec) id).mpr ⟨s, hat, hkey⟩
  unfold add
  dsimp only
  rw [hlookup]

/-- The step lemma of `add`: the contract was known, or it is appended. -/
theorem add_spec {r : InstrumentRegistry} (h : r.Sound) (spec : InstrumentSpec) :
    (r.add spec).1.Sound ∧ r.Extends (r.add spec).1 ∧ (r.add spec).1.underlyings = r.underlyings ∧
      ∃ s, At (r.add spec).1.specs (r.add spec).2 s ∧ keyOf s = keyOf spec ∧
        (At r.specs (r.add spec).2 s ∨
          ((∀ id s', At r.specs id s' → keyOf s' ≠ keyOf spec) ∧ s = { spec with id := (r.add spec).2 })) := by
  cases hlookup : r.byKey.lookup (keyOf spec) with
  | some id =>
      obtain ⟨s, hat, hkey⟩ := (h.keys (keyOf spec) id).mp hlookup
      rw [add_of_at h hat hkey]
      exact ⟨h, .refl r, rfl, s, hat, hkey, .inl hat⟩
  | none =>
      have hnew := h.keys.lookup_eq_none.mp hlookup
      unfold add
      dsimp only
      rw [hlookup]
      refine ⟨⟨h.names, h.keys.concat hlookup, ?_⟩, ⟨fun _ _ hu => hu, fun id s hs => at_concat.mpr (.inl hs)⟩, rfl,
        _, at_concat.mpr (.inr ⟨rfl, rfl⟩), rfl, .inr ⟨hnew, rfl⟩⟩
      intro id s hs
      rcases at_concat.mp hs with hold | ⟨rfl, rfl⟩
      · exact h.ids id s hold
      · rfl

/-- Nothing else is added. -/
theorem add_only {r : InstrumentRegistry} (spec : InstrumentSpec) {id : InstrumentId} {s : InstrumentSpec}
    (h : At (r.add spec).1.specs id s) : At r.specs id s ∨ id = (r.add spec).2 := by
  unfold add at h ⊢
  dsimp only at h ⊢
  cases hlookup : r.byKey.lookup (keyOf spec) with
  | some id' =>
      rw [hlookup] at h
      exact .inl h
  | none =>
      rw [hlookup] at h
      rcases at_concat.mp h with hold | ⟨hid, _⟩
      · exact .inl hold
      · exact .inr hid

end InstrumentRegistry

end Volforge
