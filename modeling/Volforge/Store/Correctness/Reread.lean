import Volforge.Store.Correctness.RoundTrip

/-!
# `Store.Correctness.Reread` — a written file in a registry that may hold its contracts already

What the file of a session answers does not depend on the registry it is opened into; only what its ids resolve to
does. Opened into the registry the session was written from, the file has the session's own ids, and the
registry stays as it was.

## Contents
- **Any registry.** `Written.reread`, and the answers that need no contract.
- **An empty registry.** Every contract resolves as it was written: `Written.reread_empty`.
- **The same registry.** `Written.reread_same`.
-/

namespace Volforge

open IdTable

/-- Times in strictly ascending order are known by which they are. -/
theorem SessionData.IsTimeline.unique {s : SessionData} {ts ts' : List Timestamp} (h : s.IsTimeline ts)
    (h' : s.IsTimeline ts') : ts = ts' := by
  have hasymm : ∀ a b : Timestamp, a ∈ ts → b ∈ ts' → a < b → b < a → a = b :=
    fun a b _ _ hab hba => absurd (lt_trans hab hba) (lt_irrefl a)
  refine List.Perm.eq_of_pairwise hasymm h.ascending h'.ascending ?_
  refine (List.perm_ext_iff_of_nodup ?_ ?_).mpr (fun t => (h.mem_iff t).trans (h'.mem_iff t).symm)
  · exact h.ascending.imp (fun hlt => ne_of_lt hlt)
  · exact h'.ascending.imp (fun hlt => ne_of_lt hlt)

namespace SessionData.Written

variable {s : SessionData} {w : Writer} {items : List Item} {r : InstrumentRegistry}

/-- The registry a file of the session leaves behind. -/
abbrev registryAfter (s : SessionData) (w : Writer) (r : InstrumentRegistry) : InstrumentRegistry :=
  (VfdaySession.registerMany (w.image s (timelineOf s)).metadata w.table r).2

/-! ## Any registry -/

/-- **A written file, reread**: an id for every instrument that prints, in their order, with its columns, which
    resolves to a contract of the same key. -/
theorem reread (h : s.Written w items) (path : String) (hr : r.Sound) :
    List.Forall₂ (fun id id' => (w.opened s (timelineOf s) path r).quotes id' = .ok (s.quotes id) ∧
        (∀ t, (w.opened s (timelineOf s) path r).printedBy id' t = lookPrintedBy s.quotes id t) ∧
        ∃ i u spec, s.ItemOf id i ∧ At (registryAfter s w r).underlyings u i.name ∧ At (registryAfter s w r).specs id' spec ∧
          InstrumentRegistry.keyOf spec = InstrumentRegistry.keyOf { i.spec with underlying := u } ∧
          (At r.specs id' spec ∨ spec = { i.spec with id := id', underlying := u }))
      s.printing (w.opened s (timelineOf s) path r).instruments := by
  have hnodup := h.holds.nodup_ids h.distinct s (timelineOf s) hr
  have hanswers := h.holds.answers h.fits h.itemFits path hnodup
  have hresolved := VfdaySession.registerMany_resolved hr (w.image s (timelineOf s)).metadata w.table hnodup
  -- instrument, item, table entry and id, side by side
  refine (related_comp h.taken (related_and hanswers (related_comp hresolved h.holds.table)).flip).imp ?_
  rintro id id' ⟨i, hi, ⟨hquotes, hprinted⟩, t, ⟨u, spec, hu, hs, hkey, hcase⟩, ht⟩
  rw [ht.nameOf] at hu
  rw [ht.specOf] at hkey hcase
  refine ⟨hi.columns ▸ hquotes, fun t => ?_, i, u, spec, hi, hu, hs, hkey, hcase⟩
  rw [SessionData.lookPrintedBy_eq, ← hi.columns]
  exact hprinted t

/-- A contract that is not listed. -/
theorem reread_others (h : s.Written w items) (path : String) {id : InstrumentId}
    (hid : id ∉ (w.opened s (timelineOf s) path r).instruments) :
    (w.opened s (timelineOf s) path r).quotes id = .ok {} ∧
      ∀ t, (w.opened s (timelineOf s) path r).printedBy id t = false := by
  have hlen : (VfdaySession.registerMany (w.image s (timelineOf s)).metadata w.table r).1.length = w.directory.length := by
    rw [VfdaySession.length_registerMany, h.holds.table.length_eq, h.holds.directory, Item.length_directoryFrom]
  refine VfdaySession.unlisted (Option.not_isSome_iff_eq_none.mp (fun hsome => hid ?_))
  have hkey := (VfdaySession.lookup_isSome_iff _ id).mp hsome
  rw [Writer.opened, VfdaySession.keys_extend hlen] at hkey
  exact hkey

theorem reread_total (h : s.Written w items) (path : String) :
    (w.opened s (timelineOf s) path r).totalRows.toNat = s.totalObservations := by
  have hlen : w.table.length = items.length := h.holds.table.length_eq
  have htable : w.table.length * 28 < 2 ^ 32 := h.fits.table
  have hle : s.totalObservations ≤ items.length * 2 ^ 32 := by
    rw [h.rows]
    have hsum := List.sum_le_card_nsmul (items.map (·.columns.size)) (2 ^ 32) (by
      intro n hn
      obtain ⟨i, hi, rfl⟩ := List.mem_map.mp hn
      exact le_of_lt (h.itemFits i hi).rows)
    rw [List.length_map, smul_eq_mul] at hsum
    exact hsum
  exact UInt64.toNat_ofNat_of_lt' (lt_of_le_of_lt hle (by unfold UInt64.size; omega))

theorem reread_timeline (_ : s.Written w items) (hc : s.Contract) (path : String) :
    (w.opened s (timelineOf s) path r).timeline = timelineOf s :=
  (SessionData.timelineOf_spec hc).toInt_ofInt

/-! ## An empty registry -/

theorem reread_empty (h : s.Written w items) (path : String) :
    List.Forall₂ (fun id id' => (w.opened s (timelineOf s) path {}).quotes id' = .ok (s.quotes id) ∧
        ∃ i u, s.ItemOf id i ∧ At (registryAfter s w {}).underlyings u i.name ∧
          At (registryAfter s w {}).specs id' { i.spec with id := id', underlying := u })
      s.printing (w.opened s (timelineOf s) path {}).instruments := by
  refine (h.reread path InstrumentRegistry.sound_empty).imp ?_
  rintro id id' ⟨hquotes, _, i, u, spec, hi, hu, hs, _, hcase⟩
  rcases hcase with ⟨n, _, hget⟩ | rfl
  · cases hget
  · exact ⟨hquotes, i, u, hi, hu, hs⟩

/-! ## The same registry -/

/-- **Reread into the session's own registry**: the ids are the session's, and the registry stays. -/
theorem reread_same (h : s.Written w items) (path : String) (hr : s.registry.Sound) :
    (w.opened s (timelineOf s) path s.registry).instruments = s.printing ∧ registryAfter s w s.registry = s.registry := by
  obtain ⟨hsound, hext, _⟩ := VfdaySession.registerMany_spec hr (w.image s (timelineOf s)).metadata w.table
  constructor
  · have hids := map_eq_map (f := fun id => id) (g := fun id' => id') (h.reread path hr) ?_
    · rw [List.map_id', List.map_id'] at hids
      exact hids.symm
    · rintro id id' ⟨_, _, i, u, spec, hi, hu, hs, hkey, _⟩
      have hspec := hext.specs id i.spec (InstrumentRegistry.spec_eq_ok.mp hi.spec)
      have hname := hext.names _ _ (InstrumentRegistry.underlyingName_eq_ok.mp hi.name)
      have hunderlying := hsound.names.unique hu hname rfl
      rw [hunderlying] at hkey
      exact hsound.keys.unique hspec hs hkey.symm
  · refine (VfdaySession.registerMany_eq_self_iff hr _ _).mpr (fun t ht => ?_)
    obtain ⟨i, hi, hentered⟩ := exists_of_mem_left h.holds.table ht
    obtain ⟨id, _, hof⟩ := exists_of_mem_right h.taken hi
    refine ⟨id, i.spec.underlying, i.spec, ?_, InstrumentRegistry.spec_eq_ok.mp hof.spec, ?_⟩
    · rw [hentered.nameOf]
      exact InstrumentRegistry.underlyingName_eq_ok.mp hof.name
    · rw [hentered.specOf]
      rfl

end SessionData.Written

end Volforge
