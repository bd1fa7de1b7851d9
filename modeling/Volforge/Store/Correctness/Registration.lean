import Volforge.Core.Correctness.Registry
import Volforge.Store.Correctness.Opened

/-!
# `Store.Correctness.Registration` — what opening a file does to the registry

A table entry and an id that stand for the same contract are related by `Lists`. The identity of a contract does
not depend on the registry: two ids of one registry are the same exactly when their identities are.

## Contents
- **Contracts.** `Identity`, `Lists`.
- **One entry, many entries.** Step and run lemma of registering table entries.
- **The directory loop.** `registerAll` registers exactly the entries of `walked`, whether it succeeds or fails.
- **Reachable registries.** They are sound.
-/

namespace Volforge

open IdTable

/-! ## Contracts -/

/-- What a contract is, whatever a registry calls it. -/
structure Identity where
  name : Bytes
  kind : InstrumentKind
  expiry : Date
  strike : Int32
  right : UInt8
deriving DecidableEq

namespace VfdaySession

def identityOf (m : Metadata) (t : TableEntry) : Identity where
  name := nameOf m t
  kind := .ofByte t.kind
  expiry := ⟨t.expiry⟩
  strike := t.strikeMinor
  right := (InstrumentRegistry.keyOf (specOf t 0)).right

/-- The key of a table entry is its identity, with the name replaced by an id. -/
theorem keyOf_specOf_inj {m : Metadata} {t t' : TableEntry} {u u' : UnderlyingId}
    (hname : nameOf m t = nameOf m t' ↔ u = u') :
    InstrumentRegistry.keyOf (specOf t u) = InstrumentRegistry.keyOf (specOf t' u') ↔ identityOf m t = identityOf m t' := by
  unfold InstrumentRegistry.keyOf identityOf InstrumentRegistry.keyOf specOf
  rw [Key.mk.injEq, Identity.mk.injEq, hname]

/-- An id stands for the contract of a table entry. -/
def Lists (r : InstrumentRegistry) (m : Metadata) (id : InstrumentId) (t : TableEntry) : Prop :=
  ∃ u s, At r.underlyings u (nameOf m t) ∧ At r.specs id s ∧
    InstrumentRegistry.keyOf s = InstrumentRegistry.keyOf (specOf t u)

theorem Lists.extends {r r' : InstrumentRegistry} (hext : r.Extends r') {m : Metadata} {id : InstrumentId} {t : TableEntry}
    (h : Lists r m id t) : Lists r' m id t := by
  obtain ⟨u, s, hu, hs, hkey⟩ := h
  exact ⟨u, s, hext.names u _ hu, hext.specs id s hs, hkey⟩

/-- Ids are the same when their contracts are. -/
theorem Lists.id_eq_iff {r : InstrumentRegistry} (hr : r.Sound) {m : Metadata} {i j : InstrumentId} {t t' : TableEntry}
    (h : Lists r m i t) (h' : Lists r m j t') : i = j ↔ identityOf m t = identityOf m t' := by
  obtain ⟨u, s, hu, hs, hkey⟩ := h
  obtain ⟨u', s', hu', hs', hkey'⟩ := h'
  have hname : nameOf m t = nameOf m t' ↔ u = u' := by
    constructor
    · intro heq
      exact hr.names.unique hu hu' heq
    · rintro rfl
      exact at_inj hu hu'
  rw [← keyOf_specOf_inj hname, ← hkey, ← hkey']
  constructor
  · rintro rfl
    rw [at_inj hs hs']
  · intro heq
    exact hr.keys.unique hs hs' heq

/-- An entry of the same identity is listed under the same id. -/
theorem Lists.congr {r : InstrumentRegistry} {m : Metadata} {id : InstrumentId} {t t' : TableEntry}
    (h : Lists r m id t) (heq : identityOf m t = identityOf m t') : Lists r m id t' := by
  obtain ⟨u, s, hu, hs, hkey⟩ := h
  have hname : nameOf m t = nameOf m t' := congrArg Identity.name heq
  refine ⟨u, s, hname ▸ hu, hs, ?_⟩
  rw [hkey]
  exact (keyOf_specOf_inj (iff_of_true hname rfl)).mpr heq

/-! ## One entry, many entries -/

/-- Registering a contract that is listed changes nothing. -/
theorem registerEntry_of_lists {r : InstrumentRegistry} (hr : r.Sound) {m : Metadata} {id : InstrumentId}
    {t : TableEntry} (h : Lists r m id t) : registerEntry m t r = (r, id) := by
  obtain ⟨u, s, hu, hs, hkey⟩ := h
  unfold registerEntry
  rw [InstrumentRegistry.internUnderlying_of_at hr hu]
  exact InstrumentRegistry.add_of_at hr hs hkey

/-- The step lemma of registration: the contract was held before, or it is the table entry's. -/
theorem registerEntry_spec {r : InstrumentRegistry} (hr : r.Sound) (m : Metadata) (t : TableEntry) :
    (registerEntry m t r).1.Sound ∧ r.Extends (registerEntry m t r).1 ∧
      ∃ u s, At (registerEntry m t r).1.underlyings u (nameOf m t) ∧
        At (registerEntry m t r).1.specs (registerEntry m t r).2 s ∧
        InstrumentRegistry.keyOf s = InstrumentRegistry.keyOf (specOf t u) ∧
        (At r.specs (registerEntry m t r).2 s ∨
          ((∀ id s', At r.specs id s' → InstrumentRegistry.keyOf s' ≠ InstrumentRegistry.keyOf (specOf t u)) ∧
            s = { specOf t u with id := (registerEntry m t r).2 })) := by
  obtain ⟨hsound₁, hext₁, hname, hspecs⟩ := InstrumentRegistry.internUnderlying_spec hr (nameOf m t)
  unfold registerEntry
  generalize r.internUnderlying (nameOf m t) = interned at *
  obtain ⟨r₁, u⟩ := interned
  dsimp only at *
  obtain ⟨hsound₂, hext₂, hunderlyings, s, hat, hkey, hcase⟩ := InstrumentRegistry.add_spec hsound₁ (specOf t u)
  refine ⟨hsound₂, hext₁.trans hext₂, u, s, ?_, hat, hkey, ?_⟩
  · rw [hunderlyings]
    exact hname
  · rw [← hspecs]
    exact hcase

/-- Nothing else is registered. -/
theorem registerEntry_only {r : InstrumentRegistry} (hr : r.Sound) (m : Metadata) (t : TableEntry) {id : InstrumentId}
    {s : InstrumentSpec} (h : At (registerEntry m t r).1.specs id s) :
    At r.specs id s ∨ id = (registerEntry m t r).2 := by
  obtain ⟨_, _, _, hspecs⟩ := InstrumentRegistry.internUnderlying_spec hr (nameOf m t)
  rw [← hspecs]
  exact InstrumentRegistry.add_only _ h

theorem registerEntry_lists {r : InstrumentRegistry} (hr : r.Sound) (m : Metadata) (t : TableEntry) :
    Lists (registerEntry m t r).1 m (registerEntry m t r).2 t := by
  obtain ⟨_, _, u, s, hu, hs, hkey, _⟩ := registerEntry_spec hr m t
  exact ⟨u, s, hu, hs, hkey⟩

/-- The run lemma of registration. -/
theorem registerMany_spec {r : InstrumentRegistry} (hr : r.Sound) (m : Metadata) (ts : List TableEntry) :
    (registerMany m ts r).2.Sound ∧ r.Extends (registerMany m ts r).2 ∧
      List.Forall₂ (Lists (registerMany m ts r).2 m) (registerMany m ts r).1 ts := by
  induction ts generalizing r with
  | nil => exact ⟨hr, .refl r, .nil⟩
  | cons t ts ih =>
      obtain ⟨hsound, hext, _⟩ := registerEntry_spec hr m t
      obtain ⟨hsound', hext', hall⟩ := ih hsound
      exact ⟨hsound', hext.trans hext', .cons ((registerEntry_lists hr m t).extends hext') hall⟩

/-- Nothing changes exactly when every contract was held. -/
theorem registerMany_eq_self_iff {r : InstrumentRegistry} (hr : r.Sound) (m : Metadata) (ts : List TableEntry) :
    (registerMany m ts r).2 = r ↔ ∀ t ∈ ts, ∃ id, Lists r m id t := by
  constructor
  · intro hsame t ht
    obtain ⟨_, _, hall⟩ := registerMany_spec hr m ts
    rw [hsame] at hall
    obtain ⟨id, _, hid⟩ := exists_of_mem_right hall ht
    exact ⟨id, hid⟩
  · intro hheld
    induction ts with
    | nil => rfl
    | cons t ts ih =>
        obtain ⟨id, hid⟩ := hheld t (List.mem_cons_self ..)
        rw [registerMany, registerEntry_of_lists hr hid]
        exact ih (fun t' ht' => hheld t' (List.mem_cons_of_mem _ ht'))

/-- An id is listed once exactly when its contract is. -/
theorem nodup_registerMany {r : InstrumentRegistry} (hr : r.Sound) (m : Metadata) (ts : List TableEntry) :
    (registerMany m ts r).1.Nodup ↔ (ts.map (identityOf m)).Nodup := by
  obtain ⟨hsound, _, hall⟩ := registerMany_spec hr m ts
  exact nodup_iff hall (fun i t j t' h h' => h.id_eq_iff hsound h')

/-- **What the ids resolve to**, when no contract comes twice: a contract that was held before, or the entry's. -/
theorem registerMany_resolved {r : InstrumentRegistry} (hr : r.Sound) (m : Metadata) (ts : List TableEntry)
    (hnodup : (registerMany m ts r).1.Nodup) :
    List.Forall₂ (fun id t => ∃ u s, At (registerMany m ts r).2.underlyings u (nameOf m t) ∧
      At (registerMany m ts r).2.specs id s ∧ InstrumentRegistry.keyOf s = InstrumentRegistry.keyOf (specOf t u) ∧
      (At r.specs id s ∨ s = { specOf t u with id := id })) (registerMany m ts r).1 ts := by
  induction ts generalizing r with
  | nil => exact .nil
  | cons t ts ih =>
      obtain ⟨hsound, _, u, s, hu, hs, hkey, hcase⟩ := registerEntry_spec hr m t
      obtain ⟨_, hext, _⟩ := registerMany_spec hsound m ts
      obtain ⟨hnew, hnodup⟩ := List.nodup_cons.mp hnodup
      refine .cons ⟨u, s, hext.names u _ hu, hext.specs _ s hs, hkey, hcase.imp_right (·.2)⟩ ?_
      refine (with_mem (ih hsound hnodup)).imp ?_
      rintro id t' ⟨⟨hmem, _⟩, u', s', hu', hs', hkey', hcase'⟩
      refine ⟨u', s', hu', hs', hkey', hcase'.imp_left (fun hold => ?_)⟩
      -- the entry before it has another id
      rcases registerEntry_only hr m t hold with hold | rfl
      · exact hold
      · exact absurd hmem hnew

/-- The contracts that were not held before are those of the entries. -/
theorem registerMany_only {r : InstrumentRegistry} (hr : r.Sound) (m : Metadata) (ts : List TableEntry)
    {id : InstrumentId} {s : InstrumentSpec} (h : At (registerMany m ts r).2.specs id s) :
    At r.specs id s ∨ id ∈ (registerMany m ts r).1 := by
  induction ts generalizing r with
  | nil => exact .inl h
  | cons t ts ih =>
      obtain ⟨hsound, _⟩ := registerEntry_spec hr m t
      rcases ih hsound h with hold | hmem
      · rcases registerEntry_only hr m t hold with hold | rfl
        · exact .inl hold
        · exact .inr (List.mem_cons_self ..)
      · exact .inr (List.mem_cons_of_mem _ hmem)

/-! ## The directory loop -/

/-- The table entries of the directory entries that are registered: up to the first that fails its checks, or
    names a contract that has been seen. -/
def walked (path : String) (m : Metadata) : List Identity → List DirEntry → List TableEntry
  | _, [] => []
  | seen, e :: es =>
      match checkEntry path m e with
      | .error _ => []
      | .ok t => if identityOf m t ∈ seen then [] else t :: walked path m (identityOf m t :: seen) es

/-- **The directory loop** registers the entries it has walked, whatever comes of it. -/
theorem registerAll_registry {path : String} {m : Metadata} {es : List DirEntry} {s : VfdaySession} {rows : UInt64}
    {r : InstrumentRegistry} (hr : r.Sound) (seen : List TableEntry)
    (hseen : List.Forall₂ (Lists r m) (s.entries.map (·.1)).reverse seen) :
    (registerAll path m es s rows r).2 = (registerMany m (walked path m (seen.map (identityOf m)) es) r).2 := by
  induction es generalizing s rows r seen with
  | nil => rfl
  | cons e es ih =>
      unfold registerAll walked
      cases hcheck : checkEntry path m e with
      | error x => rfl
      | ok t =>
          obtain ⟨hsound, hext, _⟩ := registerEntry_spec hr m t
          have hlists := registerEntry_lists hr m t
          have hseen' := hseen.imp (fun id t' h => h.extends hext)
          dsimp only
          -- a contract comes twice when its identity does
          have htwice : ((s.entries.lookup (registerEntry m t r).2).isSome = true) ↔
              identityOf m t ∈ seen.map (identityOf m) := by
            rw [lookup_isSome_iff, ← List.mem_reverse, List.mem_map]
            constructor
            · intro hmem
              obtain ⟨t', ht', hid⟩ := exists_of_mem_left hseen' hmem
              exact ⟨t', ht', ((hid.id_eq_iff hsound hlists).mp rfl)⟩
            · rintro ⟨t', ht', heq⟩
              obtain ⟨id, hid, hr'⟩ := exists_of_mem_right hseen' ht'
              rw [← (hr'.id_eq_iff hsound hlists).mpr heq]
              exact hid
          by_cases hmem : identityOf m t ∈ seen.map (identityOf m)
          · rw [if_pos (htwice.mpr hmem), if_pos hmem]
            -- the second time it is already registered
            obtain ⟨t', ht', heq⟩ := List.mem_map.mp hmem
            obtain ⟨id, _, hid⟩ := exists_of_mem_right hseen ht'
            rw [registerEntry_of_lists hr (hid.congr heq)]
            rfl
          · rw [if_neg (fun h => hmem (htwice.mp h)), if_neg hmem, registerMany, ← List.map_cons]
            refine ih hsound (t :: seen) ?_
            rw [List.map_append, List.reverse_append]
            exact .cons hlists hseen'

/-- What opening a file leaves in the registry, whether it succeeds or fails. -/
theorem openFile_registry {path : String} {file : Bytes} {r : InstrumentRegistry} (hr : r.Sound) :
    (openFile path file r).2 =
      match readMetadata path file with
      | .error _ => r
      | .ok m => (registerMany m (walked path m [] m.directory) r).2 := by
  unfold openFile
  cases readMetadata path file with
  | error x => rfl
  | ok m =>
      have hwalked : (registerAll path m m.directory (startSession path file m) 0 r).2 =
          (registerMany m (walked path m [] m.directory) r).2 := registerAll_registry hr [] .nil
      dsimp only
      rw [← hwalked]
      generalize hall : registerAll path m m.directory _ 0 r = result
      change registerAll path m m.directory (startSession path file m) 0 r = result at hall
      rw [hall]
      obtain ⟨result, r₁⟩ := result
      cases result with
      | error x => rfl
      | ok x =>
          obtain ⟨s₁, rows⟩ := x
          dsimp only
          split_ifs
          · rfl
          · rfl

end VfdaySession

/-! ## Reachable registries -/

/-- The registries a program can build: names interned, contracts added and files opened, in any order. -/
inductive InstrumentRegistry.Reachable : InstrumentRegistry → Prop where
  | empty : Reachable {}
  | intern {r : InstrumentRegistry} (h : Reachable r) (name : Bytes) : Reachable (r.internUnderlying name).1
  | add {r : InstrumentRegistry} (h : Reachable r) (spec : InstrumentSpec) : Reachable (r.add spec).1
  | opened {r : InstrumentRegistry} (h : Reachable r) (path : String) (file : Bytes) :
      Reachable (VfdaySession.openFile path file r).2

theorem InstrumentRegistry.Reachable.sound {r : InstrumentRegistry} (h : r.Reachable) : r.Sound := by
  induction h with
  | empty => exact sound_empty
  | intern h name ih => exact (internUnderlying_spec ih name).1
  | add h spec ih => exact (add_spec ih spec).1
  | opened h path file ih =>
      rw [VfdaySession.openFile_registry ih]
      cases VfdaySession.readMetadata path file with
      | error x => exact ih
      | ok m => exact (VfdaySession.registerMany_spec ih m _).1

end Volforge
