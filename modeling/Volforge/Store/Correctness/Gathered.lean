import Volforge.Store.Correctness.Shared
import Volforge.Store.Correctness.Verified

/-!
# `Store.Correctness.Gathered` — the files of several days in one registry

A file that passed its verification was read back into a registry of its own. A store opens all its files into one,
which keeps what it was given first. Where every contract is an option of one lot size, that makes no difference.

## Contents
- **One kind of contract.** `OptionsOf`.
- **One file.** It opens into any such registry, and holds its session there: `opens_gathered`.
- **A directory.** What a scan keeps: `Shelf`, its step and its run lemma.
-/

namespace Volforge

open IdTable VfdaySession

/-! ## One kind of contract -/

/-- Every contract is an option of this lot size. -/
def InstrumentRegistry.OptionsOf (lot : Int32) (r : InstrumentRegistry) : Prop :=
  ∀ id s, At r.specs id s → s.kind = .Option ∧ s.lotSize = lot

theorem InstrumentRegistry.optionsOf_empty (lot : Int32) : OptionsOf lot {} := by
  rintro id s ⟨i, _, hget⟩
  cases hget

/-- Adding an option of this lot size. -/
theorem InstrumentRegistry.OptionsOf.add {lot : Int32} {r : InstrumentRegistry} (h : r.OptionsOf lot)
    {spec : InstrumentSpec} (hkind : spec.kind = .Option) (hlot : spec.lotSize = lot) : (r.add spec).1.OptionsOf lot := by
  intro id s hs
  unfold InstrumentRegistry.add at hs
  dsimp only at hs
  cases hlookup : r.byKey.lookup (keyOf spec) with
  | some old =>
      rw [hlookup] at hs
      exact h id s hs
  | none =>
      rw [hlookup] at hs
      rcases at_concat.mp hs with hat | ⟨_, rfl⟩
      · exact h id s hat
      · exact ⟨hkind, hlot⟩

/-- Options of one lot size and one key have the same terms. -/
theorem sameTerms_of_keyOf {a b : InstrumentSpec} (ha : a.kind = .Option)
    (hkey : InstrumentRegistry.keyOf a = InstrumentRegistry.keyOf b) (hlot : a.lotSize = b.lotSize) : SameTerms a b := by
  unfold InstrumentRegistry.keyOf at hkey
  rw [Key.mk.injEq] at hkey
  obtain ⟨_, hkind, hexpiry, hstrike, hright⟩ := hkey
  rw [if_pos ha, if_pos (hkind ▸ ha)] at hright
  refine ⟨hkind, hexpiry, hstrike, ?_, hlot⟩
  rw [← Right.ofByte_toByte a.right, ← Right.ofByte_toByte b.right, hright]

/-! ## One file -/

/-- Opening the same file, an id for each directory entry. -/
theorem quotes_extend (path : String) (file : Bytes) {m : Metadata} {ids ids' : List InstrumentId}
    (hlen : ids.length = m.directory.length) (hlen' : ids'.length = m.directory.length) (hnodup : ids.Nodup)
    (hnodup' : ids'.Nodup) :
    List.Forall₂ (fun id id' => ((startSession path file m).extend ids m.directory).quotes id =
      ((startSession path file m).extend ids' m.directory).quotes id') ids ids' := by
  have hlookup : ∀ {xs : List InstrumentId} (hx : xs.length = m.directory.length), xs.Nodup → ∀ n (hn : n < xs.length),
      ((startSession path file m).extend xs m.directory).entries.lookup xs[n] = some (entryOf m.directory[n]) := by
    intro xs hx hnd n hn
    refine Memo.lookup_of_mem ?_ ?_
    · rw [keys_extend hx]
      exact hnd
    · have hzip : n < (xs.zip (m.directory.map entryOf)).length := by simp [hx]; omega
      have hmem := List.getElem_mem hzip
      rw [List.getElem_zip, List.getElem_map] at hmem
      exact List.mem_append_right _ hmem
  refine List.forall₂_iff_get.mpr ⟨hlen.trans hlen'.symm, fun n hn hn' => ?_⟩
  have hget := hlookup hlen hnodup n hn
  have hget' := hlookup hlen' hnodup' n hn'
  unfold quotes materialise
  rw [List.get_eq_getElem, List.get_eq_getElem, hget, hget']
  rfl

/-- **A verified file** opens into any sound registry of options of its lot size, and holds its session there. -/
theorem opens_gathered {lot : Int32} {session : SessionData} (hsession : session.registry.OptionsOf lot) {path : String}
    {file : Bytes} {s₀ : VfdaySession} {r₀ : InstrumentRegistry} (hopen : openFile path file {} = (.ok s₀, r₀))
    (hverified : Verified session s₀ r₀) {r : InstrumentRegistry} (hr : r.Sound) (hlot : r.OptionsOf lot) :
    ∃ s r', openFile path file r = (.ok s, r') ∧ Verified session s r' ∧ r'.Sound ∧ r'.OptionsOf lot ∧ r.Extends r' := by
  obtain ⟨m, ts, hm, hts, hnodup₀, rfl, hrows, rfl⟩ := openFile_eq_ok.mp hopen
  have hnodup : (registerMany m ts r).1.Nodup :=
    (nodup_registerMany hr m ts).mpr ((nodup_registerMany InstrumentRegistry.sound_empty m ts).mp hnodup₀)
  obtain ⟨hsound, hext, _⟩ := registerMany_spec hr m ts
  obtain ⟨originals, hperm, hback⟩ := hverified.contracts
  have hinstruments : ∀ ids, ((startSession path file m).extend ids m.directory).instruments = ids := fun _ => rfl
  rw [hinstruments] at hback
  have hlen : ∀ r', (registerMany m ts r').1.length = m.directory.length :=
    fun r' => (length_registerMany m ts r').trans hts.length_eq.symm
  have hsound₀ := (registerMany_spec InstrumentRegistry.sound_empty m ts).1
  -- a table entry is the contract it was verified to be
  have hentry : List.Forall₂ (fun original t => session.Matches (specOf t 0) (nameOf m t) original ∧
      t.lotSize = lot ∧ (specOf t 0).kind = .Option) originals ts := by
    refine (related_comp hback.flip (registerMany_resolved InstrumentRegistry.sound_empty m ts hnodup₀)).imp ?_
    rintro original t ⟨id, hid, u, spec, hu, hs, _, hcase⟩
    have hspec : spec = { specOf t u with id := id } := by
      rcases hcase with ⟨n, _, hget⟩ | hspec
      · cases hget
      · exact hspec
    obtain ⟨spec', name, hspec', hname, hmatches⟩ := hid.contract
    rw [InstrumentRegistry.spec_eq_ok.mpr hs] at hspec'
    cases hspec'
    rw [hspec] at hname hmatches
    obtain rfl := at_inj (InstrumentRegistry.underlyingName_eq_ok.mp hname) hu
    obtain ⟨c, hc, hterms, hcname⟩ := hmatches
    obtain ⟨hkind, hclot⟩ := hsession original c (InstrumentRegistry.spec_eq_ok.mp hc)
    exact ⟨⟨c, hc, ⟨hterms.kind, hterms.expiry, hterms.strike, hterms.right, hterms.lotSize⟩, hcname⟩,
      hterms.lotSize.symm.trans hclot, hterms.kind.symm.trans hkind⟩
  -- what an id resolves to in the shared registry
  have hresolved := registerMany_resolved hr m ts hnodup
  have hlots : (registerMany m ts r).2.OptionsOf lot := by
    intro id s hs
    rcases registerMany_only hr m ts hs with hold | hnew
    · exact hlot id s hold
    · obtain ⟨t, ht, u, s', _, hs', _, hcase⟩ := exists_of_mem_left hresolved hnew
      rw [at_inj hs hs']
      rcases hcase with hold | rfl
      · exact hlot id s' hold
      · obtain ⟨_, _, _, htlot, hkind⟩ := exists_of_mem_right hentry ht
        exact ⟨hkind, htlot⟩
  refine ⟨_, _, openFile_eq_ok.mpr ⟨m, ts, hm, hts, hnodup, rfl, hrows, rfl⟩,
    ⟨hverified.date, hverified.total, hverified.timeline, originals, hperm, ?_⟩, hsound, hlots, hext⟩
  rw [hinstruments]
  have hquotes := quotes_extend path file (hlen r) (hlen {}) hnodup hnodup₀
  have hboth := related_and (related_comp hquotes hback) (related_comp hresolved hentry.flip)
  refine hboth.imp ?_
  rintro id original ⟨⟨id₀, hsame, hid₀⟩, t, ⟨u, spec, hu, hs, hkey, _⟩, ⟨c, hc, hterms, hcname⟩, htlot, hkind⟩
  refine ⟨hid₀.listed, ⟨spec, nameOf m t, InstrumentRegistry.spec_eq_ok.mpr hs, ?_, c, hc, ?_, hcname⟩, ?_⟩
  · have hunderlying : spec.underlying = u := congrArg Key.underlying hkey
    rw [hunderlying]
    exact InstrumentRegistry.underlyingName_eq_ok.mpr hu
  · obtain ⟨hspecKind, hspecLot⟩ := hlots id spec hs
    have hsame := sameTerms_of_keyOf hspecKind hkey (hspecLot.trans htlot.symm)
    exact ⟨hterms.kind.trans hsame.kind.symm, hterms.expiry.trans hsame.expiry.symm,
      hterms.strike.trans hsame.strike.symm, hterms.right.trans hsame.right.symm,
      hterms.lotSize.trans hsame.lotSize.symm⟩
  · rw [hsame]
    exact hid₀.columns

/-- What a session holds, it holds when the registry grows. -/
theorem Verified.mono {session : SessionData} {s : VfdaySession} {r r' : InstrumentRegistry} (hext : r.Extends r')
    (h : Verified session s r) : Verified session s r' := by
  obtain ⟨originals, hperm, hback⟩ := h.contracts
  refine ⟨h.date, h.total, h.timeline, originals, hperm, hback.imp (fun id original hid => ?_)⟩
  obtain ⟨hlisted, ⟨spec, name, hspec, hname, hmatches⟩, hcolumns⟩ := hid
  exact ⟨hlisted, ⟨spec, name,
    InstrumentRegistry.spec_eq_ok.mpr (hext.specs id spec (InstrumentRegistry.spec_eq_ok.mp hspec)),
    InstrumentRegistry.underlyingName_eq_ok.mpr (hext.names _ name (InstrumentRegistry.underlyingName_eq_ok.mp hname)),
    hmatches⟩, hcolumns⟩

/-! ## A directory -/

/-- The file was verified to hold the session, whose contracts are options of this lot size. -/
structure VerifiedFile (lot : Int32) (file : String × Bytes) (session : SessionData) : Prop where
  lots : session.registry.OptionsOf lot
  opens : ∃ s r, openFile file.1 file.2 {} = (.ok s, r) ∧ Verified session s r

/-- The source holds the sessions of these days, in the order of their files. -/
structure Shelf (lot : Int32) (days : List ((String × Bytes) × SessionData)) (source : VfdaySource)
    (r : InstrumentRegistry) : Prop where
  sound : r.Sound
  lots : r.OptionsOf lot
  problems : source.problems = []
  files : source.files = days.map (fun day => (day.2.date.yyyymmdd, day.1.1))
  cache : List.Forall₂ (fun entry day => entry.1 = day.2.date.yyyymmdd ∧ Verified day.2 entry.2 r) source.cache days

theorem shelf_new {lot : Int32} {r : InstrumentRegistry} (hr : r.Sound) (hlot : r.OptionsOf lot) : Shelf lot [] {} r :=
  ⟨hr, hlot, rfl, rfl, .nil⟩

section

variable {lot : Int32} {days : List ((String × Bytes) × SessionData)} {source : VfdaySource} {r : InstrumentRegistry}

/-- The step lemma of the scan. -/
theorem Shelf.step (h : Shelf lot days source r) {day : (String × Bytes) × SessionData} (hday : VerifiedFile lot day.1 day.2)
    (hnew : day.2.date ∉ days.map (·.2.date)) :
    Shelf lot (days ++ [day]) (VfdaySource.scanFile (source, r) day.1).1 (VfdaySource.scanFile (source, r) day.1).2 := by
  obtain ⟨s₀, r₀, hopen₀, hverified₀⟩ := hday.opens
  obtain ⟨s, r', hopen, hverified, hsound, hlots, hext⟩ := opens_gathered hday.lots hopen₀ hverified₀ h.sound h.lots
  have hlookup : source.files.lookup day.2.date.yyyymmdd = none := by
    rw [← Option.not_isSome_iff_eq_none, List.lookup_isSome_iff, h.files]
    rintro ⟨p, hp, hkey⟩
    obtain ⟨other, hother, rfl⟩ := List.mem_map.mp hp
    refine hnew (List.mem_map.mpr ⟨other, hother, ?_⟩)
    exact Date.mk.injEq .. ▸ (beq_iff_eq.mp hkey).symm
  unfold VfdaySource.scanFile
  dsimp only
  rw [hopen]
  dsimp only
  rw [hverified.date, hlookup]
  refine ⟨hsound, hlots, h.problems, ?_, ?_⟩
  · rw [h.files, List.map_append]
    rfl
  · -- the sessions from before are held in the registry as it was
    have hold := h.cache.imp (fun _ _ hentry => And.intro hentry.1 (hentry.2.mono hext))
    exact List.rel_append hold (.cons ⟨rfl, hverified⟩ .nil)

/-- **A scan of verified files** of different dates takes every one. -/
theorem shelf_of_scan (hr : r.Sound) (hlot : r.OptionsOf lot) (hdays : ∀ day ∈ days, VerifiedFile lot day.1 day.2)
    (hdistinct : (days.map (·.2.date)).Nodup) :
    Shelf lot days (VfdaySource.scan (days.map (·.1)) r).1 (VfdaySource.scan (days.map (·.1)) r).2 := by
  induction days using List.reverseRecOn with
  | nil => exact shelf_new hr hlot
  | append_singleton done day ih =>
      rw [List.map_append, List.nodup_append] at hdistinct
      have hdone := ih (fun other hother => hdays other (List.mem_append_left _ hother)) hdistinct.1
      rw [List.map_append, List.map_singleton, VfdaySource.scan_concat]
      refine hdone.step (hdays day (List.mem_append_right _ (List.mem_singleton.mpr rfl))) (fun hmem => ?_)
      exact hdistinct.2.2 _ hmem _ (List.mem_singleton.mpr rfl) rfl

theorem mem_foldl_insertDate {ds out : List Date} {e : Date} :
    e ∈ ds.foldl (fun out d => InstrumentRegistry.insertDate d out) out ↔ e ∈ ds ∨ e ∈ out := by
  induction ds generalizing out with
  | nil => simp
  | cons d ds ih =>
      rw [List.foldl_cons, ih, InstrumentRegistry.mem_insertDate, List.mem_cons]
      tauto

/-- The dates that are listed. -/
theorem Shelf.mem_sessions (h : Shelf lot days source r) (d : Date) :
    d ∈ source.sessions ↔ ∃ day ∈ days, day.2.date = d := by
  unfold VfdaySource.sessions
  rw [mem_foldl_insertDate, h.files, List.map_map, List.mem_map, or_iff_left List.not_mem_nil]
  rfl

/-- Each day is served from the cache, whatever the disk holds by then. -/
theorem Shelf.load (h : Shelf lot days source r) (hdistinct : (days.map (·.2.date)).Nodup)
    {day : (String × Bytes) × SessionData} (hday : day ∈ days) (disk : String → Option Bytes) :
    ∃ v, source.load disk r day.2.date = (.ok (some v), source, r) ∧ Verified day.2 v r := by
  obtain ⟨entry, hentry, hkey, hverified⟩ := exists_of_mem_right h.cache hday
  have hkeys : (source.cache.map (·.1)).Nodup := by
    rw [map_eq_map h.cache (fun _ _ hrel => hrel.1), show (fun day : (String × Bytes) × SessionData => day.2.date.yyyymmdd) =
      Date.yyyymmdd ∘ (fun day => day.2.date) from rfl, ← List.map_map]
    exact hdistinct.map (fun a b hab => Date.mk.injEq .. ▸ hab)
  refine ⟨entry.2, ?_, hverified⟩
  unfold VfdaySource.load
  rw [← hkey, Memo.lookup_of_mem hkeys hentry]

end

end Volforge
