import Volforge.Store.Correctness.Bounds
import Volforge.Store.Correctness.RoundTrip

/-!
# `Store.Correctness.Shared` — one registry, several files

Every file of a store is opened into one registry, which keeps what it was given first.

## Contents
- **Refused files.** What a file that is refused leaves behind, and what a scan of a directory collects.
- **Revised contracts.** What the contracts of an accepted file resolve to when the registry held them before.
-/

namespace Volforge

open IdTable VfdaySession

/-! ## Refused files -/

/-- Every contract that is registered while the file is opened is held already. -/
def WalksHeld (r : InstrumentRegistry) (path : String) (file : Bytes) : Prop :=
  ∀ m, readMetadata path file = .ok m → ∀ t ∈ walked path m [] m.directory, ∃ id, Lists r m id t

theorem openFile_registry_eq_iff {path : String} {file : Bytes} {r : InstrumentRegistry} (hr : r.Sound) :
    (openFile path file r).2 = r ↔ WalksHeld r path file := by
  rw [openFile_registry hr]
  unfold WalksHeld
  cases readMetadata path file with
  | error x =>
      refine iff_of_true rfl (fun m hm => ?_)
      cases hm
  | ok m =>
      dsimp only
      rw [registerMany_eq_self_iff hr]
      constructor
      · intro h m' hm'
        cases hm'
        exact h
      · intro h
        exact h m rfl

/-- Every contract of `r` was there before, or belongs to an accepted session. -/
def OnlyAccepted (before : InstrumentRegistry) (source : VfdaySource) (r : InstrumentRegistry) : Prop :=
  ∀ id s, r.spec id = .ok s → before.spec id = .ok s ∨ ∃ p ∈ source.cache, id ∈ p.2.instruments

namespace VfdaySource

theorem scan_concat (directory : List (String × Bytes)) (entry : String × Bytes) (r : InstrumentRegistry) :
    scan (directory ++ [entry]) r = scanFile (scan directory r) entry := by
  unfold scan
  rw [List.foldl_append]
  rfl

/-- One file of the scan: it is accepted, or the files are those from before. -/
theorem scanFile_cases (source : VfdaySource) (r : InstrumentRegistry) (entry : String × Bytes) :
    (scanFile (source, r) entry).2 = (openFile entry.1 entry.2 r).2 ∧
      (((scanFile (source, r) entry).1.files = source.files ∧ (scanFile (source, r) entry).1.cache = source.cache) ∨
        ∃ session key, (openFile entry.1 entry.2 r).1 = .ok session ∧
          (scanFile (source, r) entry).1.cache = source.cache ++ [(key, session)]) := by
  unfold scanFile
  dsimp only
  cases hopen : openFile entry.1 entry.2 r with
  | mk result r₁ =>
      cases result with
      | error x => exact ⟨rfl, .inl ⟨rfl, rfl⟩⟩
      | ok session =>
          dsimp only
          cases source.files.lookup session.date.yyyymmdd with
          | some path => exact ⟨rfl, .inl ⟨rfl, rfl⟩⟩
          | none => exact ⟨rfl, .inr ⟨session, _, rfl, rfl⟩⟩

/-- The step lemma of the scan. -/
theorem scanFile_onlyAccepted {before r : InstrumentRegistry} {source : VfdaySource} (hr : r.Sound)
    (h : OnlyAccepted before source r) {entry : String × Bytes}
    (hheld : (scanFile (source, r) entry).1.files = source.files → WalksHeld r entry.1 entry.2) :
    (scanFile (source, r) entry).2.Sound ∧
      OnlyAccepted before (scanFile (source, r) entry).1 (scanFile (source, r) entry).2 := by
  obtain ⟨hregistry, hcase⟩ := scanFile_cases source r entry
  rcases hcase with ⟨hfiles, hcache⟩ | ⟨session, key, hsession, hcache⟩
  · -- not taken: it left the registry as it was
    have hsame := (openFile_registry_eq_iff hr).mpr (hheld hfiles)
    rw [hregistry, hsame]
    refine ⟨hr, fun id s hs => ?_⟩
    rw [hcache]
    exact h id s hs
  · -- taken: what it registered is what its session lists
    have hopen : openFile entry.1 entry.2 r = (.ok session, (openFile entry.1 entry.2 r).2) := by rw [← hsession]
    obtain ⟨m, ts, _, _, _, hs, _, hr'⟩ := openFile_eq_ok.mp hopen
    rw [hregistry, hr']
    refine ⟨(registerMany_spec hr m ts).1, fun id s hid => ?_⟩
    rw [hcache]
    rcases registerMany_only hr m ts (InstrumentRegistry.spec_eq_ok.mp hid) with hold | hnew
    · rcases h id s (InstrumentRegistry.spec_eq_ok.mpr hold) with hbefore | ⟨p, hp, hmem⟩
      · exact .inl hbefore
      · exact .inr ⟨p, List.mem_append_left _ hp, hmem⟩
    · refine .inr ⟨(key, session), List.mem_append_right _ (List.mem_singleton.mpr rfl), ?_⟩
      rw [hs]
      exact hnew

/-- The run lemma of the scan. -/
theorem scan_onlyAccepted {r : InstrumentRegistry} (hr : r.Sound) {directory : List (String × Bytes)}
    (hheld : ∀ done entry rest, directory = done ++ entry :: rest →
      (scan (done ++ [entry]) r).1.files = (scan done r).1.files → WalksHeld (scan done r).2 entry.1 entry.2) :
    (scan directory r).2.Sound ∧ OnlyAccepted r (scan directory r).1 (scan directory r).2 := by
  induction directory using List.reverseRecOn with
  | nil => exact ⟨hr, fun id s hs => .inl hs⟩
  | append_singleton done entry ih =>
      obtain ⟨hsound, honly⟩ := ih (fun done' entry' rest heq =>
        hheld done' entry' (rest ++ [entry]) (by rw [heq, List.append_assoc]; rfl))
      have hlast := hheld done entry [] rfl
      rw [scan_concat] at hlast ⊢
      exact scanFile_onlyAccepted hsound honly hlast

end VfdaySource

/-- **A refused file leaves no trace** exactly when the registry holds every contract that was registered before
    the file was refused. When that is so of every file a scan does not take, the registry gains only contracts of
    the sessions it took. -/
theorem refused_files_leave_no_trace_iff {r : InstrumentRegistry} (hr : r.Reachable) :
    (∀ path file x r', openFile path file r = (.error x, r') → (r' = r ↔ WalksHeld r path file)) ∧
    ∀ directory : List (String × Bytes),
      (∀ done entry rest, directory = done ++ entry :: rest →
        (VfdaySource.scan (done ++ [entry]) r).1.files = (VfdaySource.scan done r).1.files →
        WalksHeld (VfdaySource.scan done r).2 entry.1 entry.2) →
      OnlyAccepted r (VfdaySource.scan directory r).1 (VfdaySource.scan directory r).2 := by
  refine ⟨fun path file x r' hopen => ?_, fun directory hheld => ?_⟩
  · have hiff : (openFile path file r).2 = r ↔ WalksHeld r path file := openFile_registry_eq_iff hr.sound
    rw [hopen] at hiff
    exact hiff
  · exact (VfdaySource.scan_onlyAccepted hr.sound hheld).2

/-- A file whose row counts do not add up: its one contract is registered before that is noticed. -/
def miscountedImage : Image := (blobAt 112 0).image { silentSession with totalObservations := 1 } []

theorem miscounted_refused (r : InstrumentRegistry) :
    ∃ x, openFile "day.vfday" miscountedImage.bytes r = (.error x, (openFile "day.vfday" miscountedImage.bytes r).2) := by
  cases hopen : openFile "day.vfday" miscountedImage.bytes r with
  | mk result r' =>
      cases result with
      | ok s =>
          obtain ⟨_, _, _, _, hrows, _⟩ := (blobAt_described 112 0 _).openFile_eq_ok.mp hopen
          exact absurd hrows (by decide)
      | error x => exact ⟨x, rfl⟩

/-- What is walked of it is its contract. -/
theorem miscounted_walked {t : TableEntry} :
    t ∈ walked "day.vfday" miscountedImage.metadata [] miscountedImage.metadata.directory ↔
      t ∈ miscountedImage.metadata.table := by
  obtain ⟨t', hcheck⟩ := blobAt_checked (show ¬ (112 : Int64) < 112 by decide)
    (show ¬ 112 < (112 : Int64) + (0 : UInt32).toUInt64.toInt64 by decide) { silentSession with totalObservations := 1 }
  have htable : miscountedImage.metadata.table = [t'] :=
    congrArg (fun x => [x]) (Option.some.inj (checkEntry_eq_ok.mp hcheck).table)
  have hwalked : walked "day.vfday" miscountedImage.metadata [] miscountedImage.metadata.directory = [t'] := by
    show walked "day.vfday" miscountedImage.metadata [] [_] = [t']
    unfold walked
    rw [miscountedImage, hcheck]
    rfl
  rw [hwalked, htable]

/-- A registry that holds its contract. -/
def heldRegistry : InstrumentRegistry := ((({} : InstrumentRegistry).internUnderlying []).1.add { underlying := 0 }).1

theorem heldRegistry_walks : WalksHeld heldRegistry "day.vfday" miscountedImage.bytes := by
  intro m hm t ht
  have hmeta : readMetadata "day.vfday" miscountedImage.bytes = .ok miscountedImage.metadata :=
    (blobAt_described 112 0 _).readMetadata_bytes
  obtain rfl : m = miscountedImage.metadata := Except.ok.inj (hm.symm.trans hmeta)
  have ht := miscounted_walked.mp ht
  rw [List.mem_singleton.mp (show t ∈ [_] from ht)]
  exact ⟨0, 0, { id := 0, underlying := 0 }, ⟨0, rfl, rfl⟩, ⟨0, rfl, rfl⟩, rfl⟩

/-- A directory of a file that is refused and one that is taken. -/
theorem scan_refused_taken {r r' : InstrumentRegistry} {file good : Bytes} {x : Error} {opened : VfdaySession}
    (hbad : openFile "day.vfday" file r = (.error x, r)) (hgood : openFile "good.vfday" good r = (.ok opened, r')) :
    (VfdaySource.scan [("day.vfday", file)] r).1.files = [] ∧
      (VfdaySource.scan [("day.vfday", file), ("good.vfday", good)] r).1.files = [(opened.date.yyyymmdd, "good.vfday")] := by
  simp [VfdaySource.scan, VfdaySource.scanFile, hbad, hgood]

/-- Of the two only the first is not taken. -/
theorem walks_of_refused_taken {r r' : InstrumentRegistry} {file good : Bytes} {x : Error} {opened : VfdaySession}
    (hbad : openFile "day.vfday" file r = (.error x, r)) (hgood : openFile "good.vfday" good r = (.ok opened, r'))
    (hwalks : WalksHeld r "day.vfday" file) (done : List (String × Bytes)) (entry : String × Bytes)
    (rest : List (String × Bytes)) (hdirectory : [("day.vfday", file), ("good.vfday", good)] = done ++ entry :: rest)
    (hnot : (VfdaySource.scan (done ++ [entry]) r).1.files = (VfdaySource.scan done r).1.files) :
    WalksHeld (VfdaySource.scan done r).2 entry.1 entry.2 := by
  obtain ⟨hnone, hone⟩ := scan_refused_taken hbad hgood
  match done, hdirectory with
  | [], hdirectory =>
      cases hdirectory
      exact hwalks
  | [_], hdirectory =>
      cases hdirectory
      rw [List.singleton_append, hone, hnone] at hnot
      cases hnot
  | _ :: _ :: _, hdirectory => simp at hdirectory

theorem flatSession_opens {r : InstrumentRegistry} (hr : r.Sound) : ∃ good opened r',
    writeVfday (flatSession ⟨20250701⟩ [1, 2]) = .ok good ∧ openFile "good.vfday" good r = (.ok opened, r') ∧
      opened.date = ⟨20250701⟩ := by
  obtain ⟨w, hw⟩ : ∃ w, (flatSession ⟨20250701⟩ [1, 2]).Written w _ :=
    flatSession_written _ (by decide) (by decide) (by decide +kernel)
  exact ⟨_, _, _, hw.file, hw.opens "good.vfday" hr, rfl⟩

/-- The miscounted file is refused by a registry that holds its contract, and leaves no trace, alone or in a directory
    with a file that is taken. -/
theorem refused_files_leave_no_trace_iff_held : ∃ x good,
    openFile "day.vfday" miscountedImage.bytes heldRegistry = (.error x, heldRegistry) ∧
      writeVfday (flatSession ⟨20250701⟩ [1, 2]) = .ok good ∧
      (VfdaySource.scan [("day.vfday", miscountedImage.bytes), ("good.vfday", good)] heldRegistry).1.files =
        [(20250701, "good.vfday")] ∧
      OnlyAccepted heldRegistry
        (VfdaySource.scan [("day.vfday", miscountedImage.bytes), ("good.vfday", good)] heldRegistry).1
        (VfdaySource.scan [("day.vfday", miscountedImage.bytes), ("good.vfday", good)] heldRegistry).2 := by
  have hreach : heldRegistry.Reachable := .add (.intern .empty []) _
  obtain ⟨x, hopen⟩ := miscounted_refused heldRegistry
  have hsame := ((refused_files_leave_no_trace_iff hreach).1 _ _ _ _ hopen).mpr heldRegistry_walks
  rw [hsame] at hopen
  obtain ⟨good, opened, r', hfile, hgood, hdate⟩ := flatSession_opens hreach.sound
  have hfiles := (scan_refused_taken hopen hgood).2
  rw [hdate] at hfiles
  exact ⟨x, good, hopen, hfile, hfiles, (refused_files_leave_no_trace_iff hreach).2 _
    (walks_of_refused_taken hopen hgood heldRegistry_walks)⟩

/-- The miscounted file leaves its contract in an empty registry. -/
theorem miscounted_file_leaves_a_contract : ∃ file x r',
    openFile "day.vfday" file {} = (.error x, r') ∧ r' ≠ {} := by
  obtain ⟨x, hopen⟩ := miscounted_refused {}
  refine ⟨miscountedImage.bytes, x, _, hopen, fun hsame => ?_⟩
  have hheld := (openFile_registry_eq_iff InstrumentRegistry.sound_empty).mp hsame
  obtain ⟨id, u, s, _, ⟨n, _, hget⟩, _⟩ := hheld miscountedImage.metadata (blobAt_described 112 0 _).readMetadata_bytes _
    (miscounted_walked.mpr (List.mem_singleton.mpr rfl))
  cases hget

/-! ## Revised contracts -/

/-- The registry once names are interned. -/
def internAll (r : InstrumentRegistry) (names : List Bytes) : InstrumentRegistry :=
  names.foldl (fun r name => (r.internUnderlying name).1) r

/-- Registering contracts interns their names, and no others. -/
theorem registerMany_underlyings (m : Metadata) (ts : List TableEntry) {r r' : InstrumentRegistry}
    (hnames : r.underlyings = r'.underlyings) (hids : r.underlyingIds = r'.underlyingIds) :
    (registerMany m ts r).2.underlyings = (internAll r' (ts.map (nameOf m))).underlyings := by
  induction ts generalizing r r' with
  | nil => exact hnames
  | cons t ts ih =>
      obtain ⟨hnames₁, hids₁⟩ := InstrumentRegistry.internUnderlying_congr hnames hids (nameOf m t)
      have hadd := InstrumentRegistry.add_names (r.internUnderlying (nameOf m t)).1
        (specOf t (r.internUnderlying (nameOf m t)).2)
      exact ih (hadd.1.trans hnames₁) (hadd.2.trans hids₁)

/-- The table entries of the directory. -/
def listed (m : Metadata) : List TableEntry :=
  m.directory.filterMap (fun e => m.table[e.tableIndex.toInt.toNat]?)

theorem listed_eq {path : String} {m : Metadata} {es : List DirEntry} {ts : List TableEntry}
    (h : List.Forall₂ (fun e t => checkEntry path m e = .ok t) es ts) :
    es.filterMap (fun e => m.table[e.tableIndex.toInt.toNat]?) = ts := by
  induction h with
  | nil => rfl
  | cons ht _ ih =>
      rw [List.filterMap_cons]
      rw [(checkEntry_eq_ok.mp ht).table, ih]

/-- The underlying of this name and this contract are what the table entry says: the bytes of the string table, and the
    entry's own numbers. -/
structure HasTerms (m : Metadata) (t : TableEntry) (name : Bytes) (s : InstrumentSpec) : Prop where
  name : name = (m.strings.drop t.underlyingOffset.toNat).take t.underlyingLength.toNat
  kind : s.kind.toByte = t.kind
  expiry : s.expiry.yyyymmdd = t.expiry
  strike : s.strike = t.strikeMinor
  right : s.right.toByte = t.right
  lotSize : s.lotSize = t.lotSize
  tickSize : s.tickSize = t.tickMinor

/-- The id resolves to the table entry, in every field. -/
def Resolves (r : InstrumentRegistry) (m : Metadata) (id : InstrumentId) (t : TableEntry) : Prop :=
  ∃ s name, r.spec id = .ok s ∧ r.underlyingName s.underlying = .ok name ∧ HasTerms m t name s

/-- What a contract's key says of the table entry, and what it leaves open. -/
theorem hasTerms_iff {m : Metadata} {t : TableEntry} {s : InstrumentSpec} :
    HasTerms m t (nameOf m t) s ↔
      InstrumentRegistry.keyOf s = InstrumentRegistry.keyOf (specOf t s.underlying) ∧
        s.lotSize = t.lotSize ∧ s.tickSize = t.tickMinor ∧ s.right.toByte = t.right := by
  constructor
  · intro h
    have hkind : s.kind = .ofByte t.kind := by rw [← h.kind, InstrumentKind.ofByte_toByte]
    have hexpiry : s.expiry = ⟨t.expiry⟩ := by rw [← h.expiry]
    refine ⟨?_, h.lotSize, h.tickSize, h.right⟩
    simp only [InstrumentRegistry.keyOf, specOf, ← hkind, hexpiry, h.strike, h.right, Right.toByte_ofByte]
  · rintro ⟨hkey, hlot, htick, hright⟩
    simp only [InstrumentRegistry.keyOf, specOf, Key.mk.injEq] at hkey
    obtain ⟨_, hkind, hexpiry, hstrike, _⟩ := hkey
    refine ⟨rfl, ?_, ?_, hstrike, hright, hlot, htick⟩
    · rw [hkind, InstrumentKind.toByte_ofByte]
    · rw [hexpiry]

/-- A contract with the key of a resolved entry that was held before is the entry's. -/
theorem Resolves.of_held {r r' : InstrumentRegistry} (hsound : r'.Sound) (hext : r.Extends r') {m : Metadata}
    {id id' : InstrumentId} {t : TableEntry} (h : Resolves r' m id t) {u : UnderlyingId} {s : InstrumentSpec}
    (hu : At r'.underlyings u (nameOf m t)) (hs : r.spec id' = .ok s)
    (hkey : InstrumentRegistry.keyOf s = InstrumentRegistry.keyOf (specOf t u)) : HasTerms m t (nameOf m t) s := by
  obtain ⟨s', name', hs', hu', hterms⟩ := h
  obtain rfl : name' = nameOf m t := hterms.name
  have hu' := InstrumentRegistry.underlyingName_eq_ok.mp hu'
  obtain rfl : u = s'.underlying := hsound.names.unique hu hu' rfl
  have hs := hext.specs id' s (InstrumentRegistry.spec_eq_ok.mp hs)
  have hs' := InstrumentRegistry.spec_eq_ok.mp hs'
  obtain rfl : id' = id := hsound.keys.unique hs hs' (hkey.trans (hasTerms_iff.mp hterms).1.symm)
  rw [at_inj hs hs']
  exact hterms

/-- No contract that is held has the key of the table entry and another lot size, tick size or, where the key leaves it
    open, right. The entry's underlying has the id its name gets when the names of the file are interned. -/
def Unrevised (r : InstrumentRegistry) (m : Metadata) (t : TableEntry) : Prop :=
  ∀ u id s, (internAll r ((listed m).map (nameOf m))).underlyingName u = .ok (nameOf m t) → r.spec id = .ok s →
    InstrumentRegistry.keyOf s = InstrumentRegistry.keyOf (specOf t u) →
      s.lotSize = t.lotSize ∧ s.tickSize = t.tickMinor ∧ s.right.toByte = t.right

/-- **The contracts of an accepted file resolve to its table** exactly when the registry held none of them with
    another lot size, tick size or unused right. -/
theorem contracts_resolve_iff_unrevised {path : String} {file : Bytes} {r r' : InstrumentRegistry} {s : VfdaySession}
    (hr : r.Reachable) (h : openFile path file r = (.ok s, r')) :
    ∃ m, readMetadata path file = .ok m ∧
      (List.Forall₂ (Resolves r' m) s.instruments (listed m) ↔ ∀ t ∈ listed m, Unrevised r m t) := by
  obtain ⟨m, ts, hm, hts, hnodup, rfl, _, rfl⟩ := openFile_eq_ok.mp h
  have hlisted : listed m = ts := listed_eq hts
  have hinstruments : ((startSession path file m).extend (registerMany m ts r).1 m.directory).instruments =
      (registerMany m ts r).1 := rfl
  obtain ⟨hsound, hext, _⟩ := registerMany_spec hr.sound m ts
  have hresolved := registerMany_resolved hr.sound m ts hnodup
  have hnames : (internAll r ((listed m).map (nameOf m))).underlyings = (registerMany m ts r).2.underlyings := by
    rw [hlisted, registerMany_underlyings m ts rfl rfl]
  have hname : ∀ u name, (internAll r ((listed m).map (nameOf m))).underlyingName u = .ok name ↔
      At (registerMany m ts r).2.underlyings u name := by
    intro u name
    rw [InstrumentRegistry.underlyingName_eq_ok, hnames]
  refine ⟨m, readMetadata_eq_ok.mpr hm, ?_⟩
  unfold Unrevised
  rw [hinstruments, hlisted] at *
  constructor
  · intro hall t ht u id s hu hs hkey
    obtain ⟨id', _, hresolves⟩ := exists_of_mem_right hall ht
    exact (hasTerms_iff.mp (hresolves.of_held hsound hext ((hname u _).mp hu) hs hkey)).2
  · -- each id holds a contract with the entry's key, an old one or the entry's own
    intro hunrevised
    refine (with_mem hresolved).imp ?_
    rintro id t ⟨⟨_, ht⟩, u, s, hu, hs, hkey, hcase⟩
    have hunderlying : s.underlying = u := congrArg Key.underlying hkey
    have hopen : s.lotSize = t.lotSize ∧ s.tickSize = t.tickMinor ∧ s.right.toByte = t.right := by
      rcases hcase with hold | rfl
      · exact hunrevised t ht u id s ((hname u _).mpr hu) (InstrumentRegistry.spec_eq_ok.mpr hold) hkey
      · exact ⟨rfl, rfl, Right.toByte_ofByte t.right⟩
    subst hunderlying
    exact ⟨s, nameOf m t, InstrumentRegistry.spec_eq_ok.mpr hs, InstrumentRegistry.underlyingName_eq_ok.mpr hu,
      hasTerms_iff.mpr ⟨hkey, hopen⟩⟩

/-- A registry that holds the contract of a flat session with another lot size. -/
def revisedRegistry : InstrumentRegistry :=
  ((({} : InstrumentRegistry).internUnderlying [78]).1.add { underlying := 0, lotSize := 50 }).1

theorem revisedRegistry_reachable : revisedRegistry.Reachable := .add (.intern .empty [78]) _

/-- The file of a flat session, opened into a registry that holds its contract already. -/
theorem contracts_resolve_iff_unrevised_flat : ∃ file s r m,
    writeVfday (flatSession ⟨20250701⟩ [1, 2]) = .ok file ∧
      openFile "2025-07-01.vfday" file (flatSession ⟨20250701⟩ [1, 2]).registry = (.ok s, r) ∧
      readMetadata "2025-07-01.vfday" file = .ok m ∧ s.instruments.length = 1 ∧
      List.Forall₂ (Resolves r m) s.instruments (listed m) := by
  obtain ⟨w, hw⟩ : ∃ w, (flatSession ⟨20250701⟩ [1, 2]).Written w _ :=
    flatSession_written _ (by decide) (by decide) (by decide +kernel)
  have hreach : (flatSession ⟨20250701⟩ [1, 2]).registry.Reachable := .add (.intern .empty [78]) _
  have hopen := hw.opens "2025-07-01.vfday" hreach.sound
  obtain ⟨m, hm, hiff⟩ := contracts_resolve_iff_unrevised hreach hopen
  let image := w.image (flatSession ⟨20250701⟩ [1, 2]) (timelineOf (flatSession ⟨20250701⟩ [1, 2]))
  have hmeta : readMetadata "2025-07-01.vfday" image.bytes = .ok image.metadata := hw.described.readMetadata_bytes
  obtain rfl : m = image.metadata := Except.ok.inj (hm.symm.trans hmeta)
  have hlisted : listed image.metadata = w.table := listed_eq (hw.holds.checked hw.fits hw.itemFits "2025-07-01.vfday")
  have hall := hiff.mpr ?_
  · refine ⟨_, _, _, _, hw.file, hopen, hm, ?_, hall⟩
    rw [hall.length_eq, hlisted, hw.holds.table.length_eq]
    rfl
  · -- the contract that is held has the entry's lot size, tick size and right
    intro t ht u id s _ hs _
    rw [hlisted] at ht
    obtain ⟨i, hi, hentered⟩ := exists_of_mem_left hw.holds.table ht
    obtain rfl := List.mem_singleton.mp hi
    obtain ⟨n, _, hget⟩ := InstrumentRegistry.spec_eq_ok.mp hs
    obtain rfl : s = { id := 0, underlying := 0 } := by
      cases n with
      | zero => exact (Option.some.inj hget).symm
      | succ n => cases hget
    exact ⟨hentered.lotSize.symm, hentered.tickSize.symm, hentered.right.symm⟩

/-- Opened after the lot size was revised, the file's contract has the old lot size. -/
theorem revised_lot_size_is_not_read : ∃ file s r m,
    writeVfday (flatSession ⟨20250701⟩ [1, 2]) = .ok file ∧
      openFile "2025-07-01.vfday" file revisedRegistry = (.ok s, r) ∧
      readMetadata "2025-07-01.vfday" file = .ok m ∧ ¬ List.Forall₂ (Resolves r m) s.instruments (listed m) := by
  obtain ⟨w, hw⟩ : ∃ w, (flatSession ⟨20250701⟩ [1, 2]).Written w _ :=
    flatSession_written _ (by decide) (by decide) (by decide +kernel)
  have hsound := revisedRegistry_reachable.sound
  have hopen := hw.opens "2025-07-01.vfday" hsound
  let image := w.image (flatSession ⟨20250701⟩ [1, 2]) (timelineOf (flatSession ⟨20250701⟩ [1, 2]))
  refine ⟨_, _, _, image.metadata, hw.file, hopen, hw.described.readMetadata_bytes, ?_⟩
  intro hall
  obtain ⟨hsound', hext, _⟩ := registerMany_spec hsound image.metadata w.table
  have hlisted : listed image.metadata = w.table := listed_eq (hw.holds.checked hw.fits hw.itemFits "2025-07-01.vfday")
  obtain ⟨t, ht, hentered⟩ := exists_of_mem_right hw.holds.table (List.mem_singleton.mpr rfl)
  rw [hlisted] at hall
  obtain ⟨id, _, hresolves⟩ := exists_of_mem_right hall ht
  have hname : nameOf image.metadata t = [78] := hentered.nameOf
  have hu : At (registerMany image.metadata w.table revisedRegistry).2.underlyings 0 (nameOf image.metadata t) := by
    rw [hname]
    exact hext.names 0 [78] ⟨0, rfl, rfl⟩
  have hterms := hresolves.of_held hsound' hext hu
    (show revisedRegistry.spec 0 = .ok { id := 0, underlying := 0, lotSize := 50 } from rfl)
    (by rw [hentered.specOf]; rfl)
  exact absurd (hterms.lotSize.trans hentered.lotSize) (by decide)

end Volforge
