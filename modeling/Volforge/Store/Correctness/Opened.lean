import Volforge.Lib.Run
import Volforge.Store.Correctness.Layout

/-!
# `Store.Correctness.Opened` — what a successful `openFile` has checked

`Accepted` lists what `readMetadata` has established and `EntryChecked` what `checkEntry` has. `registerMany` is
what the directory loop does to the registry. `openFile_eq_ok` puts them together.

## Contents
- **Checks.** `failIf` and the loads of regions.
- **Metadata.** `readMetadata_eq_ok`.
- **Directory entries.** `checkEntry_eq_ok`.
- **Registration.** The loop of `openFile`, entry by entry.
-/

namespace Volforge

/-! ## Checks -/

theorem failIf_eq_ok {path why : String} {c : Prop} [Decidable c] {u : Unit} : failIf path c why = .ok u ↔ ¬ c := by
  unfold failIf
  split_ifs with h
  · simp [h]
  · simp [h]

theorem failIf_of_not {path why : String} {c : Prop} [Decidable c] (h : ¬ c) : failIf path c why = .ok () := if_neg h

/-- What `read_exact` has checked of a region it returns. -/
theorem readExact_eq_ok {path what : String} {file buffer : Bytes} {offset fileSize : Int64} {bytes : UInt64} :
    readExact path file offset bytes fileSize what = .ok buffer ↔
      ¬ offset < 0 ∧ ¬ fileSize.toUInt64 < bytes ∧ ¬ fileSize < offset + bytes.toInt64 ∧
        readAt file offset bytes.toNat = some buffer := by
  unfold readExact
  split_ifs with hout
  · constructor
    · intro h
      cases h
    · rintro ⟨hneg, hbig, hend, _⟩
      rcases hout with h | h | h
      · exact absurd h hneg
      · exact absurd h hbig
      · exact absurd h hend
  · have hin : ¬ offset < 0 ∧ ¬ fileSize.toUInt64 < bytes ∧ ¬ fileSize < offset + bytes.toInt64 :=
      ⟨fun h => hout (.inl h), fun h => hout (.inr (.inl h)), fun h => hout (.inr (.inr h))⟩
    cases hread : readAt file offset bytes.toNat with
    | none => simp
    | some b =>
        simp only [Except.ok.injEq, Option.some.injEq]
        exact ⟨fun h => ⟨hin.1, hin.2.1, hin.2.2, h⟩, fun h => h.2.2.2⟩

namespace VfdaySession

theorem readRegion_eq_ok {path what name : String} {file raw : Bytes} {offset : Int64} {bytes : UInt64} {crc : UInt32} :
    readRegion path file offset bytes crc what name = .ok raw ↔
      readExact path file offset bytes (Int64.ofNat file.length) what = .ok raw ∧ crc32 raw = crc := by
  unfold readRegion
  rw [Run.bind_eq_ok]
  constructor
  · rintro ⟨buffer, hread, h⟩
    obtain ⟨_, hcrc, h⟩ := Run.bind_eq_ok.mp h
    cases h
    exact ⟨hread, not_not.mp (failIf_eq_ok.mp hcrc)⟩
  · rintro ⟨hread, hcrc⟩
    exact ⟨raw, hread, Run.bind_eq_ok.mpr ⟨(), failIf_of_not (not_not.mpr hcrc), rfl⟩⟩

/-! ## Metadata -/

/-- The checks on the header. -/
structure HeaderChecked (file : Bytes) (h : FileHeader) : Prop where
  header : h = (FileHeader.read file).1
  long : ¬ Int64.ofNat file.length < Int64.ofNat FileHeader.size
  magic : h.magic = kMagic
  version : h.version = kVfdayVersion
  crc : crc32 (file.take FileHeader.crcOffset) = h.headerCrc
  fileBytes : h.fileBytes = Int64.ofNat file.length
  count : ¬ h.instrumentCount < 0

theorem readHeader_eq_ok {path : String} {file : Bytes} {h : FileHeader} :
    readHeader path file = .ok h ↔ HeaderChecked file h := by
  unfold readHeader
  dsimp only
  constructor
  · intro hread
    obtain ⟨_, hlong, hread⟩ := Run.bind_eq_ok.mp hread
    obtain ⟨_, hmagic, hread⟩ := Run.bind_eq_ok.mp hread
    obtain ⟨_, hversion, hread⟩ := Run.bind_eq_ok.mp hread
    obtain ⟨_, hcrc, hread⟩ := Run.bind_eq_ok.mp hread
    obtain ⟨_, hbytes, hread⟩ := Run.bind_eq_ok.mp hread
    obtain ⟨_, hcount, hread⟩ := Run.bind_eq_ok.mp hread
    cases hread
    exact ⟨rfl, failIf_eq_ok.mp hlong, not_not.mp (failIf_eq_ok.mp hmagic), not_not.mp (failIf_eq_ok.mp hversion),
      not_not.mp (failIf_eq_ok.mp hcrc), not_not.mp (failIf_eq_ok.mp hbytes), failIf_eq_ok.mp hcount⟩
  · rintro ⟨rfl, hlong, hmagic, hversion, hcrc, hbytes, hcount⟩
    exact Run.bind_eq_ok.mpr ⟨(), failIf_of_not hlong, Run.bind_eq_ok.mpr ⟨(), failIf_of_not (not_not.mpr hmagic),
      Run.bind_eq_ok.mpr ⟨(), failIf_of_not (not_not.mpr hversion), Run.bind_eq_ok.mpr ⟨(),
      failIf_of_not (not_not.mpr hcrc), Run.bind_eq_ok.mpr ⟨(), failIf_of_not (not_not.mpr hbytes),
      Run.bind_eq_ok.mpr ⟨(), failIf_of_not hcount, rfl⟩⟩⟩⟩⟩⟩

/-- What `openFile` has read, and checked, before it registers anything. -/
structure Accepted (path : String) (file : Bytes) (m : Metadata) : Prop where
  header : HeaderChecked file m.header
  table : ∃ raw, readRegion path file m.header.tableOffset m.header.tableBytes.toUInt64 m.header.tableCrc "table"
    "instrument table" = .ok raw ∧ m.table = (readMany TableEntry.read (raw.length / TableEntry.size) raw).1
  tableAligned : m.header.tableBytes.toNat % TableEntry.size = 0
  strings : readRegion path file m.header.stringsOffset m.header.stringsBytes.toUInt64 m.header.stringsCrc "strings"
    "string table" = .ok m.strings
  directory : ∃ raw, readRegion path file m.header.directoryOffset m.header.directoryBytes.toUInt64
    m.header.directoryCrc "directory" "directory" = .ok raw ∧
    m.directory = (readMany DirEntry.read (raw.length / DirEntry.size) raw).1 ∧
    raw.length / DirEntry.size = m.header.instrumentCount.toInt.toNat
  directoryAligned : m.header.directoryBytes.toNat % DirEntry.size = 0
  timeline : ∃ raw, readRegion path file m.header.timelineOffset (m.header.timelineCount.toUInt64 * 8)
    m.header.timelineCrc "timeline" "timeline" = .ok raw ∧
    m.timeline = ((readMany get64 m.header.timelineCount.toNat raw).1).map (·.toInt64)
  ascending : ascending m.timeline = true

theorem readMetadata_eq_ok {path : String} {file : Bytes} {m : Metadata} :
    readMetadata path file = .ok m ↔ Accepted path file m := by
  unfold readMetadata
  dsimp only
  constructor
  · intro hread
    obtain ⟨h, hheader, hread⟩ := Run.bind_eq_ok.mp hread
    obtain ⟨table, htable, hread⟩ := Run.bind_eq_ok.mp hread
    obtain ⟨_, htable', hread⟩ := Run.bind_eq_ok.mp hread
    obtain ⟨strings, hstrings, hread⟩ := Run.bind_eq_ok.mp hread
    obtain ⟨dir, hdir, hread⟩ := Run.bind_eq_ok.mp hread
    obtain ⟨_, hdir', hread⟩ := Run.bind_eq_ok.mp hread
    obtain ⟨timeline, htimeline, hread⟩ := Run.bind_eq_ok.mp hread
    obtain ⟨_, hcount, hread⟩ := Run.bind_eq_ok.mp hread
    obtain ⟨_, hasc, hread⟩ := Run.bind_eq_ok.mp hread
    cases hread
    exact ⟨readHeader_eq_ok.mp hheader, ⟨table, htable, rfl⟩, not_not.mp (failIf_eq_ok.mp htable'), hstrings,
      ⟨dir, hdir, rfl, not_not.mp (failIf_eq_ok.mp hcount)⟩, not_not.mp (failIf_eq_ok.mp hdir'),
      ⟨timeline, htimeline, rfl⟩, by simpa using failIf_eq_ok.mp hasc⟩
  · intro h
    obtain ⟨hheader, ⟨table, htable, htable''⟩, htable', hstrings, ⟨dir, hdir, hdir'', hcount⟩, hdir',
      ⟨timeline, htimeline, htimeline''⟩, hasc⟩ := h
    obtain ⟨h, mtable, strings, directory, mtimeline⟩ := m
    dsimp only at htable'' hdir'' htimeline''
    subst htable'' hdir'' htimeline''
    exact Run.bind_eq_ok.mpr ⟨h, readHeader_eq_ok.mpr hheader, Run.bind_eq_ok.mpr ⟨table, htable,
      Run.bind_eq_ok.mpr ⟨(), failIf_of_not (not_not.mpr htable'), Run.bind_eq_ok.mpr ⟨strings, hstrings,
      Run.bind_eq_ok.mpr ⟨dir, hdir, Run.bind_eq_ok.mpr ⟨(), failIf_of_not (not_not.mpr hdir'),
      Run.bind_eq_ok.mpr ⟨timeline, htimeline, Run.bind_eq_ok.mpr ⟨(), failIf_of_not (not_not.mpr hcount),
      Run.bind_eq_ok.mpr ⟨(), failIf_of_not (by simpa using hasc), rfl⟩⟩⟩⟩⟩⟩⟩⟩⟩

/-! ## Directory entries -/

/-- What is checked of a directory entry, for the table entry it refers to. -/
structure EntryChecked (m : Metadata) (e : DirEntry) (t : TableEntry) : Prop where
  index : ¬ e.tableIndex < 0
  table : m.table[e.tableIndex.toInt.toNat]? = some t
  blobStart : ¬ e.blobOffset < Int64.ofNat FileHeader.size
  blobEnd : ¬ m.header.tableOffset < e.blobOffset + e.blobBytes.toUInt64.toInt64
  times : ¬ e.lastTs < e.firstTs
  name : ¬ m.strings.length < t.underlyingOffset.toNat + t.underlyingLength.toNat

theorem checkEntry_eq_ok {path : String} {m : Metadata} {e : DirEntry} {t : TableEntry} :
    checkEntry path m e = .ok t ↔ EntryChecked m e t := by
  unfold checkEntry
  constructor
  · intro h
    by_cases hindex : e.tableIndex < 0
    · rw [if_pos hindex] at h
      cases h
    · rw [if_neg hindex] at h
      cases htable : m.table[e.tableIndex.toInt.toNat]? with
      | none =>
          rw [htable] at h
          cases h
      | some t' =>
          rw [htable] at h
          dsimp only at h
          split_ifs at h with hblob htimes hname
          cases h
          exact ⟨hindex, htable, fun hstart => hblob (.inl hstart), fun hend => hblob (.inr hend), htimes, hname⟩
  · rintro ⟨hindex, htable, hstart, hend, htimes, hname⟩
    rw [if_neg hindex, htable]
    dsimp only
    rw [if_neg (not_or.mpr ⟨hstart, hend⟩), if_neg htimes, if_neg hname]

/-! ## Registration -/

/-- Registering table entries one after the other: their ids, and the registry after the last one. -/
def registerMany (m : Metadata) : List TableEntry → InstrumentRegistry → List InstrumentId × InstrumentRegistry
  | [], r => ([], r)
  | t :: ts, r =>
      ((registerEntry m t r).2 :: (registerMany m ts (registerEntry m t r).1).1,
        (registerMany m ts (registerEntry m t r).1).2)

theorem length_registerMany (m : Metadata) (ts : List TableEntry) (r : InstrumentRegistry) :
    (registerMany m ts r).1.length = ts.length := by
  induction ts generalizing r with
  | nil => rfl
  | cons t ts ih => simp [registerMany, ih]

/-- The session with contracts and entries added. -/
def extend (s : VfdaySession) (ids : List InstrumentId) (es : List DirEntry) : VfdaySession :=
  { s with instruments := s.instruments ++ ids, entries := s.entries ++ ids.zip (es.map entryOf) }

theorem entries_extend {s : VfdaySession} {ids : List InstrumentId} {es : List DirEntry}
    (hlen : ids.length = es.length) :
    (s.extend ids es).entries.map (·.2) = s.entries.map (·.2) ++ es.map entryOf := by
  rw [extend, List.map_append, List.map_snd_zip (by rw [List.length_map, hlen])]

theorem keys_extend {s : VfdaySession} {ids : List InstrumentId} {es : List DirEntry} (hlen : ids.length = es.length) :
    (s.extend ids es).entries.map (·.1) = s.entries.map (·.1) ++ ids := by
  rw [extend, List.map_append, List.map_fst_zip (by rw [List.length_map, hlen])]

/-- The rows of directory entries, added up as the loop does. -/
def rowsOf (es : List DirEntry) (rows : UInt64) : UInt64 := es.foldl (fun rows e => rows + e.rowCount.toUInt64) rows

theorem lookup_isSome_iff {β : Type} (l : List (InstrumentId × β)) (id : InstrumentId) :
    (l.lookup id).isSome = true ↔ id ∈ l.map (·.1) := by
  rw [List.lookup_isSome_iff, List.mem_map]
  exact exists_congr (fun p => and_congr_right (fun _ => beq_iff_eq.trans eq_comm))

/-- The loop succeeds when every entry passes its checks and no contract comes twice. -/
theorem registerAll_eq_ok {path : String} {m : Metadata} {es : List DirEntry} {s s' : VfdaySession}
    {rows rows' : UInt64} {r r' : InstrumentRegistry} (hnodup : (s.entries.map (·.1)).Nodup) :
    registerAll path m es s rows r = (.ok (s', rows'), r') ↔
      ∃ ts, List.Forall₂ (fun e t => checkEntry path m e = .ok t) es ts ∧
        (s.entries.map (·.1) ++ (registerMany m ts r).1).Nodup ∧ s' = s.extend (registerMany m ts r).1 es ∧
        rows' = rowsOf es rows ∧ r' = (registerMany m ts r).2 := by
  induction es generalizing s rows r with
  | nil =>
      unfold registerAll
      constructor
      · intro h
        cases h
        exact ⟨[], .nil, by simpa [registerMany] using hnodup, by simp [extend, registerMany], rfl, rfl⟩
      · rintro ⟨ts, hts, _, rfl, rfl, rfl⟩
        cases hts
        simp [extend, registerMany]
  | cons e es ih =>
      unfold registerAll
      cases hcheck : checkEntry path m e with
      | error x =>
          simp only [Prod.mk.injEq, reduceCtorEq, false_and, false_iff]
          rintro ⟨ts, hts, _⟩
          cases hts with
          | cons ht _ =>
              rw [hcheck] at ht
              cases ht
      | ok t =>
          dsimp only
          generalize hreg : registerEntry m t r = registered
          obtain ⟨r₁, id⟩ := registered
          dsimp only
          -- adding the contract to the session
          have hkeys : ∀ rest : List InstrumentId, (((s.entries ++ [(id, entryOf e)]).map (·.1)) ++ rest).Nodup ↔
              (s.entries.map (·.1) ++ id :: rest).Nodup := by
            intro rest
            rw [List.map_append, List.append_assoc]
            rfl
          have hmany : ∀ ts, registerMany m (t :: ts) r = (id :: (registerMany m ts r₁).1, (registerMany m ts r₁).2) := by
            intro ts
            rw [registerMany, hreg]
          have hextend : ∀ ids : List InstrumentId, (({ s with
              instruments := s.instruments ++ [id], entries := s.entries ++ [(id, entryOf e)] } : VfdaySession).extend
                ids es) = s.extend (id :: ids) (e :: es) := by
            intro ids
            simp [extend]
          by_cases hseen : id ∈ s.entries.map (·.1)
          · rw [if_pos ((lookup_isSome_iff s.entries id).mpr hseen)]
            simp only [Prod.mk.injEq, reduceCtorEq, false_and, false_iff]
            rintro ⟨ts, hts, hnd, _⟩
            cases hts with
            | @cons _ t' _ ts' ht hts =>
                rw [hcheck] at ht
                cases ht
                rw [hmany] at hnd
                exact (List.nodup_append.mp hnd).2.2 id hseen id (List.mem_cons_self ..) rfl
          · rw [if_neg (fun h => hseen ((lookup_isSome_iff s.entries id).mp h))]
            have hnodup' : ((s.entries ++ [(id, entryOf e)]).map (·.1)).Nodup := by
              rw [List.map_append]
              exact List.nodup_append.mpr ⟨hnodup, List.nodup_singleton _, fun a ha b hb hab => by
                rw [List.map_singleton, List.mem_singleton] at hb
                rw [hab, hb] at ha
                exact hseen ha⟩
            rw [ih hnodup']
            constructor
            · rintro ⟨ts, hts, hnd, hs, hrows, hr⟩
              rw [hkeys] at hnd
              rw [hextend] at hs
              refine ⟨t :: ts, .cons hcheck hts, ?_, ?_, hrows, ?_⟩
              · rw [hmany]
                exact hnd
              · rw [hmany]
                exact hs
              · rw [hmany]
                exact hr
            · rintro ⟨ts, hts, hnd, hs, hrows, hr⟩
              cases hts with
              | @cons _ t' _ ts' ht hts =>
                  rw [hcheck] at ht
                  cases ht
                  rw [hmany] at hnd hs hr
                  refine ⟨ts', hts, ?_, ?_, hrows, hr⟩
                  · rw [hkeys]
                    exact hnd
                  · rw [hextend]
                    exact hs

/-- The session before the directory is walked. -/
def startSession (path : String) (file : Bytes) (m : Metadata) : VfdaySession :=
  { path, file, date := ⟨m.header.date⟩, totalRows := m.header.totalRows.toUInt64, timeline := m.timeline.map (·.toInt) }

/-- **A file opens** when its metadata is accepted, its entries pass their checks, no contract comes twice, and
    the rows add up. -/
theorem openFile_eq_ok {path : String} {file : Bytes} {r r' : InstrumentRegistry} {s : VfdaySession} :
    openFile path file r = (.ok s, r') ↔
      ∃ m ts, Accepted path file m ∧ List.Forall₂ (fun e t => checkEntry path m e = .ok t) m.directory ts ∧
        (registerMany m ts r).1.Nodup ∧ s = (startSession path file m).extend (registerMany m ts r).1 m.directory ∧
        rowsOf m.directory 0 = m.header.totalRows.toUInt64 ∧ r' = (registerMany m ts r).2 := by
  unfold openFile
  cases hread : readMetadata path file with
  | error x =>
      simp only [Prod.mk.injEq, reduceCtorEq, false_and, false_iff]
      rintro ⟨m, ts, hm, _⟩
      rw [readMetadata_eq_ok.mpr hm] at hread
      cases hread
  | ok m =>
      -- the metadata that is accepted is the one that was read
      have hunique : ∀ m', Accepted path file m' → m' = m := by
        intro m' hm'
        rw [readMetadata_eq_ok.mpr hm', Except.ok.injEq] at hread
        exact hread
      have hstart : ((startSession path file m).entries.map (·.1)).Nodup := List.nodup_nil
      dsimp only
      generalize hall : registerAll path m m.directory _ 0 r = result
      obtain ⟨result, r₁⟩ := result
      change registerAll path m m.directory (startSession path file m) 0 r = (result, r₁) at hall
      constructor
      · intro h
        cases result with
        | error x => cases h
        | ok x =>
            obtain ⟨s₁, rows⟩ := x
            dsimp only at h
            split_ifs at h with hrows
            · cases h
            · simp only [Prod.mk.injEq, Except.ok.injEq] at h
              obtain ⟨rfl, rfl⟩ := h
              obtain ⟨ts, hts, hnd, hs, hrows', hr⟩ := (registerAll_eq_ok hstart).mp hall
              exact ⟨m, ts, readMetadata_eq_ok.mp hread, hts, hnd, hs, by rw [← hrows']; exact not_not.mp hrows, hr⟩
      · rintro ⟨m', ts, hm', hts, hnd, rfl, hrows, rfl⟩
        obtain rfl := hunique m' hm'
        have hok : registerAll path m' m'.directory (startSession path file m') 0 r =
            (.ok (_, rowsOf m'.directory 0), _) := (registerAll_eq_ok hstart).mpr ⟨ts, hts, hnd, rfl, rfl, rfl⟩
        rw [hall] at hok
        cases hok
        dsimp only
        rw [if_neg (not_not.mpr hrows)]

end VfdaySession

end Volforge
