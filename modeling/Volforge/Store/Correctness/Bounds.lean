import Volforge.Lib.Indexed
import Volforge.Store.Correctness.RoundTrip

/-!
# `Store.Correctness.Bounds` — where the regions of an accepted file lie

`openFile` bounds a region by a sum of 64-bit values. For the four regions of the metadata a sum that wraps does
no harm: reading past the end comes up short. Nothing is read at a blob while the file is opened, so there the
wrapped sum is all that is looked at. `regions_inside_iff_no_wrap` says when it is the right one.
-/

namespace Volforge

open VfdaySession

/-- A region lies in the file, over unbounded integers. -/
def Inside (file : Bytes) (offset : Int64) (bytes : Nat) : Prop :=
  0 ≤ offset.toInt ∧ offset.toInt + bytes ≤ file.length

/-- Every region of a file lies where a reader may follow it: the metadata in the file, the blobs in the payload. -/
structure RegionsInside (file : Bytes) (m : Metadata) : Prop where
  table : Inside file m.header.tableOffset m.header.tableBytes.toNat
  strings : Inside file m.header.stringsOffset m.header.stringsBytes.toNat
  timeline : Inside file m.header.timelineOffset (m.header.timelineCount.toNat * 8)
  directory : Inside file m.header.directoryOffset m.header.directoryBytes.toNat
  blobs : ∀ e ∈ m.directory, (FileHeader.size : Int) ≤ e.blobOffset.toInt ∧
    e.blobOffset.toInt + e.blobBytes.toNat ≤ m.header.tableOffset.toInt

/-! ## Regions -/

theorem toInt_ofNat_le (n : Nat) : (Int64.ofNat n).toInt ≤ n := by
  rcases Nat.lt_or_ge n (2 ^ 63) with hlt | hge
  · rw [Int64.toInt_ofNat_of_lt hlt]
  · have hlast := (Int64.ofNat n).toInt_lt
    omega

/-- A region that could be read lies in the file, whether or not its bounds wrapped. -/
theorem inside_of_readExact {path what : String} {file buffer : Bytes} {offset : Int64} {bytes : UInt64}
    (h : readExact path file offset bytes (Int64.ofNat file.length) what = .ok buffer) :
    Inside file offset bytes.toNat := by
  obtain ⟨hneg, _, hend, hread⟩ := readExact_eq_ok.mp h
  have hoffset : 0 ≤ offset.toInt := by
    rw [Int64.lt_iff_toInt_lt, Int64.toInt_zero] at hneg
    omega
  refine ⟨hoffset, ?_⟩
  rcases Nat.eq_zero_or_pos bytes.toNat with hzero | hpos
  · -- an empty region is bounded by its offset alone
    have hbytes : bytes = 0 := UInt64.toNat_inj.mp hzero
    have hle := toInt_ofNat_le file.length
    rw [hbytes, show (0 : UInt64).toInt64 = 0 from rfl, Int64.add_zero, Int64.lt_iff_toInt_lt] at hend
    omega
  · have hlen := (readAt_eq_some hread).2.2 hpos
    omega

theorem inside_of_readRegion {path what name : String} {file raw : Bytes} {offset : Int64} {bytes : UInt64}
    {crc : UInt32} (h : readRegion path file offset bytes crc what name = .ok raw) : Inside file offset bytes.toNat :=
  inside_of_readExact (readRegion_eq_ok.mp h).1

/-! ## Blobs -/

/-- The bounds that are checked of a blob. -/
theorem VfdaySession.EntryChecked.blob {m : Metadata} {e : DirEntry} {t : TableEntry} (h : EntryChecked m e t) :
    (FileHeader.size : Int) ≤ e.blobOffset.toInt ∧
      (e.blobOffset + e.blobBytes.toUInt64.toInt64).toInt ≤ m.header.tableOffset.toInt := by
  have hstart := h.blobStart
  have hend := h.blobEnd
  rw [Int64.lt_iff_toInt_lt, Int64.toInt_ofNat_of_lt (show FileHeader.size < 2 ^ 63 by decide)] at hstart
  rw [Int64.lt_iff_toInt_lt] at hend
  exact ⟨not_lt.mp hstart, not_lt.mp hend⟩

/-- A blob lies in the payload unless its end is past the largest offset. -/
theorem blob_inside_iff {offset limit : Int64} {bytes : UInt32} (hoffset : 0 ≤ offset.toInt)
    (hend : (offset + bytes.toUInt64.toInt64).toInt ≤ limit.toInt) :
    offset.toInt + bytes.toNat ≤ limit.toInt ↔ offset.toInt + bytes.toNat < 2 ^ 63 := by
  have hlimit := limit.toInt_lt
  constructor
  · intro h
    omega
  · intro h
    obtain ⟨start, hstart⟩ := Int.eq_ofNat_of_zero_le hoffset
    rw [toInt_add_toInt64 hstart rfl (by omega)] at hend
    omega

/-- **The regions of an accepted file lie inside it** exactly when no blob ends past the largest 64-bit offset. -/
theorem regions_inside_iff_no_wrap {path : String} {file : Bytes} {r r' : InstrumentRegistry} {s : VfdaySession}
    (h : openFile path file r = (.ok s, r')) :
    ∃ m, readMetadata path file = .ok m ∧ s.entries.map (·.2) = m.directory.map entryOf ∧
      (RegionsInside file m ↔ ∀ e ∈ m.directory, e.blobOffset.toInt + e.blobBytes.toNat < 2 ^ 63) := by
  obtain ⟨m, ts, hm, hts, hnodup, rfl, hrows, rfl⟩ := openFile_eq_ok.mp h
  refine ⟨m, readMetadata_eq_ok.mpr hm, ?_, ?_⟩
  · exact entries_extend ((length_registerMany m ts r).trans hts.length_eq.symm)
  · constructor
    · intro hinside e he
      have hend := (hinside.blobs e he).2
      have hlimit := m.header.tableOffset.toInt_lt
      omega
    · intro hwrap
      obtain ⟨table, htable, _⟩ := hm.table
      obtain ⟨directory, hdirectory, _⟩ := hm.directory
      obtain ⟨timeline, htimeline, _⟩ := hm.timeline
      refine ⟨inside_of_readRegion htable, inside_of_readRegion hm.strings, ?_, inside_of_readRegion hdirectory, ?_⟩
      · rw [← toNat_timelineSize]
        exact inside_of_readRegion htimeline
      · intro e he
        obtain ⟨t, _, ht⟩ := IdTable.exists_of_mem_left hts he
        have hblob := (checkEntry_eq_ok.mp ht).blob
        exact ⟨hblob.1, (blob_inside_iff (le_trans (by decide) hblob.1) hblob.2).mpr (hwrap e he)⟩

/-! ## An end past the largest offset -/

/-- A session nothing is written of. -/
def silentSession : SessionData where
  date := ⟨20250701⟩
  registry := {}
  instruments := []
  quotes _ := {}
  totalObservations := 0
  eventOrder := []
  timeline := []
  printedBy _ _ := false

/-- Buffers with one contract, whose blob is said to lie at `offset`. -/
def blobAt (offset : Int64) (bytes : UInt32) : Writer where
  table := [{ underlyingOffset := 0, underlyingLength := 0, kind := 0, right := 0, expiry := 0, strikeMinor := 0,
              lotSize := 1, tickMinor := 5 }]
  directory := [{ tableIndex := 0, rowCount := 0, blobOffset := offset, blobBytes := bytes, blobCrc := 0,
                  firstTs := 0, lastTs := 0 }]

theorem blobAt_fits (offset : Int64) (bytes : UInt32) : (blobAt offset bytes).Fits [] where
  table := show 1 * 28 < 2 ^ 32 by decide
  strings := show 0 < 2 ^ 32 by decide
  timeline := show 0 < 2 ^ 32 by decide
  directory := show 1 * 40 < 2 ^ 32 by decide
  blob := show 0 < 2 ^ 62 by decide

theorem blobAt_described (offset : Int64) (bytes : UInt32) (session : SessionData) :
    ((blobAt offset bytes).image session []).Described := (blobAt_fits offset bytes).described rfl

/-- The entry passes its checks when the sum, as computed, is not past the payload. -/
theorem blobAt_checked {offset : Int64} {bytes : UInt32} (hstart : ¬ offset < 112)
    (hend : ¬ 112 < offset + bytes.toUInt64.toInt64) (session : SessionData) : ∃ t,
    checkEntry "day.vfday" ((blobAt offset bytes).image session []).metadata
      { tableIndex := 0, rowCount := 0, blobOffset := offset, blobBytes := bytes, blobCrc := 0,
        firstTs := 0, lastTs := 0 } = .ok t :=
  ⟨_, checkEntry_eq_ok.mpr ⟨show ¬ (0 : Int32) < 0 by decide, rfl, hstart, hend, show ¬ (0 : Int64) < 0 by decide,
    show ¬ 0 < 0 + 0 by decide⟩⟩

theorem blobAt_opens {offset : Int64} {bytes : UInt32} (hstart : ¬ offset < 112)
    (hend : ¬ 112 < offset + bytes.toUInt64.toInt64) :
    ∃ s r', openFile "day.vfday" ((blobAt offset bytes).image silentSession []).bytes {} = (.ok s, r') := by
  obtain ⟨t, hcheck⟩ := blobAt_checked hstart hend silentSession
  exact ⟨_, _, (blobAt_described offset bytes silentSession).openFile_eq_ok.mpr
    ⟨_, .cons hcheck .nil, List.nodup_singleton _, rfl, rfl, rfl⟩⟩

/-- A file of two instruments with three rows each, as it is written. -/
theorem regions_inside_iff_no_wrap_turns : ∃ file s r' m,
    writeVfday (turns 2 3) = .ok file ∧ openFile "day.vfday" file {} = (.ok s, r') ∧
      readMetadata "day.vfday" file = .ok m ∧ m.directory.length = 2 ∧ (∀ e ∈ m.directory, e.rowCount = 3) ∧
      RegionsInside file m := by
  obtain ⟨w, items, hw⟩ := SessionData.exists_written (turns_contract (n := 2) (m := 3) (by decide) (by decide))
    (turns_registered (by decide)) (turns_fitsFormat (by decide) (by decide) (by decide)) (by decide +kernel)
  have hopen := hw.opens "day.vfday" InstrumentRegistry.sound_empty
  obtain ⟨m, hm, _, hiff⟩ := regions_inside_iff_no_wrap hopen
  have hprinting : (turns 2 3).printing = [0, 1] := by decide
  have hitems : items.length = 2 := by
    rw [← hw.taken.length_eq, hprinting]
    rfl
  have hmetadata : m = (w.image (turns 2 3) (timelineOf (turns 2 3))).metadata := by
    rw [hw.described.readMetadata_bytes, Except.ok.injEq] at hm
    exact hm.symm
  have hdirectory : m.directory = w.directory := by
    rw [hmetadata]
    rfl
  refine ⟨_, _, _, m, hw.file, hopen, hm, ?_, fun e he => ?_, hiff.mpr fun e he => ?_⟩
  · rw [hdirectory, hw.holds.directory, Item.length_directoryFrom, hitems]
  · rw [hdirectory] at he
    obtain ⟨n, i, hi, rfl⟩ := hw.holds.mem_directory he
    obtain ⟨id, hid, hof⟩ := IdTable.exists_of_mem_right hw.taken (List.mem_of_getElem? hi)
    have hsizes : ∀ id ∈ (turns 2 3).printing, ((turns 2 3).quotes id).size = 3 := by decide
    rw [Item.dirEntry, hof.columns, hsizes id hid]
    rfl
  · rw [hdirectory] at he
    exact hw.holds.blob_end hw.fits hw.itemFits he

/-- A file is accepted whose blob begins at the largest offset: its end wraps to a negative number. -/
theorem wrapped_blob_is_accepted : ∃ s r' m,
    openFile "day.vfday" ((blobAt Int64.maxValue 1).image silentSession []).bytes {} = (.ok s, r') ∧
      readMetadata "day.vfday" ((blobAt Int64.maxValue 1).image silentSession []).bytes = .ok m ∧
      ¬ RegionsInside ((blobAt Int64.maxValue 1).image silentSession []).bytes m := by
  obtain ⟨s, r', hopen⟩ := blobAt_opens (show ¬ Int64.maxValue < 112 by decide)
    (show ¬ 112 < Int64.maxValue + (1 : UInt32).toUInt64.toInt64 by decide)
  refine ⟨s, r', _, hopen, (blobAt_described Int64.maxValue 1 silentSession).readMetadata_bytes, ?_⟩
  intro hinside
  exact absurd (hinside.blobs _ (List.mem_singleton.mpr rfl)).2 (by decide)

end Volforge
