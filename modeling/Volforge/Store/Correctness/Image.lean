import Volforge.Store.Correctness.Opened

/-!
# `Store.Correctness.Image` — files laid out as the writer lays them out

An `Image` is the content of a file: a header, the payload and the four regions of the metadata, in the order
of the format. `Described` says that the header states where the regions begin, how long they are and what
their checksums are. The metadata of a described image reads back: `Image.Described.readMetadata_bytes`.

`Writer.image` is the image of the buffers `writeVfday` fills; it is described when the buffers fit the fields
of the header.
-/

namespace Volforge

/-! ## Widths -/

theorem toInt_toInt64_of_lt {x : UInt64} (hx : x.toNat < 2 ^ 63) : x.toInt64.toInt = x.toNat := by
  have hval : x.toInt64 = Int64.ofNat x.toNat := by rw [← UInt64.toInt64_ofNat', UInt64.ofNat_toNat]
  rw [hval, Int64.toInt_ofNat_of_lt hx]

theorem toNat_toUInt64_of_nonneg {x : Int64} (hx : 0 ≤ x.toInt) : (x.toUInt64.toNat : Int) = x.toInt := by
  have hcast : x.toUInt64.toNat = x.toInt.toNat := Int64.toNat_toUInt64_of_le (Int64.le_iff_toInt_le.mpr hx)
  omega

/-- An offset plus a length, as long as the sum fits. -/
theorem toInt_add_toInt64 {offset : Int64} {start n : Nat} {bytes : UInt32} (hoffset : offset.toInt = start)
    (hn : bytes.toNat = n) (hfits : start + n < 2 ^ 63) : (offset + bytes.toUInt64.toInt64).toInt = (start + n : Nat) := by
  have hbytes : bytes.toUInt64.toInt64.toInt = n := by
    rw [toInt_toInt64_of_lt (by rw [UInt32.toNat_toUInt64]; omega), UInt32.toNat_toUInt64, hn]
  rw [Int64.toInt_add, hoffset, hbytes, Int.bmod_eq_of_le (by omega) (by omega), Nat.cast_add]

/-- The size of a timeline does not wrap. -/
theorem toNat_timelineSize (count : UInt32) : (count.toUInt64 * 8).toNat = count.toNat * 8 := by
  have hlt := count.toNat_lt
  rw [UInt64.toNat_mul, UInt32.toNat_toUInt64, show (8 : UInt64).toNat = 8 from rfl, Nat.mod_eq_of_lt (by omega)]

/-! ## Images -/

/-- What a file holds. -/
structure Image where
  header : FileHeader
  payload : Bytes
  table : List TableEntry
  strings : Bytes
  timeline : List Int64
  directory : List DirEntry

namespace Image

def bytes (x : Image) : Bytes :=
  x.header.bytes ++ (x.payload ++ (x.table.flatMap TableEntry.bytes ++ (x.strings ++
    (x.timeline.flatMap (fun t => put64 t.toUInt64) ++ x.directory.flatMap DirEntry.bytes))))

def tableStart (x : Image) : Nat := FileHeader.size + x.payload.length
def stringsStart (x : Image) : Nat := x.tableStart + x.table.length * TableEntry.size
def timelineStart (x : Image) : Nat := x.stringsStart + x.strings.length
def directoryStart (x : Image) : Nat := x.timelineStart + x.timeline.length * 8
def size (x : Image) : Nat := x.directoryStart + x.directory.length * DirEntry.size

/-- The header describes the regions, and the timeline is ascending. -/
structure Described (x : Image) : Prop where
  magic : x.header.magic = kMagic
  version : x.header.version = kVfdayVersion
  count : x.header.instrumentCount.toInt = x.directory.length
  tableOffset : x.header.tableOffset.toInt = x.tableStart
  tableBytes : x.header.tableBytes.toNat = x.table.length * TableEntry.size
  tableCrc : x.header.tableCrc = crc32 (x.table.flatMap TableEntry.bytes)
  stringsOffset : x.header.stringsOffset.toInt = x.stringsStart
  stringsBytes : x.header.stringsBytes.toNat = x.strings.length
  stringsCrc : x.header.stringsCrc = crc32 x.strings
  timelineOffset : x.header.timelineOffset.toInt = x.timelineStart
  timelineCount : x.header.timelineCount.toNat = x.timeline.length
  timelineCrc : x.header.timelineCrc = crc32 (x.timeline.flatMap (fun t => put64 t.toUInt64))
  directoryOffset : x.header.directoryOffset.toInt = x.directoryStart
  directoryBytes : x.header.directoryBytes.toNat = x.directory.length * DirEntry.size
  directoryCrc : x.header.directoryCrc = crc32 (x.directory.flatMap DirEntry.bytes)
  fileBytes : x.header.fileBytes.toInt = x.size
  headerCrc : x.header.headerCrc = crc32 x.header.checkedBytes
  ascending : ascending x.timeline = true

/-- What is read of a described image. -/
def metadata (x : Image) : Metadata where
  header := x.header
  table := x.table
  strings := x.strings
  directory := x.directory
  timeline := x.timeline

variable {x : Image}

theorem length_timelineRegion (ts : List Int64) : (ts.flatMap (fun t => put64 t.toUInt64)).length = ts.length * 8 := by
  have hput : ∀ t : Int64, ((fun t : Int64 => put64 t.toUInt64) t).length = 8 := fun t => length_put64 t.toUInt64
  exact length_flatMap_bytes hput ts

theorem length_bytes (hmagic : x.header.magic = kMagic) : x.bytes.length = x.size := by
  have hlen : x.header.magic.length = 8 := by rw [hmagic]; rfl
  unfold bytes
  simp only [List.length_append, FileHeader.length_bytes hlen, length_flatMap_bytes TableEntry.length_bytes,
    length_flatMap_bytes DirEntry.length_bytes, length_timelineRegion]
  unfold size directoryStart timelineStart stringsStart tableStart
  omega

end Image

namespace VfdaySession

/-- A region that is where the header says, with its checksum. -/
theorem readRegion_append {path what name : String} {file : Bytes} (before region after : Bytes) {offset : Int64}
    {bytes : UInt64} (hfile : file = before ++ (region ++ after)) (hsize : file.length < 2 ^ 63)
    (hoffset : offset.toInt = before.length) (hbytes : bytes.toNat = region.length) :
    readRegion path file offset bytes (crc32 region) what name = .ok region := by
  have hlen : file.length = before.length + (region.length + after.length) := by
    rw [hfile, List.length_append, List.length_append]
  have hfileSize : (Int64.ofNat file.length).toInt = file.length := Int64.toInt_ofNat_of_lt hsize
  have hbytes' : bytes.toInt64.toInt = region.length := by
    rw [toInt_toInt64_of_lt (by omega), hbytes]
  have hsum : (offset + bytes.toInt64).toInt = before.length + region.length := by
    rw [Int64.toInt_add, hoffset, hbytes', Int.bmod_eq_of_le (by omega) (by omega)]
  rw [readRegion_eq_ok]
  refine ⟨readExact_eq_ok.mpr ⟨?_, ?_, ?_, ?_⟩, rfl⟩
  · rw [Int64.lt_iff_toInt_lt, hoffset, Int64.toInt_zero]
    omega
  · have hunsigned := toNat_toUInt64_of_nonneg (x := Int64.ofNat file.length) (by omega)
    rw [UInt64.lt_iff_toNat_lt]
    omega
  · rw [Int64.lt_iff_toInt_lt, hsum, hfileSize]
    omega
  · rw [hfile, readAt_append hoffset (by omega), hbytes, List.take_length]

end VfdaySession

namespace Image.Described

variable {x : Image} {path : String}

theorem length_magic (h : x.Described) : x.header.magic.length = 8 := by
  rw [h.magic]
  rfl

theorem length_bytes (h : x.Described) : x.bytes.length = x.size := Image.length_bytes h.magic

theorem size_lt (h : x.Described) : x.size < 2 ^ 63 := by
  have hlt := x.header.fileBytes.toInt_lt
  have heq := h.fileBytes
  omega

theorem headerChecked (h : x.Described) : VfdaySession.HeaderChecked x.bytes x.header := by
  have hsize : (Int64.ofNat x.bytes.length).toInt = x.size := by
    rw [h.length_bytes, Int64.toInt_ofNat_of_lt h.size_lt]
  refine ⟨?_, ?_, h.magic, h.version, ?_, ?_, ?_⟩
  · rw [Image.bytes, FileHeader.read_bytes h.length_magic]
  · rw [Int64.lt_iff_toInt_lt, hsize, Int64.toInt_ofNat_of_lt (by decide)]
    unfold Image.size Image.directoryStart Image.timelineStart Image.stringsStart Image.tableStart
    omega
  · have hchecked := FileHeader.length_checkedBytes h.length_magic
    rw [Image.bytes, FileHeader.bytes, List.append_assoc, List.take_left' hchecked, h.headerCrc]
  · exact Int64.toInt_inj.mp (by rw [h.fileBytes, hsize])
  · rw [Int32.lt_iff_toInt_lt, h.count, Int32.toInt_zero]
    omega

/-- **A described image is accepted**, with its own metadata. -/
theorem accepted (h : x.Described) : VfdaySession.Accepted path x.bytes x.metadata := by
  have hsize : x.bytes.length < 2 ^ 63 := h.length_bytes ▸ h.size_lt
  have hheader : x.header.bytes.length = FileHeader.size := FileHeader.length_bytes h.length_magic
  have htable : (x.table.flatMap TableEntry.bytes).length = x.table.length * TableEntry.size :=
    length_flatMap_bytes TableEntry.length_bytes x.table
  have hdirectory : (x.directory.flatMap DirEntry.bytes).length = x.directory.length * DirEntry.size :=
    length_flatMap_bytes DirEntry.length_bytes x.directory
  have htimeline := Image.length_timelineRegion x.timeline
  -- the file, cut open at each region
  let afterTimeline := x.directory.flatMap DirEntry.bytes
  let timeline := x.timeline.flatMap (fun t => put64 t.toUInt64)
  let afterStrings := timeline ++ afterTimeline
  let afterTable := x.strings ++ afterStrings
  let table := x.table.flatMap TableEntry.bytes
  refine ⟨h.headerChecked, ⟨table, ?_, ?_⟩, ?_, ?_, ⟨afterTimeline, ?_, ?_, ?_⟩, ?_,
    ⟨timeline, ?_, ?_⟩, h.ascending⟩
  · rw [Image.metadata, h.tableCrc]
    refine VfdaySession.readRegion_append (x.header.bytes ++ x.payload) table afterTable ?_ hsize ?_ ?_
    · simp only [Image.bytes, List.append_assoc, table, afterTable, afterStrings, timeline, afterTimeline]
    · rw [h.tableOffset, List.length_append, hheader, Image.tableStart]
    · rw [UInt32.toNat_toUInt64, h.tableBytes, htable]
  · rw [htable, Nat.mul_div_cancel _ (by decide), ← List.append_nil table,
      readMany_flatMap TableEntry.read_bytes x.table []]
    rfl
  · rw [Image.metadata, h.tableBytes, Nat.mul_mod_left]
  · rw [Image.metadata, h.stringsCrc]
    refine VfdaySession.readRegion_append (x.header.bytes ++ (x.payload ++ table)) x.strings afterStrings ?_ hsize ?_ ?_
    · simp only [Image.bytes, List.append_assoc, table, afterStrings, timeline, afterTimeline]
    · rw [h.stringsOffset, List.length_append, List.length_append, hheader, htable, Image.stringsStart, Image.tableStart,
        Nat.add_assoc]
    · rw [UInt32.toNat_toUInt64, h.stringsBytes]
  · rw [Image.metadata, h.directoryCrc]
    refine VfdaySession.readRegion_append (x.header.bytes ++ (x.payload ++ (table ++ (x.strings ++ timeline)))) afterTimeline []
      ?_ hsize ?_ ?_
    · simp only [Image.bytes, List.append_assoc, table, timeline, afterTimeline, List.append_nil]
    · simp only [h.directoryOffset, List.length_append, hheader, htable, htimeline, table, timeline, Image.directoryStart,
        Image.timelineStart, Image.stringsStart, Image.tableStart, Nat.add_assoc]
    · rw [UInt32.toNat_toUInt64, h.directoryBytes, hdirectory]
  · rw [hdirectory, Nat.mul_div_cancel _ (by decide), ← List.append_nil afterTimeline,
      readMany_flatMap DirEntry.read_bytes x.directory []]
    rfl
  · rw [hdirectory, Nat.mul_div_cancel _ (by decide), Image.metadata, h.count]
    rfl
  · rw [Image.metadata, h.directoryBytes, Nat.mul_mod_left]
  · rw [Image.metadata, h.timelineCrc]
    refine VfdaySession.readRegion_append (x.header.bytes ++ (x.payload ++ (table ++ x.strings))) timeline afterTimeline ?_ hsize ?_ ?_
    · simp only [Image.bytes, List.append_assoc, table, timeline, afterTimeline]
    · simp only [h.timelineOffset, List.length_append, hheader, htable, table, Image.timelineStart, Image.stringsStart,
        Image.tableStart, Nat.add_assoc]
    · rw [toNat_timelineSize, h.timelineCount, htimeline]
  · have hread : readMany get64 _ ((x.timeline.map Int64.toUInt64).flatMap put64 ++ []) = (_, []) :=
      readMany_flatMap get64_put64 (x.timeline.map Int64.toUInt64) []
    rw [List.length_map, List.flatMap_map, List.append_nil] at hread
    rw [Image.metadata, h.timelineCount, hread, List.map_map]
    exact (List.map_id' x.timeline).symm

theorem readMetadata_bytes (h : x.Described) : VfdaySession.readMetadata path x.bytes = .ok x.metadata :=
  VfdaySession.readMetadata_eq_ok.mpr h.accepted

/-- Opening a described image. -/
theorem openFile_eq_ok (h : x.Described) {r r' : InstrumentRegistry} {s : VfdaySession} :
    VfdaySession.openFile path x.bytes r = (.ok s, r') ↔
      ∃ ts, List.Forall₂ (fun e t => VfdaySession.checkEntry path x.metadata e = .ok t) x.directory ts ∧
        (VfdaySession.registerMany x.metadata ts r).1.Nodup ∧
        s = (VfdaySession.startSession path x.bytes x.metadata).extend (VfdaySession.registerMany x.metadata ts r).1
          x.directory ∧
        VfdaySession.rowsOf x.directory 0 = x.header.totalRows.toUInt64 ∧
        r' = (VfdaySession.registerMany x.metadata ts r).2 := by
  rw [VfdaySession.openFile_eq_ok]
  constructor
  · rintro ⟨m, ts, hm, hrest⟩
    have hunique : x.metadata = m := by
      have hread := VfdaySession.readMetadata_eq_ok.mpr hm
      rw [h.readMetadata_bytes, Except.ok.injEq] at hread
      exact hread
    subst hunique
    exact ⟨ts, hrest⟩
  · rintro ⟨ts, hrest⟩
    exact ⟨x.metadata, ts, h.accepted, hrest⟩

end Image.Described

/-! ## Files of the writer -/

namespace Writer

/-- The buffers as an image, under the header of the writer. -/
def image (w : Writer) (session : SessionData) (timeline : List Timestamp) : Image where
  header := headerOf session w timeline
  payload := w.blob
  table := w.table
  strings := w.strings
  timeline := timeline.map Int64.ofInt
  directory := w.directory

/-- The buffers fit the fields of the header. -/
structure Fits (w : Writer) (timeline : List Timestamp) : Prop where
  table : w.table.length * TableEntry.size < 2 ^ 32
  strings : w.strings.length < 2 ^ 32
  timeline : timeline.length < 2 ^ 32
  directory : w.directory.length * DirEntry.size < 2 ^ 32
  blob : w.blob.length < 2 ^ 62

/-- The header states where the regions begin and where the file ends, behind `blob` bytes of payload and around `times`
    entries of the timeline. -/
structure Placed (h : FileHeader) (blob times : Nat) : Prop where
  table : h.tableOffset.toInt = (FileHeader.size + blob : Nat)
  strings : h.stringsOffset.toInt = (FileHeader.size + blob + h.tableBytes.toNat : Nat)
  timeline : h.timelineOffset.toInt = (FileHeader.size + blob + h.tableBytes.toNat + h.stringsBytes.toNat : Nat)
  directory : h.directoryOffset.toInt =
    (FileHeader.size + blob + h.tableBytes.toNat + h.stringsBytes.toNat + times * 8 : Nat)
  fileBytes : h.fileBytes.toInt =
    (FileHeader.size + blob + h.tableBytes.toNat + h.stringsBytes.toNat + times * 8 + h.directoryBytes.toNat : Nat)

/-- The writer's header does, as long as its sums fit 64 bits. -/
theorem headerOf_placed {w : Writer} {session : SessionData} {timeline : List Timestamp} {h : FileHeader}
    (hh : h = headerOf session w timeline)
    (hsize : FileHeader.size + w.blob.length + h.tableBytes.toNat + h.stringsBytes.toNat + timeline.length * 8 +
      h.directoryBytes.toNat < 2 ^ 63) : Placed h w.blob.length timeline.length := by
  subst hh
  have htable : (headerOf session w timeline).tableOffset.toInt = (FileHeader.size + w.blob.length : Nat) :=
    Int64.toInt_ofNat_of_lt (by omega)
  have hstrings : (headerOf session w timeline).stringsOffset.toInt = (FileHeader.size + w.blob.length +
      (headerOf session w timeline).tableBytes.toNat : Nat) := toInt_add_toInt64 htable rfl (by omega)
  have htimeline : (headerOf session w timeline).timelineOffset.toInt = (FileHeader.size + w.blob.length +
      (headerOf session w timeline).tableBytes.toNat + (headerOf session w timeline).stringsBytes.toNat : Nat) :=
    toInt_add_toInt64 hstrings rfl (by omega)
  have hdirectory : (headerOf session w timeline).directoryOffset.toInt = (FileHeader.size + w.blob.length +
      (headerOf session w timeline).tableBytes.toNat + (headerOf session w timeline).stringsBytes.toNat +
      timeline.length * 8 : Nat) := by
    have hadd : (headerOf session w timeline).directoryOffset =
        (headerOf session w timeline).timelineOffset + Int64.ofNat (timeline.length * 8) := rfl
    have htimes : (Int64.ofNat (timeline.length * 8)).toInt = (timeline.length * 8 : Nat) :=
      Int64.toInt_ofNat_of_lt (by omega)
    rw [hadd, Int64.toInt_add, htimeline, htimes, Int.bmod_eq_of_le (by omega) (by omega)]
    exact (Nat.cast_add _ _).symm
  exact ⟨htable, hstrings, htimeline, hdirectory, toInt_add_toInt64 hdirectory rfl hsize⟩

/-- The checksum of the header is not part of what it covers. -/
theorem checked_sealed (h : FileHeader) : ({ h with headerCrc := crc32 h.checkedBytes } : FileHeader).headerCrc =
    crc32 ({ h with headerCrc := crc32 h.checkedBytes } : FileHeader).checkedBytes := rfl

theorem timelineBytes_eq (timeline : List Timestamp) :
    timelineBytes timeline = (timeline.map Int64.ofInt).flatMap (fun t => put64 t.toUInt64) := by
  rw [timelineBytes, List.flatMap_map]

/-- **The image of buffers that fit is described.** -/
theorem Fits.described {w : Writer} {session : SessionData} {timeline : List Timestamp} (h : w.Fits timeline)
    (hascending : ascending (timeline.map Int64.ofInt) = true) : (w.image session timeline).Described := by
  obtain ⟨htable, hstrings, htimeline, hdirectory, hblob⟩ := h
  have hsizeT : (w.table.flatMap TableEntry.bytes).length = w.table.length * TableEntry.size :=
    length_flatMap_bytes TableEntry.length_bytes w.table
  have hsizeD : (w.directory.flatMap DirEntry.bytes).length = w.directory.length * DirEntry.size :=
    length_flatMap_bytes DirEntry.length_bytes w.directory
  -- the counts of the header are exact
  have htableBytes : (UInt32.ofNat (w.table.flatMap TableEntry.bytes).length).toNat = w.table.length * TableEntry.size := by
    rw [hsizeT, UInt32.toNat_ofNat_of_lt' htable]
  have hstringsBytes : (UInt32.ofNat w.strings.length).toNat = w.strings.length := UInt32.toNat_ofNat_of_lt' hstrings
  have hdirectoryBytes : (UInt32.ofNat (w.directory.flatMap DirEntry.bytes).length).toNat =
      w.directory.length * DirEntry.size := by
    rw [hsizeD, UInt32.toNat_ofNat_of_lt' hdirectory]
  -- and so are the offsets
  have hlength : (timeline.map Int64.ofInt).length = timeline.length := List.length_map ..
  have hplaced : Placed (headerOf session w timeline) w.blob.length timeline.length := by
    refine headerOf_placed rfl ?_
    show FileHeader.size + w.blob.length + (UInt32.ofNat (w.table.flatMap TableEntry.bytes).length).toNat +
      (UInt32.ofNat w.strings.length).toNat + timeline.length * 8 +
      (UInt32.ofNat (w.directory.flatMap DirEntry.bytes).length).toNat < 2 ^ 63
    rw [htableBytes, hstringsBytes, hdirectoryBytes]
    unfold FileHeader.size
    omega
  obtain ⟨htableOffset, hstringsOffset, htimelineOffset, hdirectoryOffset, hfileBytes⟩ := hplaced
  have hsizes : (headerOf session w timeline).tableBytes.toNat = w.table.length * TableEntry.size ∧
      (headerOf session w timeline).stringsBytes.toNat = w.strings.length ∧
      (headerOf session w timeline).directoryBytes.toNat = w.directory.length * DirEntry.size :=
    ⟨htableBytes, hstringsBytes, hdirectoryBytes⟩
  rw [hsizes.1] at hstringsOffset
  rw [hsizes.1, hsizes.2.1] at htimelineOffset hdirectoryOffset
  rw [hsizes.1, hsizes.2.1, hsizes.2.2] at hfileBytes
  rw [← hlength] at hdirectoryOffset hfileBytes
  refine ⟨rfl, rfl, ?_, htableOffset, htableBytes, ?_, hstringsOffset, hstringsBytes, ?_, htimelineOffset, ?_, ?_,
    hdirectoryOffset, hdirectoryBytes, ?_, hfileBytes, ?_, hascending⟩
  · refine Int32.toInt_ofNat_of_lt ?_
    unfold DirEntry.size at hdirectory
    omega
  · exact congrArg crc32 (List.take_of_length_le (by rw [htableBytes, hsizeT]))
  · exact congrArg crc32 (List.take_of_length_le (by rw [hstringsBytes]))
  · exact (UInt32.toNat_ofNat_of_lt' htimeline).trans (List.length_map ..).symm
  · exact congrArg crc32 (timelineBytes_eq timeline)
  · exact congrArg crc32 (List.take_of_length_le (by rw [hdirectoryBytes, hsizeD]))
  · exact checked_sealed _

end Writer

end Volforge
