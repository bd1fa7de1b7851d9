import Mathlib.Data.FinEnum
import Volforge.Store.Correctness.Bounds
import Volforge.Store.Correctness.Capacity
import Volforge.Store.Correctness.Damage
import Volforge.Store.Correctness.RoundTrip

/-!
# `Store.Correctness.Sealing` — the writer's checksums

The header, the regions of the metadata and every blob are under a checksum in a file of the writer, which states the
length of the file as well. So no damage is read as data: `damage_is_never_data`. The checksum of the timeline covers all
of it, even where the 32-bit count of the header does not.

## Contents
- **The instrument loop.** Each entry of the directory is signed.
- **Regions.** Where they lie, and that their checksums are right: `fileOf_sealed`.
- **Lengths.** A file that is cut or extended is refused.
- **Main result.**
- **A timeline that is not counted.** The damaged file opens, the original one does not.
-/

namespace Volforge

theorem toNat_ofNat_le (n : Nat) : (UInt32.ofNat n).toNat ≤ n := by
  rw [UInt32.toNat_ofNat']
  exact Nat.mod_le n _

namespace Writer

/-! The regions as they are written: cut at what their 32-bit sizes say. -/

def tableRegion (w : Writer) (h : FileHeader) : Bytes := (w.table.flatMap TableEntry.bytes).take h.tableBytes.toNat
def stringsRegion (w : Writer) (h : FileHeader) : Bytes := w.strings.take h.stringsBytes.toNat
def directoryRegion (w : Writer) (h : FileHeader) : Bytes := (w.directory.flatMap DirEntry.bytes).take h.directoryBytes.toNat

/-- The bytes of a file, from a header and filled buffers. -/
def fileOf (w : Writer) (h : FileHeader) (timeline : List Timestamp) : Bytes :=
  h.bytes ++ (w.blob ++ (w.tableRegion h ++ (w.stringsRegion h ++ (timelineBytes timeline ++ w.directoryRegion h))))

/-- Every directory entry states where bytes of the payload are, and their checksum. -/
def Signed (w : Writer) : Prop :=
  ∀ e ∈ w.directory, ∃ before blob after, w.blob = before ++ (blob ++ after) ∧
    e.blobOffset = Int64.ofNat (FileHeader.size + before.length) ∧ e.blobBytes.toNat ≤ blob.length ∧
    e.blobCrc = crc32 (blob.take e.blobBytes.toNat)

/-- The step lemma of the instrument loop. -/
theorem Signed.step {session : SessionData} {id : InstrumentId} {w w' : Writer} (h : w.Signed)
    (hstep : Writer.step session w id = .ok w') : w'.Signed := by
  unfold Writer.step at hstep
  dsimp only at hstep
  split_ifs at hstep with hempty
  · cases hstep
    exact h
  · obtain ⟨spec, _, hstep⟩ := Run.bind_eq_ok.mp hstep
    obtain ⟨name, _, hstep⟩ := Run.bind_eq_ok.mp hstep
    cases hstep
    obtain ⟨hblob, hdirectory⟩ := intern_kept w name
    unfold addInstrument
    dsimp only
    rw [hblob, hdirectory]
    intro e he
    rcases List.mem_append.mp he with hold | hnew
    · obtain ⟨before, blob, after, hpayload, hentry⟩ := h e hold
      refine ⟨before, blob, after ++ encodeColumns (session.quotes id), ?_, hentry⟩
      dsimp only
      rw [hpayload, List.append_assoc, List.append_assoc]
    · obtain rfl := List.mem_singleton.mp hnew
      exact ⟨w.blob, encodeColumns (session.quotes id), [], by rw [List.append_nil], rfl, toNat_ofNat_le _, rfl⟩

/-- The run lemma of the instrument loop. -/
theorem Signed.run {session : SessionData} {ids : List InstrumentId} {w w' : Writer} (h : w.Signed)
    (hloop : ids.foldlM (Writer.step session) w = .ok w') : w'.Signed :=
  Run.foldlM_inv Signed (fun _ _ _ hs hstep => hs.step hstep) ids w w' h hloop

theorem length_timelineBytes (timeline : List Timestamp) : (timelineBytes timeline).length = timeline.length * 8 := by
  rw [timelineBytes_eq, Image.length_timelineRegion, List.length_map]

section FileOf

variable {w : Writer} {session : SessionData} {timeline : List Timestamp} {h : FileHeader}
  (hh : h = headerOf session w timeline)

include hh

theorem length_headerBytes : h.bytes.length = FileHeader.size := by
  subst hh
  exact FileHeader.length_bytes rfl

theorem length_tableRegion : (w.tableRegion h).length = h.tableBytes.toNat := by
  subst hh
  rw [tableRegion, List.length_take]
  exact Nat.min_eq_left (toNat_ofNat_le _)

theorem length_stringsRegion : (w.stringsRegion h).length = h.stringsBytes.toNat := by
  subst hh
  rw [stringsRegion, List.length_take]
  exact Nat.min_eq_left (toNat_ofNat_le _)

theorem length_directoryRegion : (w.directoryRegion h).length = h.directoryBytes.toNat := by
  subst hh
  rw [directoryRegion, List.length_take]
  exact Nat.min_eq_left (toNat_ofNat_le _)

theorem length_fileOf : (w.fileOf h timeline).length =
    FileHeader.size + w.blob.length + h.tableBytes.toNat + h.stringsBytes.toNat + timeline.length * 8 +
      h.directoryBytes.toNat := by
  unfold fileOf
  rw [List.length_append, List.length_append, List.length_append, List.length_append, List.length_append,
    length_headerBytes hh, length_tableRegion hh, length_stringsRegion hh, length_directoryRegion hh, length_timelineBytes]
  omega

theorem read_fileOf : (FileHeader.read (w.fileOf h timeline)).1 = h := by
  subst hh
  rw [fileOf, FileHeader.read_bytes rfl]

theorem fileOf_placed (hsize : (w.fileOf h timeline).length < 2 ^ 63) : Placed h w.blob.length timeline.length := by
  rw [length_fileOf hh] at hsize
  exact headerOf_placed hh hsize

theorem fileOf_headerSealed : HeaderSealed (w.fileOf h timeline) := by
  unfold HeaderSealed
  rw [read_fileOf hh]
  subst hh
  rw [fileOf, FileHeader.bytes, List.append_assoc, List.take_left' (FileHeader.length_checkedBytes rfl)]
  exact (checked_sealed _).symm

theorem covers_table (hsize : (w.fileOf h timeline).length < 2 ^ 63) :
    Covers (w.fileOf h timeline) h.tableOffset h.tableBytes.toUInt64.toNat h.tableCrc := by
  refine covers_append (h.bytes ++ w.blob) (w.tableRegion h)
    (w.stringsRegion h ++ (timelineBytes timeline ++ w.directoryRegion h)) ?_ ?_ ?_ ?_
  · rw [fileOf, List.append_assoc]
  · rw [(fileOf_placed hh hsize).table, List.length_append, length_headerBytes hh]
  · rw [UInt32.toNat_toUInt64, length_tableRegion hh]
  · rw [UInt32.toNat_toUInt64, List.take_of_length_le (length_tableRegion hh).le]
    subst hh
    rfl

theorem covers_strings (hsize : (w.fileOf h timeline).length < 2 ^ 63) :
    Covers (w.fileOf h timeline) h.stringsOffset h.stringsBytes.toUInt64.toNat h.stringsCrc := by
  refine covers_append (h.bytes ++ (w.blob ++ w.tableRegion h)) (w.stringsRegion h)
    (timelineBytes timeline ++ w.directoryRegion h) ?_ ?_ ?_ ?_
  · rw [fileOf, List.append_assoc, List.append_assoc]
  · rw [(fileOf_placed hh hsize).strings, List.length_append, List.length_append, length_headerBytes hh,
      length_tableRegion hh, Nat.add_assoc]
  · rw [UInt32.toNat_toUInt64, length_stringsRegion hh]
  · rw [UInt32.toNat_toUInt64, List.take_of_length_le (length_stringsRegion hh).le]
    subst hh
    rfl

theorem covers_timeline (htimes : timeline.length < 2 ^ 32) (hsize : (w.fileOf h timeline).length < 2 ^ 63) :
    Covers (w.fileOf h timeline) h.timelineOffset (h.timelineCount.toUInt64 * 8).toNat h.timelineCrc := by
  have hcount : (h.timelineCount.toUInt64 * 8).toNat = (timelineBytes timeline).length := by
    rw [toNat_timelineSize, length_timelineBytes]
    subst hh
    exact congrArg (· * 8) (UInt32.toNat_ofNat_of_lt' htimes)
  refine covers_append (h.bytes ++ (w.blob ++ (w.tableRegion h ++ w.stringsRegion h))) (timelineBytes timeline)
    (w.directoryRegion h) ?_ ?_ ?_ ?_
  · rw [fileOf, List.append_assoc, List.append_assoc, List.append_assoc]
  · rw [(fileOf_placed hh hsize).timeline, List.length_append, List.length_append, List.length_append, length_headerBytes hh,
      length_tableRegion hh, length_stringsRegion hh]
    omega
  · exact hcount.le
  · rw [hcount, List.take_length]
    subst hh
    rfl

/-- What is read as the directory. -/
theorem readAt_directory (hsize : (w.fileOf h timeline).length < 2 ^ 63) :
    readAt (w.fileOf h timeline) h.directoryOffset h.directoryBytes.toUInt64.toNat = some (w.directoryRegion h) := by
  have hfile : w.fileOf h timeline =
      (h.bytes ++ (w.blob ++ (w.tableRegion h ++ (w.stringsRegion h ++ timelineBytes timeline)))) ++
        (w.directoryRegion h ++ []) := by
    rw [fileOf, List.append_nil, List.append_assoc, List.append_assoc, List.append_assoc, List.append_assoc]
  have hoffset : h.directoryOffset.toInt =
      (h.bytes ++ (w.blob ++ (w.tableRegion h ++ (w.stringsRegion h ++ timelineBytes timeline)))).length := by
    rw [(fileOf_placed hh hsize).directory, List.length_append, List.length_append, List.length_append, List.length_append,
      length_headerBytes hh, length_tableRegion hh, length_stringsRegion hh, length_timelineBytes]
    omega
  rw [hfile, UInt32.toNat_toUInt64, readAt_append hoffset (length_directoryRegion hh).ge,
    List.take_of_length_le (length_directoryRegion hh).le]

/-- The entries that are read are entries that were written. -/
theorem mem_directory {e : DirEntry}
    (he : e ∈ (readMany DirEntry.read ((w.directoryRegion h).length / DirEntry.size) (w.directoryRegion h)).1) :
    e ∈ w.directory := by
  have hlen : (w.directory.flatMap DirEntry.bytes).length = w.directory.length * DirEntry.size :=
    length_flatMap_bytes DirEntry.length_bytes w.directory
  have hle : h.directoryBytes.toNat ≤ w.directory.length * DirEntry.size := by
    subst hh
    rw [← hlen]
    exact toNat_ofNat_le _
  rw [length_directoryRegion hh, directoryRegion, readMany_flatMap_take DirEntry.read_bytes DirEntry.length_bytes
    (Nat.div_le_of_le_mul (Nat.mul_comm _ _ ▸ hle)) (Nat.div_mul_le_self _ _)] at he
  exact List.mem_of_mem_take he

theorem covers_blob (hsigned : w.Signed) (hsize : (w.fileOf h timeline).length < 2 ^ 63) {e : DirEntry}
    (he : e ∈ w.directory) : Covers (w.fileOf h timeline) e.blobOffset e.blobBytes.toNat e.blobCrc := by
  obtain ⟨before, blob, after, hpayload, hoffset, hbytes, hcrc⟩ := hsigned e he
  refine covers_append (h.bytes ++ before) blob
    (after ++ (w.tableRegion h ++ (w.stringsRegion h ++ (timelineBytes timeline ++ w.directoryRegion h)))) ?_ ?_ hbytes hcrc
  · rw [fileOf, hpayload, List.append_assoc, List.append_assoc, List.append_assoc]
  · have hlength : w.blob.length = before.length + (blob.length + after.length) := by
      rw [hpayload, List.length_append, List.length_append]
    rw [length_fileOf hh] at hsize
    rw [hoffset, Int64.toInt_ofNat_of_lt (by omega), List.length_append, length_headerBytes hh]

/-- **A file of the writer is sealed**, when its header can count the timeline. -/
theorem fileOf_sealed (hsigned : w.Signed) (htimes : timeline.length < 2 ^ 32)
    (hsize : (w.fileOf h timeline).length < 2 ^ 63) : Sealed (w.fileOf h timeline) := by
  constructor
  · exact fileOf_headerSealed hh
  · rw [read_fileOf hh]
    exact covers_table hh hsize
  · rw [read_fileOf hh]
    exact covers_strings hh hsize
  · rw [read_fileOf hh]
    exact covers_timeline hh htimes hsize
  · rw [read_fileOf hh]
    intro raw hraw
    rw [readAt_directory hh hsize] at hraw
    obtain rfl := Option.some.inj hraw
    subst hh
    rfl
  · rw [read_fileOf hh]
    intro raw hraw e he
    rw [readAt_directory hh hsize] at hraw
    obtain rfl := Option.some.inj hraw
    exact covers_blob hh hsigned hsize (mem_directory hh he)

end FileOf

end Writer

theorem writeVfday_eq_ok {session : SessionData} {file : Bytes} : writeVfday session = .ok file ↔
    ∃ w, session.instruments.foldlM (Writer.step session) {} = .ok w ∧
      file = w.fileOf (headerOf session w (timelineOf session)) (timelineOf session) := by
  unfold writeVfday
  rw [Run.bind_eq_ok]
  refine exists_congr (fun w => and_congr_right (fun _ => ?_))
  constructor
  · intro h
    cases h
    rfl
  · rintro rfl
    rfl

/-! ## Lengths -/

/-- What the header of an opened file says of its length. -/
theorem opened_fileBytes {path : String} {file : Bytes} {r r' : InstrumentRegistry} {s : VfdaySession}
    (hopen : VfdaySession.openFile path file r = (.ok s, r')) (hsize : file.length < 2 ^ 63) :
    FileHeader.size ≤ file.length ∧ (FileHeader.read file).1.fileBytes.toInt = file.length := by
  obtain ⟨m, _, hm, _⟩ := VfdaySession.openFile_eq_ok.mp hopen
  have hlength := Int64.toInt_ofNat_of_lt hsize
  constructor
  · have hlong := hm.header.long
    rw [Int64.lt_iff_toInt_lt, hlength, Int64.toInt_ofNat_of_lt (by decide)] at hlong
    omega
  · rw [← hm.header.header, hm.header.fileBytes, hlength]

/-- **A file of another length** than its header states is refused. -/
theorem refused_of_length {path : String} {file : Bytes} {r : InstrumentRegistry} (hsize : file.length < 2 ^ 63)
    (h : FileHeader.size ≤ file.length → (FileHeader.read file).1.fileBytes.toInt ≠ file.length) :
    ∃ e, (VfdaySession.openFile path file r).1 = .error e := by
  cases hopen : VfdaySession.openFile path file r with
  | mk result r' =>
      cases result with
      | error e => exact ⟨e, rfl⟩
      | ok s =>
          obtain ⟨hlong, hbytes⟩ := opened_fileBytes hopen hsize
          exact absurd hbytes (h hlong)

/-- The length a file states is read from its first bytes. -/
theorem fileBytes_of_take {file file' : Bytes}
    (h : file'.take (FileHeader.crcOffset + 4) = file.take (FileHeader.crcOffset + 4)) :
    (FileHeader.read file').1.fileBytes = (FileHeader.read file).1.fileBytes := by
  rw [FileHeader.read_eq_of_take h]

/-! ## Main result -/

/-- **Damage is never read as data.** A file of `writeVfday` that is cut or extended is refused. So is one that was damaged
    in a burst of 32 bits, unless it reads as it was written, as long as the header can count the timeline. -/
theorem damage_is_never_data {session : SessionData} {file : Bytes} (hwrite : writeVfday session = .ok file)
    (hsize : file.length < 2 ^ 63) (path : String) (r : InstrumentRegistry) :
    (∀ n < file.length, ∃ e, (VfdaySession.openFile path (file.take n) r).1 = .error e) ∧
    (∀ more : Bytes, more ≠ [] → (file ++ more).length < 2 ^ 63 →
      ∃ e, (VfdaySession.openFile path (file ++ more) r).1 = .error e) ∧
    ((timelineOf session).length < 2 ^ 32 →
      ∀ file', Damaged file file' → Refused path file' r ∨ ReadsAs path file file' r) := by
  obtain ⟨w, hloop, hfile⟩ := writeVfday_eq_ok.mp hwrite
  generalize hh : headerOf session w (timelineOf session) = h at hfile
  subst hfile
  have hlength := Writer.length_fileOf (w := w) hh.symm
  have hstated : (FileHeader.read (w.fileOf h (timelineOf session))).1.fileBytes.toInt =
      (w.fileOf h (timelineOf session)).length := by
    rw [Writer.read_fileOf hh.symm, (Writer.fileOf_placed hh.symm hsize).fileBytes, hlength]
  have hlong : FileHeader.crcOffset + 4 ≤ (w.fileOf h (timelineOf session)).length := by
    unfold FileHeader.crcOffset
    unfold FileHeader.size at hlength
    omega
  refine ⟨?_, ?_, ?_⟩
  · -- cut: the header still states the full length
    intro n hn
    have hcut : ((w.fileOf h (timelineOf session)).take n).length = n := by
      rw [List.length_take, Nat.min_eq_left hn.le]
    refine refused_of_length (by omega) ?_
    intro hheader
    have htake : ((w.fileOf h (timelineOf session)).take n).take (FileHeader.crcOffset + 4) =
        (w.fileOf h (timelineOf session)).take (FileHeader.crcOffset + 4) := by
      rw [List.take_take, Nat.min_eq_left]
      unfold FileHeader.size at hheader
      unfold FileHeader.crcOffset
      omega
    rw [fileBytes_of_take htake, hstated, hcut]
    omega
  · -- extended: it states a smaller one
    intro more hmore hextended
    refine refused_of_length hextended ?_
    intro _
    have htake : (w.fileOf h (timelineOf session) ++ more).take (FileHeader.crcOffset + 4) =
        (w.fileOf h (timelineOf session)).take (FileHeader.crcOffset + 4) := List.take_append_of_le_length hlong
    have hpos := List.length_pos_iff.mpr hmore
    rw [fileBytes_of_take htake, hstated, List.length_append]
    omega
  · -- damaged: every byte that is read is under a checksum
    intro htimes file' hdamaged
    have hsigned : Writer.Signed {} := by
      intro e he
      cases he
    exact (Writer.fileOf_sealed hh.symm (hsigned.run hloop) htimes hsize).reads_as hdamaged path r

/-- The file of a flat session. -/
theorem damage_is_never_data_flat : ∃ file, writeVfday (flatSession ⟨20250701⟩ [1, 1, 2]) = .ok file ∧
    (∃ e, (VfdaySession.openFile "2025-07-01.vfday" (file.take 111) {}).1 = .error e) ∧
    ∀ file', Damaged file file' → Refused "2025-07-01.vfday" file' {} ∨ ReadsAs "2025-07-01.vfday" file file' {} := by
  obtain ⟨w, hw⟩ : ∃ w, (flatSession ⟨20250701⟩ [1, 1, 2]).Written w _ :=
    flatSession_written _ (by decide) (by decide) (by decide +kernel)
  have hdescribed : (w.image (flatSession ⟨20250701⟩ [1, 1, 2]) _).Described := hw.fits.described hw.ascending
  have hsize := hdescribed.length_bytes ▸ hdescribed.size_lt
  obtain ⟨hcut, _, hdamaged⟩ := damage_is_never_data hw.file hsize "2025-07-01.vfday" {}
  refine ⟨_, hw.file, hcut 111 ?_, hdamaged hw.fits.timeline⟩
  rw [hdescribed.length_bytes]
  unfold Image.size Image.directoryStart Image.timelineStart Image.stringsStart Image.tableStart FileHeader.size
  omega

/-! ## A timeline that is not counted -/

/-- **Four bytes** in front can give any checksum to what follows. -/
theorem exists_crc32_eq (rest : Bytes) (crc : UInt32) : ∃ x : UInt32, crc32 (put32 x ++ rest) = crc := by
  have hinjective : Function.Injective (fun x : UInt32 => crc32 (put32 x ++ rest)) := by
    intro x y hxy
    by_contra hne
    have hburst := burst_middle [] (put32 y) (put32 x) rest rfl le_rfl
    refine crc32_ne_of_close hburst.length hburst.close ?_ hxy
    intro hsame
    exact hne (put32_inj (List.append_cancel_right hsame))
  exact Finite.surjective_of_injective hinjective crc

section Uncounted

/-- A session without instruments that has times. -/
def timeSession (times : List Timestamp) : SessionData := { silentSession with timeline := times }

variable {times : List Timestamp} {h : FileHeader} (hh : h = headerOf (timeSession (0 :: times)) {} (0 :: times))

/-- The file with the lower half of the first time replaced. -/
def mended (h : FileHeader) (times : List Timestamp) (x : UInt32) : Bytes :=
  h.bytes ++ (put32 x ++ ([0, 0, 0, 0] ++ timelineBytes times))

theorem timelineBytes_zero (times : List Timestamp) :
    timelineBytes (0 :: times) = put32 0 ++ ([0, 0, 0, 0] ++ timelineBytes times) := by
  have hzero : put64 (Int64.ofInt 0).toUInt64 = put32 0 ++ [0, 0, 0, 0] := by decide
  rw [timelineBytes, List.flatMap_cons, hzero, List.append_assoc, timelineBytes]

theorem writeVfday_timeSession (times : List Timestamp) : writeVfday (timeSession (0 :: times)) =
    .ok (mended (headerOf (timeSession (0 :: times)) {} (0 :: times)) times 0) := by
  refine writeVfday_eq_ok.mpr ⟨{}, rfl, ?_⟩
  have htimeline : timelineOf (timeSession (0 :: times)) = 0 :: times := rfl
  rw [htimeline, mended, Writer.fileOf, timelineBytes_zero]
  show _ = _ ++ ([] ++ ([].take _ ++ ([].take _ ++ (_ ++ [].take _))))
  rw [List.take_nil, List.take_nil, List.take_nil, List.nil_append, List.nil_append, List.nil_append, List.append_nil]

/-- The header of a file without instruments. -/
theorem timeSession_placed (hh : h = headerOf (timeSession (0 :: times)) {} (0 :: times)) (hlt : times.length < 2 ^ 40) :
    Writer.Placed h 0 (times.length + 1) := by
  show Writer.Placed h (({} : Writer).blob.length) ((0 :: times).length)
  refine Writer.headerOf_placed hh ?_
  subst hh
  show FileHeader.size + 0 + 0 + 0 + (times.length + 1) * 8 + 0 < 2 ^ 63
  unfold FileHeader.size
  omega

theorem length_mended (hh : h = headerOf (timeSession (0 :: times)) {} (0 :: times)) (x : UInt32) :
    (mended h times x).length = FileHeader.size + (times.length + 1) * 8 := by
  have hheader := Writer.length_headerBytes hh
  have hrest := Writer.length_timelineBytes times
  unfold mended
  rw [List.length_append, List.length_append, List.length_append, length_put32, hheader, hrest]
  show FileHeader.size + (4 + (4 + times.length * 8)) = _
  omega

/-- What is read of the replaced file. -/
def mendedMetadata (h : FileHeader) (x : UInt32) : Metadata where
  header := h
  table := []
  strings := []
  directory := []
  timeline := ((readMany get64 1 (put32 x ++ [0, 0, 0, 0])).1).map (·.toInt64)

/-- **The replaced file is accepted** when the header counts one time, and the new one has the checksum of them all. -/
theorem mended_accepted (hh : h = headerOf (timeSession (0 :: times)) {} (0 :: times)) (hlt : times.length < 2 ^ 40)
    (hcount : h.timelineCount = 1) {x : UInt32} (hcrc : crc32 (put32 x ++ [0, 0, 0, 0]) = h.timelineCrc) (path : String) :
    VfdaySession.Accepted path (mended h times x) (mendedMetadata h x) := by
  obtain ⟨htable, hstrings, htimeline, hdirectory, hbytes⟩ := timeSession_placed hh hlt
  have hheader := Writer.length_headerBytes hh
  have hlength := length_mended hh x
  have hsize : (mended h times x).length < 2 ^ 63 := by
    rw [hlength]
    unfold FileHeader.size
    omega
  -- a session of times alone has no contract, no string and no column
  have hempty : h.tableBytes = 0 ∧ h.stringsBytes = 0 ∧ h.directoryBytes = 0 ∧ h.instrumentCount = 0 ∧
      h.tableCrc = crc32 [] ∧ h.stringsCrc = crc32 [] ∧ h.directoryCrc = crc32 [] ∧ h.magic = kMagic ∧
      h.version = kVfdayVersion ∧ h.headerCrc = crc32 h.checkedBytes := by
    subst hh
    exact ⟨rfl, rfl, rfl, rfl, congrArg crc32 List.take_nil, congrArg crc32 List.take_nil, congrArg crc32 List.take_nil, rfl,
      rfl, Writer.checked_sealed _⟩
  obtain ⟨hb₁, hb₂, hb₃, hinstruments, hc₁, hc₂, hc₃, hmagic, hversion, hheaderCrc⟩ := hempty
  rw [hb₁] at hstrings htimeline hdirectory hbytes
  rw [hb₂] at htimeline hdirectory hbytes
  rw [hb₃] at hbytes
  have hlong : h.magic.length = 8 := by
    rw [hmagic]
    rfl
  have hread : (FileHeader.read (mended h times x)).1 = h := by
    rw [mended, FileHeader.read_bytes hlong]
  -- the header's own checks; then the table, the strings and the directory, all empty; then the timeline
  refine ⟨⟨hread.symm, ?_, hmagic, hversion, ?_, ?_, ?_⟩, ⟨[], ?_, rfl⟩, ?_, ?_, ⟨[], ?_, rfl, ?_⟩, ?_,
    ⟨put32 x ++ [0, 0, 0, 0], ?_, ?_⟩, rfl⟩
  · rw [Int64.lt_iff_toInt_lt, Int64.toInt_ofNat_of_lt hsize, hlength, Int64.toInt_ofNat_of_lt (by decide)]
    omega
  · rw [mended, FileHeader.bytes, List.append_assoc, List.take_left' (FileHeader.length_checkedBytes hlong)]
    exact hheaderCrc.symm
  · apply Int64.toInt_inj.mp
    rw [Int64.toInt_ofNat_of_lt hsize, hlength]
    exact hbytes
  · rw [mendedMetadata, hinstruments]
    decide
  · rw [mendedMetadata, hc₁]
    refine VfdaySession.readRegion_append h.bytes [] (put32 x ++ ([0, 0, 0, 0] ++ timelineBytes times)) rfl hsize ?_ ?_
    · rw [htable, hheader]
      rfl
    · rw [hb₁]
      rfl
  · rw [mendedMetadata, hb₁]
    rfl
  · rw [mendedMetadata, hc₂]
    refine VfdaySession.readRegion_append h.bytes [] (put32 x ++ ([0, 0, 0, 0] ++ timelineBytes times)) rfl hsize ?_ ?_
    · rw [hstrings, hheader]
      rfl
    · rw [hb₂]
      rfl
  · rw [mendedMetadata, hc₃]
    refine VfdaySession.readRegion_append (mended h times x) [] [] (List.append_nil _).symm hsize ?_ ?_
    · rw [hdirectory, hlength]
      rfl
    · rw [hb₃]
      rfl
  · rw [mendedMetadata, hinstruments]
    rfl
  · rw [mendedMetadata, hb₃]
    rfl
  · rw [mendedMetadata, ← hcrc]
    refine VfdaySession.readRegion_append h.bytes (put32 x ++ [0, 0, 0, 0]) (timelineBytes times) ?_ hsize ?_ ?_
    · rw [mended, List.append_assoc]
    · rw [htimeline, hheader]
      rfl
    · rw [hcount, List.length_append, length_put32]
      rfl
  · rw [mendedMetadata, hcount]
    rfl

/-- A file whose header counts one time opens only if that time has the checksum of them all. -/
theorem crc32_of_opened (hh : h = headerOf (timeSession (0 :: times)) {} (0 :: times)) (hlt : times.length < 2 ^ 40)
    (hcount : h.timelineCount = 1) {x : UInt32} {path : String} {r r' : InstrumentRegistry} {s : VfdaySession}
    (hopen : VfdaySession.openFile path (mended h times x) r = (.ok s, r')) :
    crc32 (put32 x ++ [0, 0, 0, 0]) = h.timelineCrc := by
  obtain ⟨m, _, hm, _⟩ := VfdaySession.openFile_eq_ok.mp hopen
  have hheader : m.header = h := by
    rw [hm.header.header, mended, FileHeader.read_bytes]
    subst hh
    rfl
  obtain ⟨raw, hraw, _⟩ := hm.timeline
  rw [hheader] at hraw
  obtain ⟨hexact, hcrc⟩ := VfdaySession.readRegion_eq_ok.mp hraw
  obtain ⟨_, _, _, hread⟩ := readExact_eq_ok.mp hexact
  have hoffset : h.timelineOffset.toInt = h.bytes.length := by
    rw [(timeSession_placed hh hlt).timeline, Writer.length_headerBytes hh]
    subst hh
    rfl
  have hfile : mended h times x = h.bytes ++ ((put32 x ++ [0, 0, 0, 0]) ++ timelineBytes times) := by
    rw [mended, List.append_assoc]
  have hlen : (put32 x ++ [0, 0, 0, 0]).length = 8 := by
    rw [List.length_append, length_put32]
    rfl
  rw [hcount, hfile] at hread
  have hthere : readAt (h.bytes ++ ((put32 x ++ [0, 0, 0, 0]) ++ timelineBytes times)) h.timelineOffset 8 = _ :=
    readAt_append hoffset hlen.ge
  rw [List.take_of_length_le hlen.le] at hthere
  rw [← hcrc]
  exact congrArg crc32 (Option.some.inj (hthere.symm.trans hread))

/-- The times 1, 2, …, 2^32 - 1 and one more. -/
def uncountedTimes (last : Timestamp) : List Timestamp := (List.range (2 ^ 32 - 1)).map (fun k : Nat => (k : Int) + 1) ++ [last]

theorem length_uncountedTimes (last : Timestamp) : (uncountedTimes last).length = 2 ^ 32 := by
  rw [uncountedTimes, List.length_append, List.length_map, List.length_range, List.length_singleton]
  exact Nat.sub_add_cancel (by norm_num)

theorem ofNat_wrap {n : Nat} (h : n = 2 ^ 32) : UInt32.ofNat (n + 1) = 1 := by
  have hone : (1 : UInt32).toNat = 1 := rfl
  apply UInt32.toNat_inj.mp
  rw [UInt32.toNat_ofNat', hone]
  omega

/-- Two timelines that differ in one bit of the last time. -/
theorem uncountedTimes_crc :
    crc32 (timelineBytes (0 :: uncountedTimes (2 ^ 32))) ≠ crc32 (timelineBytes (0 :: uncountedTimes (2 ^ 32 + 1))) := by
  have hbytes : ∀ last : Timestamp, timelineBytes (0 :: uncountedTimes last) =
      timelineBytes (0 :: (List.range (2 ^ 32 - 1)).map (fun k : Nat => (k : Int) + 1)) ++ put64 (Int64.ofInt last).toUInt64 := by
    intro last
    rw [uncountedTimes, ← List.cons_append]
    unfold timelineBytes
    rw [List.flatMap_append, List.flatMap_singleton]
  have hone : put64 (Int64.ofInt (2 ^ 32)).toUInt64 = put32 0 ++ [1, 0, 0, 0] := by decide
  have htwo : put64 (Int64.ofInt (2 ^ 32 + 1)).toUInt64 = put32 1 ++ [1, 0, 0, 0] := by decide
  rw [hbytes, hbytes, hone, htwo]
  generalize timelineBytes (0 :: (List.range (2 ^ 32 - 1)).map (fun k : Nat => (k : Int) + 1)) = before
  have hburst := burst_middle before (put32 1) (put32 0) [1, 0, 0, 0] rfl le_rfl
  refine crc32_ne_of_close hburst.length hburst.close ?_
  intro hsame
  have hput : put32 0 = put32 1 := List.append_cancel_right (List.append_cancel_left hsame)
  exact absurd hput (by decide)

/-- **A timeline that is not counted** leaves the checksum of the writer for times that are not read: of two sessions with
    `2 ^ 32 + 1` times, the file of one is refused until a burst in its timeline makes it open. -/
theorem uncounted_times_are_mended : ¬ ∀ (session : SessionData) (file : Bytes), writeVfday session = .ok file →
    file.length < 2 ^ 63 → ∀ (path : String) (r : InstrumentRegistry) (file' : Bytes), Damaged file file' →
      Refused path file' r ∨ ReadsAs path file file' r := by
  intro hclaim
  have hread : ∀ last : Timestamp,
      crc32 (put32 0 ++ [0, 0, 0, 0]) = crc32 (timelineBytes (0 :: uncountedTimes last)) := by
    intro last
    have hlen := length_uncountedTimes last
    generalize uncountedTimes last = times at hlen ⊢
    have hwrite := writeVfday_timeSession times
    generalize hh : headerOf (timeSession (0 :: times)) {} (0 :: times) = h at hwrite
    have hcrc : h.timelineCrc = crc32 (timelineBytes (0 :: times)) := by
      subst hh
      rfl
    have hstated : h.timelineCount = UInt32.ofNat (0 :: times).length := by
      subst hh
      rfl
    have hcount : h.timelineCount = 1 := by
      rw [hstated, List.length_cons]
      exact ofNat_wrap hlen
    have hlt : times.length < 2 ^ 40 := by omega
    obtain ⟨x, hx⟩ := exists_crc32_eq [0, 0, 0, 0] h.timelineCrc
    have hsize : (mended h times 0).length < 2 ^ 63 := by
      rw [length_mended hh.symm]
      unfold FileHeader.size
      omega
    have hdamaged : Damaged (mended h times 0) (mended h times x) := by
      have hburst := burst_middle h.bytes (put32 0) (put32 x) ([0, 0, 0, 0] ++ timelineBytes times) rfl le_rfl
      rw [Writer.length_headerBytes hh.symm, length_put32] at hburst
      refine .inr (.inr (.inl (hburst.mono le_rfl ?_)))
      rw [length_mended hh.symm]
      omega
    have hopens : VfdaySession.openFile "2025-07-01.vfday" (mended h times x) {} =
        (.ok (VfdaySession.startSession "2025-07-01.vfday" (mended h times x) (mendedMetadata h x)), {}) := by
      refine VfdaySession.openFile_eq_ok.mpr ⟨_, [], mended_accepted hh.symm hlt hcount hx _, .nil, List.nodup_nil, rfl, ?_, rfl⟩
      subst hh
      rfl
    obtain hrefused | ⟨s, r', hopen, _⟩ := hclaim _ _ hwrite hsize "2025-07-01.vfday" {} _ hdamaged
    · obtain ⟨e, herror⟩ | ⟨s, hs, id, hid, _⟩ := hrefused
      · rw [hopens] at herror
        cases herror
      · rw [hopens] at hs
        cases hs
        cases hid
    · rw [← hcrc]
      exact crc32_of_opened hh.symm hlt hcount hopen
  have hfirst := hread (2 ^ 32)
  have hsecond := hread (2 ^ 32 + 1)
  exact uncountedTimes_crc (hfirst.symm.trans hsecond)

end Uncounted

end Volforge
