import Volforge.Store.Correctness.Checksum
import Volforge.Store.Correctness.Opened

/-!
# `Store.Correctness.Damage` — damaged files are refused, or read as they were

A file is `Sealed` when the checksums it states, in its header and in its directory, are those of the bytes they are
stated for. What `openFile` and `quotes` use of a file they have checked first, so of a sealed file that was damaged in
a burst they either find the damage or use the bytes that were written.

## Contents
- **Damage.** Bursts, flipped bits, and what they leave alone.
- **Headers.** What an accepted header says about damage in the first bytes of the file.
- **Regions.** What is read with a matching checksum was not damaged.
- **Sealed files.** `Sealed.reads_as`: a damaged file that opens and decodes reads as the original.
-/

namespace Volforge

/-! ## Damage -/

/-- The files have one length and differ in at most 32 consecutive bits, all of them in the bytes from `lo` up to `hi`. -/
structure Burst (lo hi : Nat) (file file' : Bytes) : Prop where
  length : file'.length = file.length
  inside : ∀ k, bit file' k ≠ bit file k → 8 * lo ≤ k ∧ k < 8 * hi
  window : ∃ first, ∀ k, bit file' k ≠ bit file k → first ≤ k ∧ k < first + 32

/-- Bit `k` is inverted, and nothing else. -/
structure Flipped (k : Nat) (file file' : Bytes) : Prop where
  length : file'.length = file.length
  flipped : bit file' k = (bit file k).map not
  others : ∀ j, j ≠ k → bit file' j = bit file j

/-- A burst in the header's checked bytes, in its stored checksum (all of whose 32 bits may change), in the blobs, tables
    and regions, which are all that follows the header, or a single bit inverted anywhere. -/
def Damaged (file file' : Bytes) : Prop :=
  Burst 0 FileHeader.crcOffset file file' ∨ Burst FileHeader.crcOffset (FileHeader.crcOffset + 4) file file' ∨
    Burst FileHeader.size file.length file file' ∨ ∃ k < 8 * file.length, Flipped k file file'

theorem Burst.mono {lo hi lo' hi' : Nat} {file file' : Bytes} (h : Burst lo hi file file') (hlo : lo' ≤ lo) (hhi : hi ≤ hi') :
    Burst lo' hi' file file' where
  length := h.length
  inside k hk := by
    obtain ⟨hge, hlt⟩ := h.inside k hk
    omega
  window := h.window

theorem Flipped.burst {k lo hi : Nat} {file file' : Bytes} (h : Flipped k file file') (hlo : 8 * lo ≤ k) (hhi : k < 8 * hi) :
    Burst lo hi file file' := by
  have honly : ∀ j, bit file' j ≠ bit file j → j = k := by
    intro j hj
    by_contra hne
    exact hj (h.others j hne)
  refine ⟨h.length, ?_, k, ?_⟩
  · intro j hj
    rw [honly j hj]
    exact ⟨hlo, hhi⟩
  · intro j hj
    rw [honly j hj]
    omega

/-- Bytes of a file replaced by as many others, at most four. -/
theorem burst_middle (before middle middle' after : Bytes) (hlen : middle'.length = middle.length)
    (hshort : middle.length ≤ 4) : Burst before.length (before.length + middle.length) (before ++ (middle ++ after))
      (before ++ (middle' ++ after)) := by
  have hinside : ∀ k, bit (before ++ (middle' ++ after)) k ≠ bit (before ++ (middle ++ after)) k →
      8 * before.length ≤ k ∧ k < 8 * (before.length + middle.length) := by
    intro k hk
    by_contra hout
    apply hk
    have hbyte : (before ++ (middle' ++ after))[k / 8]? = (before ++ (middle ++ after))[k / 8]? := by
      rcases Nat.lt_or_ge (k / 8) before.length with hlt | hge
      · rw [List.getElem?_append_left hlt, List.getElem?_append_left hlt]
      · rw [List.getElem?_append_right hge, List.getElem?_append_right hge, List.getElem?_append_right (by omega),
          List.getElem?_append_right (by omega), hlen]
    unfold bit
    rw [hbyte]
  refine ⟨?_, hinside, 8 * before.length, ?_⟩
  · rw [List.length_append, List.length_append, List.length_append, List.length_append, hlen]
  · intro k hk
    have hk' := hinside k hk
    omega

/-- A flipped bit lies before the stored checksum, in it or behind it. -/
theorem Damaged.cases {file file' : Bytes} (h : Damaged file file') :
    Burst 0 FileHeader.crcOffset file file' ∨ Burst FileHeader.crcOffset (FileHeader.crcOffset + 4) file file' ∨
      Burst (FileHeader.crcOffset + 4) file.length file file' := by
  obtain h | h | h | ⟨k, hk, h⟩ := h
  · exact .inl h
  · exact .inr (.inl h)
  · exact .inr (.inr (h.mono (by decide) le_rfl))
  · rcases Nat.lt_or_ge k (8 * FileHeader.crcOffset) with hlt | hge
    · exact .inl (h.burst (Nat.zero_le _) hlt)
    · rcases Nat.lt_or_ge k (8 * (FileHeader.crcOffset + 4)) with hlt' | hge'
      · exact .inr (.inl (h.burst hge hlt'))
      · exact .inr (.inr (h.burst hge' hk))

theorem Damaged.length {file file' : Bytes} (h : Damaged file file') : file'.length = file.length := by
  obtain hburst | hburst | hburst := h.cases
  · exact hburst.length
  · exact hburst.length
  · exact hburst.length

namespace Burst

variable {lo hi : Nat} {file file' : Bytes}

theorem close (h : Burst lo hi file file') : Close 32 file' file := by
  obtain ⟨first, hfirst⟩ := h.window
  intro i j hi hj
  have hlow := hfirst i hi
  have hhigh := hfirst j hj
  omega

/-- The bytes outside. -/
theorem getElem? (h : Burst lo hi file file') {i : Nat} (hi : i < lo ∨ hi ≤ i) : file'[i]? = file[i]? := by
  apply getElem?_of_bits
  intro k hk
  by_contra hne
  have hinside := h.inside _ hne
  omega

theorem take_eq (h : Burst lo hi file file') {n : Nat} (hn : n ≤ lo) : file'.take n = file.take n := by
  apply List.ext_getElem?
  intro i
  rcases Nat.lt_or_ge i n with hlt | hge
  · rw [List.getElem?_take_of_lt hlt, List.getElem?_take_of_lt hlt, h.getElem? (.inl (by omega))]
  · rw [List.getElem?_take_eq_none hge, List.getElem?_take_eq_none hge]

theorem drop_eq (h : Burst lo hi file file') {n : Nat} (hn : hi ≤ n) : file'.drop n = file.drop n := by
  apply List.ext_getElem?
  intro i
  rw [List.getElem?_drop, List.getElem?_drop, h.getElem? (.inr (by omega))]

end Burst

theorem Damaged.close {file file' : Bytes} (h : Damaged file file') : Close 32 file' file := by
  obtain hburst | hburst | hburst := h.cases
  · exact hburst.close
  · exact hburst.close
  · exact hburst.close

/-! ## Headers -/

namespace FileHeader

/-- The header up to `reserved` depends on the bytes up to it. -/
theorem read_eq_of_take {p p' : Bytes} (h : p.take (crcOffset + 4) = p'.take (crcOffset + 4)) :
    (read p).1 = { (read p').1 with reserved := (read p).1.reserved } := by
  have hfield : ∀ start n, start + n ≤ crcOffset + 4 → (p.drop start).take n = (p'.drop start).take n := by
    intro start n hn
    have hcut : ∀ q : Bytes, (q.drop start).take n = ((q.take (crcOffset + 4)).drop start).take n := by
      intro q
      rw [List.drop_take, List.take_take, Nat.min_eq_left (by omega)]
    rw [hcut p, hcut p', h]
  have hmagic := hfield 0 8 (by decide)
  rw [List.drop_zero, List.drop_zero] at hmagic
  simp only [read, bind_apply, pure_apply, getBytes, get32, get64, List.drop_drop]
  simp (disch := decide) only [hmagic, hfield]

theorem read_headerCrc (p : Bytes) :
    (read p).1.headerCrc = UInt32.ofNat (LittleEndian.value ((p.drop crcOffset).take 4)) := by
  simp only [read, bind_apply, pure_apply, getBytes, get32, get64, List.drop_drop]
  rfl

end FileHeader

/-- The stored checksum is that of the bytes before it. -/
def HeaderSealed (file : Bytes) : Prop := crc32 (file.take FileHeader.crcOffset) = (FileHeader.read file).1.headerCrc

/-- **An accepted header** is the one that was written, up to the stored checksum and including it. -/
theorem Damaged.header_eq {file file' : Bytes} (h : Damaged file file') (hsealed : HeaderSealed file)
    {header : FileHeader} (hchecked : VfdaySession.HeaderChecked file' header) :
    file'.take (FileHeader.crcOffset + 4) = file.take (FileHeader.crcOffset + 4) := by
  have hcrc : crc32 (file'.take FileHeader.crcOffset) = (FileHeader.read file').1.headerCrc := by
    rw [← hchecked.header]
    exact hchecked.crc
  unfold HeaderSealed at hsealed
  rw [FileHeader.read_headerCrc] at hcrc hsealed
  obtain hburst | hburst | hburst := h.cases
  · have hrest : file'.drop FileHeader.crcOffset = file.drop FileHeader.crcOffset := hburst.drop_eq le_rfl
    have hchecked : file'.take FileHeader.crcOffset = file.take FileHeader.crcOffset := by
      by_contra hne
      have hlen : (file'.take FileHeader.crcOffset).length = (file.take FileHeader.crcOffset).length := by
        rw [List.length_take, List.length_take, hburst.length]
      have hclose := hburst.close.region 0 FileHeader.crcOffset
      rw [List.drop_zero, List.drop_zero] at hclose
      apply crc32_ne_of_close hlen hclose hne
      rw [hcrc, hrest, hsealed]
    rw [List.take_add, List.take_add, hchecked, hrest]
  · have hchecked : file'.take FileHeader.crcOffset = file.take FileHeader.crcOffset := hburst.take_eq le_rfl
    have hstored : (file'.drop FileHeader.crcOffset).take 4 = (file.drop FileHeader.crcOffset).take 4 := by
      rw [hchecked, hsealed, ← UInt32.toNat_inj, UInt32.toNat_ofNat', UInt32.toNat_ofNat'] at hcrc
      have hlt : ∀ q : Bytes, LittleEndian.value (q.take 4) < 2 ^ 32 := by
        intro q
        refine lt_of_lt_of_le (LittleEndian.value_lt _) (Nat.pow_le_pow_right (by decide) ?_ : _ ≤ 256 ^ 4)
        exact List.length_take_le 4 q
      rw [Nat.mod_eq_of_lt (hlt _), Nat.mod_eq_of_lt (hlt _)] at hcrc
      refine LittleEndian.value_inj ?_ hcrc.symm
      rw [List.length_take, List.length_take, List.length_drop, List.length_drop, hburst.length]
    rw [List.take_add, List.take_add, hchecked, hstored]
  · exact hburst.take_eq le_rfl

/-! ## Regions -/

/-- `crc` is the checksum of the region, where there is one. -/
def Covers (file : Bytes) (offset : Int64) (n : Nat) (crc : UInt32) : Prop :=
  ∀ raw, readAt file offset n = some raw → crc32 raw = crc

/-- A region of a file, with its checksum. -/
theorem covers_append {file : Bytes} (before region after : Bytes) {offset : Int64} {n : Nat} {crc : UInt32}
    (hfile : file = before ++ (region ++ after)) (hoffset : offset.toInt = before.length) (hn : n ≤ region.length)
    (hcrc : crc = crc32 (region.take n)) : Covers file offset n crc := by
  intro raw hraw
  rw [hfile, readAt_append hoffset hn, Option.some.injEq] at hraw
  rw [hcrc, hraw]

/-- What is read with a matching checksum is what was there. -/
theorem Covers.readAt_eq {file file' raw : Bytes} {offset : Int64} {n : Nat} {crc : UInt32} (h : Covers file offset n crc)
    (hlen : file'.length = file.length) (hclose : Close 32 file' file) (hread : readAt file' offset n = some raw)
    (hcrc : crc32 raw = crc) : readAt file offset n = some raw := by
  obtain ⟨hsize, hraw, _⟩ := readAt_eq_some hread
  have hthere : readAt file offset n = some ((file.drop offset.toInt.toNat).take n) := by
    unfold readAt at hread ⊢
    dsimp only at hread ⊢
    split_ifs at hread with hshort
    rw [List.length_drop, hlen, ← List.length_drop] at hshort
    rw [if_neg hshort]
  obtain ⟨hsize', _, _⟩ := readAt_eq_some hthere
  rw [hthere, Option.some.injEq]
  by_contra hne
  refine crc32_ne_of_close (hsize.trans hsize'.symm) ?_ (Ne.symm hne) (hcrc.trans (h _ hthere).symm)
  rw [hraw]
  exact hclose.region offset.toInt.toNat n

namespace VfdaySession

theorem readRegion_eq {path what name : String} {file file' raw : Bytes} {offset : Int64} {bytes : UInt64} {crc : UInt32}
    (hcovers : Covers file offset bytes.toNat crc) (hlen : file'.length = file.length) (hclose : Close 32 file' file)
    (h : readRegion path file' offset bytes crc what name = .ok raw) :
    readRegion path file offset bytes crc what name = .ok raw := by
  obtain ⟨hexact, hcrc⟩ := readRegion_eq_ok.mp h
  obtain ⟨hoffset, hbytes, hend, hread⟩ := readExact_eq_ok.mp hexact
  rw [hlen] at hbytes hend
  exact readRegion_eq_ok.mpr ⟨readExact_eq_ok.mpr ⟨hoffset, hbytes, hend, hcovers.readAt_eq hlen hclose hread hcrc⟩, hcrc⟩

end VfdaySession

/-! ## Sealed files -/

/-- **The checksums a file states** are those of the bytes they are stated for. -/
structure Sealed (file : Bytes) : Prop where
  header : HeaderSealed file
  table : Covers file (FileHeader.read file).1.tableOffset (FileHeader.read file).1.tableBytes.toUInt64.toNat
    (FileHeader.read file).1.tableCrc
  strings : Covers file (FileHeader.read file).1.stringsOffset (FileHeader.read file).1.stringsBytes.toUInt64.toNat
    (FileHeader.read file).1.stringsCrc
  timeline : Covers file (FileHeader.read file).1.timelineOffset ((FileHeader.read file).1.timelineCount.toUInt64 * 8).toNat
    (FileHeader.read file).1.timelineCrc
  directory : Covers file (FileHeader.read file).1.directoryOffset
    (FileHeader.read file).1.directoryBytes.toUInt64.toNat (FileHeader.read file).1.directoryCrc
  blobs : ∀ raw, readAt file (FileHeader.read file).1.directoryOffset
      (FileHeader.read file).1.directoryBytes.toUInt64.toNat = some raw →
    ∀ e ∈ (readMany DirEntry.read (raw.length / DirEntry.size) raw).1, Covers file e.blobOffset e.blobBytes.toNat e.blobCrc

namespace Sealed

variable {file file' : Bytes} {path : String} {m : Metadata}

/-- The metadata of a damaged file is that of the original, but for `reserved`, which nothing reads. -/
theorem accepted (h : Sealed file) (hdamaged : Damaged file file') (hm : VfdaySession.Accepted path file' m) :
    ∃ reserved, VfdaySession.Accepted path file { m with header := { m.header with reserved } } := by
  have hlen := hdamaged.length
  have hclose := hdamaged.close
  have htake := hdamaged.header_eq h.header hm.header
  have hread := FileHeader.read_eq_of_take htake.symm
  rw [← hm.header.header] at hread
  generalize hreserved : (FileHeader.read file).1.reserved = reserved at hread
  obtain ⟨hsealed, htable, hstrings, htimeline, hdirectory, _⟩ := h
  unfold HeaderSealed at hsealed
  rw [hread] at hsealed htable hstrings htimeline hdirectory
  obtain ⟨rawTable, hrawTable, htable'⟩ := hm.table
  obtain ⟨rawDirectory, hrawDirectory, hdirectory', hcount⟩ := hm.directory
  obtain ⟨rawTimeline, hrawTimeline, htimeline'⟩ := hm.timeline
  refine ⟨reserved, ⟨hread.symm, ?_, hm.header.magic, hm.header.version, hsealed, ?_, hm.header.count⟩,
    ⟨rawTable, VfdaySession.readRegion_eq htable hlen hclose hrawTable, htable'⟩, hm.tableAligned,
    VfdaySession.readRegion_eq hstrings hlen hclose hm.strings,
    ⟨rawDirectory, VfdaySession.readRegion_eq hdirectory hlen hclose hrawDirectory, hdirectory', hcount⟩,
    hm.directoryAligned, ⟨rawTimeline, VfdaySession.readRegion_eq htimeline hlen hclose hrawTimeline, htimeline'⟩,
    hm.ascending⟩
  · rw [← hlen]
    exact hm.header.long
  · rw [← hlen]
    exact hm.header.fileBytes

end Sealed

/-- `open` throws, or `quotes` does for an instrument of the session. -/
def Refused (path : String) (file : Bytes) (r : InstrumentRegistry) : Prop :=
  (∃ e, (VfdaySession.openFile path file r).1 = .error e) ∨
    ∃ s, (VfdaySession.openFile path file r).1 = .ok s ∧ ∃ id ∈ s.instruments, ∃ e, s.quotes id = .error e

/-- The two files open, as sessions that differ in nothing but the bytes they are decoded from, and leave one registry
    behind; every instrument has the same columns. -/
def ReadsAs (path : String) (file file' : Bytes) (r : InstrumentRegistry) : Prop :=
  ∃ s r', VfdaySession.openFile path file r = (.ok s, r') ∧
    VfdaySession.openFile path file' r = (.ok { s with file := file' }, r') ∧
    ∀ id, VfdaySession.quotes { s with file := file' } id = s.quotes id

namespace VfdaySession

/-- Registration looks at the strings of the metadata only. -/
theorem registerMany_header (m : Metadata) (header : FileHeader) (ts : List TableEntry) (r : InstrumentRegistry) :
    registerMany { m with header } ts r = registerMany m ts r := by
  induction ts generalizing r with
  | nil => rfl
  | cons t ts ih =>
      have hentry : registerEntry { m with header } t r = registerEntry m t r := rfl
      rw [registerMany, registerMany, hentry, ih]

/-- An instrument of the session has an entry, which comes from the directory. -/
theorem lookup_extend {path : String} {file : Bytes} {m : Metadata} {ids : List InstrumentId} {es : List DirEntry}
    (hlen : ids.length = es.length) {id : InstrumentId} {e : Entry}
    (hlookup : ((startSession path file m).extend ids es).entries.lookup id = some e) :
    id ∈ ids ∧ ∃ d ∈ es, e = entryOf d := by
  obtain ⟨before, after, hentries, _⟩ := List.lookup_eq_some_iff.mp hlookup
  have hmem : (id, e) ∈ ((startSession path file m).extend ids es).entries := by
    rw [hentries]
    exact List.mem_append_right _ List.mem_cons_self
  have hkey : id ∈ ((startSession path file m).extend ids es).entries.map (·.1) := List.mem_map.mpr ⟨_, hmem, rfl⟩
  have hval : e ∈ ((startSession path file m).extend ids es).entries.map (·.2) := List.mem_map.mpr ⟨_, hmem, rfl⟩
  rw [keys_extend hlen] at hkey
  rw [entries_extend hlen] at hval
  obtain ⟨d, hd, rfl⟩ := List.mem_map.mp hval
  exact ⟨hkey, d, hd, rfl⟩

/-- Columns that decode from damaged bytes decode from the original ones. -/
theorem quotes_undamaged {s : VfdaySession} {file' : Bytes} {id : InstrumentId} {c : QuoteColumns} (hlen : file'.length = s.file.length)
    (hclose : Close 32 file' s.file)
    (hcovers : ∀ e, s.entries.lookup id = some e → Covers s.file e.blobOffset e.blobBytes.toNat e.blobCrc)
    (h : quotes { s with file := file' } id = .ok c) : s.quotes id = .ok c := by
  have hsame : materialise { s with file := file' } id = s.materialise id ∨
      ∃ e, materialise { s with file := file' } id = .error e := by
    unfold materialise
    dsimp only
    cases hlookup : s.entries.lookup id with
    | none => exact .inl rfl
    | some e =>
        dsimp only
        cases hread : readAt file' e.blobOffset e.blobBytes.toNat with
        | none => exact .inr ⟨_, rfl⟩
        | some raw =>
            dsimp only
            by_cases hcrc : crc32 raw = e.blobCrc
            · rw [(hcovers e hlookup).readAt_eq hlen hclose hread hcrc]
              exact .inl rfl
            · rw [if_pos hcrc]
              exact .inr ⟨_, rfl⟩
  unfold quotes at h ⊢
  obtain hsame | ⟨e, herror⟩ := hsame
  · rw [← hsame]
    exact h
  · rw [herror] at h
    cases h

end VfdaySession

/-- The entries of an accepted directory state the checksums of their blobs. -/
theorem Sealed.covers {file : Bytes} (h : Sealed file) {path : String} {m : Metadata}
    (hm : VfdaySession.Accepted path file m) {d : DirEntry} (hd : d ∈ m.directory) :
    Covers file d.blobOffset d.blobBytes.toNat d.blobCrc := by
  obtain ⟨raw, hraw, hdirectory, _⟩ := hm.directory
  obtain ⟨hexact, _⟩ := VfdaySession.readRegion_eq_ok.mp hraw
  obtain ⟨_, _, _, hread⟩ := readExact_eq_ok.mp hexact
  rw [hm.header.header] at hread
  rw [hdirectory] at hd
  exact h.blobs raw hread d hd

/-- **A damaged file** of which all checksums were right is refused, or reads as it was written. -/
theorem Sealed.reads_as {file file' : Bytes} (h : Sealed file) (hdamaged : Damaged file file') (path : String)
    (r : InstrumentRegistry) : Refused path file' r ∨ ReadsAs path file file' r := by
  rw [or_iff_not_imp_left]
  intro haccepted
  unfold Refused at haccepted
  rw [not_or] at haccepted
  obtain ⟨hopens, hdecodes⟩ := haccepted
  cases hopen : VfdaySession.openFile path file' r with
  | mk result r' =>
      rw [hopen] at hopens hdecodes
      cases result with
      | error e => exact absurd ⟨e, rfl⟩ hopens
      | ok s' =>
          obtain ⟨m, ts, hm, hts, hnodup, rfl, hrows, hr⟩ := VfdaySession.openFile_eq_ok.mp hopen
          obtain ⟨reserved, hm₀⟩ := h.accepted hdamaged hm
          have hmany := VfdaySession.registerMany_header m { m.header with reserved } ts r
          have hopen₀ : VfdaySession.openFile path file r =
              (.ok ((VfdaySession.startSession path file m).extend (VfdaySession.registerMany m ts r).1 m.directory), r') := by
            refine VfdaySession.openFile_eq_ok.mpr ⟨_, ts, hm₀, hts, ?_, ?_, hrows, ?_⟩
            · rw [hmany]
              exact hnodup
            · rw [hmany]
              rfl
            · rw [hmany]
              exact hr
          refine ⟨_, r', hopen₀, hopen, ?_⟩
          intro id
          have hlen : (VfdaySession.registerMany m ts r).1.length = m.directory.length := by
            rw [VfdaySession.length_registerMany, hts.length_eq]
          have hcovers : ∀ e, ((VfdaySession.startSession path file m).extend (VfdaySession.registerMany m ts r).1
              m.directory).entries.lookup id = some e → Covers file e.blobOffset e.blobBytes.toNat e.blobCrc := by
            intro e he
            obtain ⟨_, d, hd, rfl⟩ := VfdaySession.lookup_extend hlen he
            exact h.covers hm₀ hd
          cases hquotes : VfdaySession.quotes ((VfdaySession.startSession path file' m).extend
              (VfdaySession.registerMany m ts r).1 m.directory) id with
          | ok c => exact (hquotes.trans (VfdaySession.quotes_undamaged hdamaged.length hdamaged.close hcovers hquotes).symm)
          | error e =>
              -- an instrument of the session decodes, and any other has no entry
              have hid : id ∉ (VfdaySession.registerMany m ts r).1 := fun hid => hdecodes ⟨_, rfl, id, hid, e, hquotes⟩
              have hnone : ((VfdaySession.startSession path file' m).extend (VfdaySession.registerMany m ts r).1
                  m.directory).entries.lookup id = none := by
                rw [Option.eq_none_iff_forall_ne_some]
                intro e he
                exact hid (VfdaySession.lookup_extend hlen he).1
              unfold VfdaySession.quotes VfdaySession.materialise at hquotes
              rw [hnone] at hquotes
              cases hquotes

end Volforge
