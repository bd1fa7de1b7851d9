import Volforge.Store.Correctness.Codec
import Volforge.Store.Correctness.Reference
import Volforge.Store.Correctness.Reread
import Volforge.Store.ReferenceFile

/-!
# `Store.Correctness.ReferenceFile` — the specification opens what the engine opens, and reads what it writes

The reference reader counts in unbounded integers, takes bounds that count from the end, and checks less than the
engine. On a file the engine accepts none of this shows: every offset is in range, and every varint the
writer emits fits 64 bits.

## Contents
- **Columns.** The reference decoder reads an encoded column: `readColumn_encodeColumn`.
- **Formats, slices, instruments.** What is unpacked are the engine's structures, in unbounded integers.
- **Opening.** `SameFile`, and `reference_opens_alike`.
- **Written files.** `HasSession`, and `reference_reads_written`.
-/

namespace Volforge.ReferenceReader

open IdTable

/-! ## Columns -/

/-- A byte that continues a varint: its payload, and its high bit. -/
theorem continued_byte (v : UInt64) :
    ((v.toUInt8 ||| 0x80) &&& 0x7F).toNat = v.toNat % 128 ∧ (v.toUInt8 ||| 0x80) &&& 0x80 ≠ 0 := by
  obtain ⟨hlow, hhigh⟩ := or_high_bit v.toUInt8
  have hbyte : v.toUInt8.toNat = v.toNat % 256 := UInt64.toNat_toUInt8 v
  constructor
  · rw [and_low7, hlow, hbyte]
    omega
  · rw [Ne, and_high_bit]
    omega

/-- A byte that ends a varint. -/
theorem readVarintFrom_last (rest : Bytes) (shift value : Nat) {v : UInt64} (hv : v.toNat < 128) :
    readVarintFrom shift value (v.toUInt8 :: rest) = some (value ||| (v.toNat <<< shift), rest) := by
  obtain ⟨hhigh, hlow⟩ := last_byte hv
  rw [readVarintFrom, if_pos hhigh, ← hlow, UInt8.toNat_toUInt64]

/-- The low seven bits of a value, and the others above them. -/
theorem low7_or_rest (x shift : Nat) : (x % 128) <<< shift ||| (x >>> 7) <<< (shift + 7) = x <<< shift := by
  have hlow : x % 128 < 2 ^ 7 := Nat.mod_lt _ (by norm_num)
  have hsplit : (x >>> 7) <<< 7 + x % 128 = x := by
    rw [Nat.shiftLeft_eq, Nat.shiftRight_eq_div_pow]
    omega
  rw [Nat.add_comm shift, Nat.shiftLeft_add, ← Nat.shiftLeft_or_distrib, Nat.lor_comm,
    ← Nat.shiftLeft_add_eq_or_of_lt hlow, hsplit]

theorem readVarintFrom_put (rest : Bytes) (k shift value : Nat) (v : UInt64) (hshift : shift = 7 * (9 - k)) (hk : k ≤ 9)
    (hv : v.toNat < 2 ^ (64 - shift)) :
    readVarintFrom shift value (putVarintFrom k v ++ rest) = some (value ||| (v.toNat <<< shift), rest) := by
  induction k generalizing shift value v with
  | zero =>
      rw [hshift] at hv
      exact readVarintFrom_last rest shift value (lt_trans hv (by norm_num))
  | succ k ih =>
      unfold putVarintFrom
      split_ifs with hbig
      · obtain ⟨hlow, hhigh⟩ := continued_byte v
        have hnext : (v >>> 7).toNat = v.toNat >>> 7 := UInt64.toNat_shiftRight v 7
        have hroom : (v >>> 7).toNat < 2 ^ (64 - (shift + 7)) := by
          rw [hnext, Nat.shiftRight_eq_div_pow, Nat.div_lt_iff_lt_mul (by norm_num), ← Nat.pow_add]
          exact lt_of_lt_of_le hv (Nat.pow_le_pow_right (by norm_num) (by omega))
        rw [List.cons_append, readVarintFrom, if_neg hhigh, if_neg (by omega),
          ih (shift + 7) _ (v >>> 7) (by omega) (by omega) hroom, hlow, hnext, Nat.or_assoc, low7_or_rest]
      · have hsmall : v < 0x80 := UInt64.not_le.mp hbig
        exact readVarintFrom_last rest shift value (UInt64.lt_iff_toNat_lt.mp hsmall)

/-- The varints of the engine are read as they are: they are cut to 64 bits already. -/
theorem readVarint_put (v : UInt64) (rest : Bytes) : readVarint (putVarint v ++ rest) = some (v.toNat, rest) := by
  unfold readVarint putVarint
  rw [readVarintFrom_put rest 9 0 0 v (by omega) (by omega) v.toNat_lt, Nat.zero_or, Nat.shiftLeft_zero]

theorem skipResiduals_of_read {buf rest : Bytes} {n bits : Nat} {residuals : List UInt64}
    (h : Volforge.readResiduals buf n bits = some (residuals, rest)) : skipResiduals buf n bits = some rest := by
  rw [readResiduals_eq] at h
  obtain ⟨_, hread, h⟩ := Option.map_eq_some_iff.mp h
  cases h
  rcases readResiduals_skips buf n bits with ⟨hnone, _⟩ | ⟨_, _, hsome, hskip, _⟩
  · rw [hnone] at hread
    cases hread
  · rw [hsome] at hread
    cases hread
    exact hskip

/-- An encoded block is a varint, a width and residuals that can be passed over. -/
theorem encodeBlock_skips (scale : UInt64) (raw : List Int64) (more : Bytes) :
    ∃ (minDelta : UInt64) (bits : UInt8) (residuals : Bytes),
      encodeBlock scale raw = putVarint minDelta ++ bits :: residuals ∧
        skipResiduals (residuals ++ more) raw.length bits.toNat = some more := by
  unfold encodeBlock
  dsimp only
  refine ⟨_, _, _, rfl, ?_⟩
  generalize ((raw.map fun d => if scale = 1 then d else d / scale.toInt64).foldl min Int64.maxValue).toUInt64 = minDelta
  rw [List.map_map]
  generalize hres : raw.map _ = residuals
  have hcount : residuals.length = raw.length := by rw [← hres, List.length_map]
  obtain ⟨hbits, hread⟩ := readResiduals_spec residuals more
  have hbyte : ∀ {bits : Nat}, bits ≤ 64 → (UInt8.ofNat bits).toNat = bits := by
    intro bits hle
    rw [UInt8.toNat_ofNat']
    omega
  rw [hbyte hbits, ← hcount]
  exact skipResiduals_of_read hread

/-- The minima of encoded blocks fit 64 bits. -/
theorem minima_encodeBlocks {scale : UInt64} {rest : Bytes} (blocks : Nat) (raw : List Int64) {minima : List Nat}
    {buf : Bytes} (hblocks : blocks = blockCount raw.length)
    (h : blockMinima blocks raw.length (encodeBlocks scale blocks raw ++ rest) = some (minima, buf)) :
    ∀ m ∈ minima, m < 2 ^ 64 := by
  induction blocks generalizing raw minima with
  | zero =>
      cases h
      simp
  | succ blocks ih =>
      have hlen : (raw.take kCodecBlock).length = min BLOCK raw.length := List.length_take
      have hdrop : raw.length - min BLOCK raw.length = (raw.drop kCodecBlock).length := by
        rw [List.length_drop]
        unfold BLOCK kCodecBlock
        omega
      have hnext : blocks = blockCount (raw.drop kCodecBlock).length := by
        rw [List.length_drop]
        unfold blockCount kCodecBlock at hblocks ⊢
        omega
      rw [encodeBlocks, List.append_assoc] at h
      obtain ⟨minDelta, bits, residuals, hblock, hskip⟩ :=
        encodeBlock_skips scale (raw.take kCodecBlock) (encodeBlocks scale blocks (raw.drop kCodecBlock) ++ rest)
      rw [hblock, List.append_assoc, List.cons_append, blockMinima, readVarint_put] at h
      simp only [Option.bind_eq_bind, Option.bind_some] at h
      rw [hlen] at hskip
      rw [hskip, Option.bind_some, hdrop] at h
      obtain ⟨⟨minima', _⟩, hwalk, h⟩ := Option.bind_eq_some_iff.mp h
      cases h
      exact List.forall_mem_cons.mpr ⟨minDelta.toNat_lt, ih _ hnext hwalk⟩

/-- **The reference decoder reads an encoded column**, and leaves what follows it. -/
theorem readColumn_encodeColumn {values : List Int64} (hsize : values.length < 2 ^ 64) (rest : Bytes) :
    readColumn (encodeColumn values ++ rest) = some (values.map Int64.toInt, rest) := by
  have hcount : (UInt64.ofNat values.length).toNat = values.length := UInt64.toNat_ofNat_of_lt' hsize
  cases values with
  | nil => 
      unfold encodeColumn readColumn
      rw [List.append_assoc, readVarint_put]
      rfl
  | cons first vs =>
      obtain ⟨hscale, hdvd⟩ := scaleOf_spec first vs
      have hpos : (scaleOf first vs).toNat ≠ 0 := fun hzero => hscale (UInt64.toNat_inj.mp hzero)
      have hfirst : unzigzag (zigzag first).toNat = first.toInt := by
        rw [(unzigzag_eq_iff _).mpr (zigzag first).toNat_lt, UInt64.ofNat_toNat, unzigzag_zigzag]
      have hengine := decodeBlocks_encodeBlocks rest _ vs first rfl hdvd
      unfold encodeColumn
      rw [List.append_assoc, List.append_assoc, List.append_assoc]
      rw [readColumn_eq (readVarint_put _ _) (by rw [hcount]; simp) (readVarint_put _ _) (readVarint_put _ _) hpos,
        hcount, List.length_cons, Nat.add_sub_cancel, hfirst, ← length_rawDeltas first vs]
      rcases decodeBlocks_alike (scaleOf first vs).toNat _ (rawDeltas first vs).length first.toInt first
        (encodeBlocks (scaleOf first vs) (blockCount (rawDeltas first vs).length) (rawDeltas first vs) ++ rest) rfl with
        ⟨_, _, hnone⟩ | ⟨minima, rest', vs', ws, hboth⟩
      · rw [UInt64.ofNat_toNat, length_rawDeltas, hengine] at hnone
        cases hnone
      · have hsame := hboth.engine
        rw [UInt64.ofNat_toNat, length_rawDeltas, hengine] at hsame
        cases hsame
        have hvs := (hboth.same (Int64.ofInt_toInt first).symm).mpr (fun m hm =>
          .inl (by rw [Nat.div_eq_of_lt (minima_encodeBlocks _ _ rfl hboth.walks m hm)]; exact dvd_zero 2))
        rw [hboth.reference, hvs]
        rfl

/-! ## Formats -/

theorem value_take_lt (n : Nat) (p : Bytes) : LittleEndian.value (p.take n) < 256 ^ n :=
  lt_of_lt_of_le (LittleEndian.value_lt _) (Nat.pow_le_pow_right (by norm_num) (List.length_take_le n p))

theorem unsigned_one (p : Bytes) : unsigned 1 p = ((get8 p).1.toNat, (get8 p).2) :=
  Prod.ext (UInt8.toNat_ofNat_of_lt' (value_take_lt 1 p)).symm rfl

theorem unsigned_two (p : Bytes) : unsigned 2 p = ((get16 p).1.toNat, (get16 p).2) :=
  Prod.ext (UInt16.toNat_ofNat_of_lt' (value_take_lt 2 p)).symm rfl

theorem unsigned_four (p : Bytes) : unsigned 4 p = ((get32 p).1.toNat, (get32 p).2) :=
  Prod.ext (UInt32.toNat_ofNat_of_lt' (value_take_lt 4 p)).symm rfl

theorem signed_four (p : Bytes) : signed 4 p = ((get32 p).1.toInt32.toInt, (get32 p).2) := by
  have hsize : 256 ^ 4 = Int32.size := by norm_num [Int32.size]
  unfold signed get32
  rw [UInt32.toInt32_ofNat', Int32.toInt_ofNat', hsize]

theorem signed_eight (p : Bytes) : signed 8 p = ((get64 p).1.toInt64.toInt, (get64 p).2) := by
  have hsize : 256 ^ 8 = Int64.size := by norm_num [Int64.size]
  unfold signed get64
  rw [UInt64.toInt64_ofNat', Int64.toInt_ofNat', hsize]

def Header.of (h : FileHeader) : Header where
  magic := h.magic
  version := h.version.toNat
  flags := h.flags.toNat
  date := h.date.toInt
  count := h.instrumentCount.toInt
  totalRows := h.totalRows.toInt
  tOff := h.tableOffset.toInt
  tBytes := h.tableBytes.toNat
  tCrc := h.tableCrc.toNat
  sOff := h.stringsOffset.toInt
  sBytes := h.stringsBytes.toNat
  sCrc := h.stringsCrc.toNat
  tlOff := h.timelineOffset.toInt
  tlCount := h.timelineCount.toNat
  tlCrc := h.timelineCrc.toNat
  dOff := h.directoryOffset.toInt
  dBytes := h.directoryBytes.toNat
  dCrc := h.directoryCrc.toNat
  fileBytes := h.fileBytes.toInt
  headerCrc := h.headerCrc.toNat
  reserved := h.reserved.toNat

def TableRow.of (t : TableEntry) : TableRow where
  uOff := t.underlyingOffset.toNat
  uLen := t.underlyingLength.toNat
  kind := t.kind.toNat
  right := t.right.toNat
  pad := t.reserved.toNat
  expiry := t.expiry.toInt
  strikeMinor := t.strikeMinor.toInt
  lot := t.lotSize.toInt
  tickMinor := t.tickMinor.toInt

def DirRow.of (e : DirEntry) : DirRow where
  idx := e.tableIndex.toInt
  rows := e.rowCount.toNat
  blobOff := e.blobOffset.toInt
  blobBytes := e.blobBytes.toNat
  blobCrc := e.blobCrc.toNat
  firstNs := e.firstTs.toInt
  lastNs := e.lastTs.toInt

/-- Both readers have the same header format. -/
theorem HEADER_FMT_eq (p : Bytes) : (HEADER_FMT p).1 = Header.of (FileHeader.read p).1 := by
  simp only [HEADER_FMT, FileHeader.read, bind_apply, pure_apply, unsigned_four, signed_four, signed_eight, Header.of]

theorem TABLE_FMT_eq (p : Bytes) : (TABLE_FMT p).1 = TableRow.of (TableEntry.read p).1 := by
  simp only [TABLE_FMT, TableEntry.read, bind_apply, pure_apply, unsigned_one, unsigned_two, unsigned_four, signed_four,
    TableRow.of]

theorem DIR_FMT_eq (p : Bytes) : (DIR_FMT p).1 = DirRow.of (DirEntry.read p).1 := by
  simp only [DIR_FMT, DirEntry.read, bind_apply, pure_apply, unsigned_four, signed_four, signed_eight, DirRow.of]

theorem readMany_signed (n : Nat) (p : Bytes) :
    readMany (signed 8) n p = ((readMany get64 n p).1.map (fun x => x.toInt64.toInt), (readMany get64 n p).2) := by
  induction n generalizing p with
  | zero => rfl
  | succ n ih =>
      simp only [readMany, bind_apply, pure_apply, signed_eight, ih, List.map_cons]

/-- The structures of a table, each at its place. -/
theorem getElem?_readMany {α : Type} {read : Reader α} {size : Nat} (hsize : ∀ p, (read p).2 = p.drop size) (n i : Nat)
    (hi : i < n) (p : Bytes) : (readMany read n p).1[i]? = some (read (p.drop (i * size))).1 := by
  induction n generalizing i p with
  | zero => exact absurd hi (Nat.not_lt_zero i)
  | succ n ih =>
      simp only [readMany, bind_apply, pure_apply]
      cases i with
      | zero => rw [List.getElem?_cons_zero, Nat.zero_mul, List.drop_zero]
      | succ i =>
          rw [List.getElem?_cons_succ, ih i (Nat.lt_of_succ_lt_succ hi), hsize, List.drop_drop, Nat.succ_mul,
            Nat.add_comm size]

theorem TableEntry.read_drop (p : Bytes) : (TableEntry.read p).2 = p.drop TableEntry.size := by
  simp only [TableEntry.read, bind_apply, pure_apply, get8, get16, get32, List.drop_drop]
  rfl

theorem DirEntry.read_drop (p : Bytes) : (DirEntry.read p).2 = p.drop DirEntry.size := by
  simp only [DirEntry.read, bind_apply, pure_apply, get32, get64, List.drop_drop]
  rfl

/-! ## Slices and regions -/

/-- A slice whose bounds do not count from the end. -/
theorem slice_window (buf : Bytes) (off n : Nat) : slice buf off (off + n : Nat) = (buf.drop off).take n := by
  unfold slice
  dsimp only
  rw [if_neg (by omega), if_neg (by omega), Int.toNat_natCast, Int.toNat_natCast, List.drop_take, Nat.add_sub_cancel_left]

theorem slice_eq {buf : Bytes} {start : Int} {n : Nat} (hstart : 0 ≤ start) :
    slice buf start (start + n) = (buf.drop start.toNat).take n := by
  obtain ⟨off, rfl⟩ := Int.eq_ofNat_of_zero_le hstart
  exact slice_window buf off n

theorem unpackAt_eq {α : Type} {size : Nat} (format : Reader α) (buf : Bytes) (offset : Nat)
    (hfits : offset + size ≤ buf.length) : unpackAt size format buf offset = some (format (buf.drop offset)).1 := by
  unfold unpackAt
  dsimp only
  rw [if_neg (by omega), if_neg (by omega), Int.toNat_natCast]

theorem zlibCrc32_eq_iff (buf : Bytes) (crc : UInt32) : zlibCrc32 buf = crc.toNat ↔ crc32 buf = crc := UInt32.toNat_inj

/-- A region the engine loads is a region of the reference reader. -/
theorem region_of_readRegion {path what name : String} {file raw : Bytes} {offset : Int64} {bytes : UInt64}
    {crc : UInt32} (h : VfdaySession.readRegion path file offset bytes crc what name = .ok raw) :
    region file offset.toInt bytes.toNat crc.toNat = some raw ∧ raw.length = bytes.toNat := by
  obtain ⟨hread, hcrc⟩ := VfdaySession.readRegion_eq_ok.mp h
  obtain ⟨hneg, _, _, hat⟩ := readExact_eq_ok.mp hread
  obtain ⟨hlen, hraw, _⟩ := readAt_eq_some hat
  have hoffset : 0 ≤ offset.toInt := by
    rw [Int64.lt_iff_toInt_lt, Int64.toInt_zero] at hneg
    omega
  unfold region
  dsimp only
  rw [slice_eq hoffset, ← hraw, if_neg (not_not.mpr hlen), if_neg (not_not.mpr ((zlibCrc32_eq_iff raw crc).mpr hcrc))]
  exact ⟨rfl, hlen⟩

/-- A header the engine accepts is accepted. -/
theorem readHeader_of_checked {file : Bytes} {h : FileHeader} (hsize : file.length < 2 ^ 63)
    (hh : VfdaySession.HeaderChecked file h) : readHeader file = some (Header.of h) := by
  have hlen : (Int64.ofNat file.length).toInt = file.length := Int64.toInt_ofNat_of_lt hsize
  have hlong : 112 ≤ file.length := by
    have hlong := hh.long
    rw [Int64.lt_iff_toInt_lt, hlen, Int64.toInt_ofNat_of_lt (by decide)] at hlong
    unfold FileHeader.size at hlong
    omega
  have hread : (HEADER_FMT file).1 = Header.of h := by rw [HEADER_FMT_eq, hh.header]
  have hat := unpackAt_eq HEADER_FMT file 0 (by unfold HEADER_SIZE; omega : 0 + HEADER_SIZE ≤ file.length)
  rw [List.drop_zero, hread, Nat.cast_zero] at hat
  have hmagic : (Header.of h).magic = MAGIC := hh.magic
  have hversion : (Header.of h).version = VERSION := congrArg UInt32.toNat hh.version
  have hchecked : slice file 0 (HEADER_SIZE - 8 : Nat) = file.take FileHeader.crcOffset := by
    have hwindow := slice_window file 0 FileHeader.crcOffset
    rw [Nat.zero_add, List.drop_zero] at hwindow
    exact hwindow
  have hcrc : zlibCrc32 (file.take FileHeader.crcOffset) = (Header.of h).headerCrc := congrArg UInt32.toNat hh.crc
  have hbytes : (Header.of h).fileBytes = file.length := (congrArg Int64.toInt hh.fileBytes).trans hlen
  unfold readHeader
  rw [if_neg (by unfold HEADER_SIZE; omega), hat]
  simp only [Option.bind_eq_bind, Option.bind_some]
  rw [if_neg (not_not.mpr hmagic), if_neg (not_not.mpr hversion), hchecked, if_neg (not_not.mpr hcrc),
    if_neg (not_not.mpr hbytes)]

/-! ## Instruments -/

/-- What is read of a directory entry and its table entry, under the name of the underlying. -/
def Instrument.of (e : DirEntry) (t : TableEntry) (underlying : String) : Instrument where
  underlying := underlying
  kind := kindText t.kind.toNat
  right := rightText t.right.toNat
  expiry := t.expiry.toInt
  strikeMinor := t.strikeMinor.toInt
  lotSize := t.lotSize.toInt
  tickMinor := t.tickMinor.toInt
  rowCount := e.rowCount.toNat
  firstNs := e.firstTs.toInt
  lastNs := e.lastTs.toInt
  blobOffset := e.blobOffset.toInt
  blobBytes := e.blobBytes.toNat
  blobCrc := e.blobCrc.toNat

/-- A table holds `n` structures, each of `size` bytes and where it should be. -/
theorem unpackAt_readMany {α β : Type} {size n i : Nat} {format : Reader β} {read : Reader α} {of : α → β} {raw : Bytes} {x : α}
    (hformat : ∀ p, (format p).1 = of (read p).1) (hsize : ∀ p, (read p).2 = p.drop size) (hlen : n * size ≤ raw.length)
    (hi : (readMany read n raw).1[i]? = some x) : unpackAt size format raw (i * size : Nat) = some (of x) := by
  have hlt : i < n := by
    have hbound := (List.getElem?_eq_some_iff.mp hi).1
    rwa [length_readMany] at hbound
  have hfits : i * size + size ≤ raw.length := by
    have hmul : (i + 1) * size ≤ n * size := Nat.mul_le_mul_right size hlt
    rw [Nat.succ_mul] at hmul
    omega
  rw [getElem?_readMany hsize n i hlt, Option.some.injEq] at hi
  rw [unpackAt_eq format _ _ hfits, hformat, hi]

/-- An entry the engine has checked is read, if its name is UTF-8. -/
theorem readInstrument_of_checked {path : String} {m : Metadata} {table directory : Bytes} {e : DirEntry} {t : TableEntry}
    {i : Nat} (htable : m.table = (readMany TableEntry.read (table.length / TableEntry.size) table).1)
    (hdirectory : m.directory = (readMany DirEntry.read (directory.length / DirEntry.size) directory).1)
    (he : m.directory[i]? = some e) (ht : VfdaySession.checkEntry path m e = .ok t) :
    readInstrument table m.strings directory i = (decode (VfdaySession.nameOf m t)).map (Instrument.of e t) := by
  obtain ⟨hindex, hat, _⟩ := VfdaySession.checkEntry_eq_ok.mp ht
  rw [hdirectory] at he
  rw [htable] at hat
  have hd : unpackAt DIR_SIZE DIR_FMT directory (i * DIR_SIZE : Nat) = some (DirRow.of e) :=
    unpackAt_readMany DIR_FMT_eq DirEntry.read_drop (Nat.div_mul_le_self ..) he
  have htr : unpackAt TABLE_SIZE TABLE_FMT table ((DirRow.of e).idx * TABLE_SIZE) = some (TableRow.of t) := by
    have hnonneg : ((DirRow.of e).idx * TABLE_SIZE : Int) = (e.tableIndex.toInt.toNat * TABLE_SIZE : Nat) := by
      rw [Int32.lt_iff_toInt_lt, Int32.toInt_zero] at hindex
      rw [Nat.cast_mul, Int.toNat_of_nonneg (by omega)]
      rfl
    rw [hnonneg]
    exact unpackAt_readMany TABLE_FMT_eq TableEntry.read_drop (Nat.div_mul_le_self ..) hat
  have hname : slice m.strings (TableRow.of t).uOff ((TableRow.of t).uOff + (TableRow.of t).uLen : Nat) =
      VfdaySession.nameOf m t := slice_window ..
  unfold readInstrument
  rw [hd]
  simp only [Option.bind_eq_bind, Option.bind_some]
  rw [htr]
  simp only [Option.bind_some]
  rw [hname]
  exact Option.map_eq_bind.symm

/-! ## Opening -/

theorem mapM_eq_some {α β : Type} {f : α → Option β} {xs : List α} {ys : List β} :
    xs.mapM f = some ys ↔ xs.map f = ys.map some := by
  induction xs generalizing ys with
  | nil =>
      cases ys with
      | nil => exact iff_of_true rfl rfl
      | cons y ys => exact iff_of_false nofun nofun
  | cons x xs ih =>
      rw [List.mapM_cons, Option.bind_eq_bind, Option.bind_eq_some_iff, List.map_cons]
      constructor
      · rintro ⟨y, hx, h⟩
        obtain ⟨ys', hxs, h⟩ := Option.bind_eq_some_iff.mp h
        cases h
        rw [hx, ih.mp hxs, List.map_cons]
      · intro h
        cases ys with
        | nil => cases h
        | cons y ys =>
            obtain ⟨hx, hxs⟩ := List.cons.inj h
            exact ⟨y, hx, by rw [ih.mpr hxs]; rfl⟩

/-- The turns of the loop over the directory: one for each entry with its table entry. -/
theorem map_readInstrument {path : String} {m : Metadata} {table directory : Bytes} {ts : List TableEntry}
    (htable : m.table = (readMany TableEntry.read (table.length / TableEntry.size) table).1)
    (hdirectory : m.directory = (readMany DirEntry.read (directory.length / DirEntry.size) directory).1)
    (hts : List.Forall₂ (fun e t => VfdaySession.checkEntry path m e = .ok t) m.directory ts) :
    (List.range m.directory.length).map (readInstrument table m.strings directory) =
      (m.directory.zip ts).map (fun x => (decode (VfdaySession.nameOf m x.2)).map (Instrument.of x.1 x.2)) := by
  obtain ⟨hlen, hchecked⟩ := List.forall₂_iff_get.mp hts
  refine List.ext_getElem (by rw [List.length_map, List.length_map, List.length_range, List.length_zip, ← hlen, min_self]) ?_
  intro i hi _
  rw [List.length_map, List.length_range] at hi
  rw [List.getElem_map, List.getElem_map, List.getElem_range, List.getElem_zip]
  exact readInstrument_of_checked htable hdirectory (List.getElem?_eq_getElem hi) (hchecked i hi (hlen ▸ hi))

/-- The file `__init__` builds of metadata the engine has accepted: there is one when every name is decoded. -/
theorem init_eq_some {path : String} {file : Bytes} {m : Metadata} {ts : List TableEntry} {f : VfdayFile}
    (hsize : file.length < 2 ^ 63) (hm : VfdaySession.Accepted path file m)
    (hts : List.Forall₂ (fun e t => VfdaySession.checkEntry path m e = .ok t) m.directory ts) :
    VfdayFile.init file = some f ↔
      f.blob = file ∧ f.date = m.header.date.toInt ∧ f.totalRows = m.header.totalRows.toInt ∧
        f.timeline = m.timeline.map Int64.toInt ∧
        (m.directory.zip ts).map (fun x => (decode (VfdaySession.nameOf m x.2)).map (Instrument.of x.1 x.2)) =
          f.instruments.map some := by
  obtain ⟨hheader, ⟨table, htable, htable'⟩, _, hstrings, ⟨directory, hdirectory, hdirectory', hcount⟩, _,
    ⟨timeline, htimeline, htimeline'⟩, _⟩ := hm
  obtain ⟨htableRead, _⟩ := region_of_readRegion htable
  obtain ⟨hstringsRead, _⟩ := region_of_readRegion hstrings
  obtain ⟨hdirectoryRead, _⟩ := region_of_readRegion hdirectory
  obtain ⟨htimelineRead, htimelineLen⟩ := region_of_readRegion htimeline
  rw [UInt32.toNat_toUInt64] at htableRead hstringsRead hdirectoryRead
  rw [toNat_timelineSize] at htimelineRead htimelineLen
  have htimes : unpackAt (m.header.timelineCount.toNat * 8) (readMany (signed 8) m.header.timelineCount.toNat) timeline 0 =
      some (m.timeline.map Int64.toInt) := by
    have hat := unpackAt_eq (readMany (signed 8) m.header.timelineCount.toNat) timeline 0
      (by omega : 0 + m.header.timelineCount.toNat * 8 ≤ timeline.length)
    rw [List.drop_zero, readMany_signed, Nat.cast_zero] at hat
    rw [hat, htimeline', List.map_map]
    rfl
  have hlen : m.header.instrumentCount.toInt.toNat = m.directory.length := by
    rw [hdirectory', length_readMany, hcount]
  unfold VfdayFile.init
  rw [readHeader_of_checked hsize hheader]
  simp only [Option.bind_eq_bind, Option.bind_some, Header.of, htableRead, hstringsRead, htimelineRead, hdirectoryRead,
    htimes]
  rw [hlen, ← map_readInstrument htable' hdirectory' hts]
  constructor
  · intro h
    obtain ⟨insts, hinsts, h⟩ := Option.bind_eq_some_iff.mp h
    cases h
    exact ⟨rfl, rfl, rfl, rfl, mapM_eq_some.mp hinsts⟩
  · obtain ⟨blob, date, totalRows, times, insts⟩ := f
    rintro ⟨rfl, rfl, rfl, rfl, hinsts⟩
    exact Option.bind_eq_some_iff.mpr ⟨insts, mapM_eq_some.mpr hinsts, rfl⟩

/-- An instrument of the reference reader is the contract, under its name. -/
structure Describes (inst : Instrument) (spec : InstrumentSpec) (name : Bytes) : Prop where
  underlying : decode name = some inst.underlying
  kind : inst.kind = kindText spec.kind.toByte.toNat
  right : inst.right = rightText spec.right.toByte.toNat
  expiry : inst.expiry = spec.expiry.yyyymmdd.toInt
  strike : inst.strikeMinor = spec.strike.toInt
  lotSize : inst.lotSize = spec.lotSize.toInt
  tickSize : inst.tickMinor = spec.tickSize.toInt

/-- An instrument of the reference reader has the rows of an entry. -/
structure Locates (inst : Instrument) (e : Entry) : Prop where
  rowCount : inst.rowCount = e.rowCount.toNat
  firstNs : inst.firstNs = e.first.toInt
  lastNs : inst.lastNs = e.last.toInt
  blobOffset : inst.blobOffset = e.blobOffset.toInt
  blobBytes : inst.blobBytes = e.blobBytes.toNat
  blobCrc : inst.blobCrc = e.blobCrc.toNat

/-- The two readers have opened the same file. -/
structure SameFile (s : VfdaySession) (r : InstrumentRegistry) (f : VfdayFile) : Prop where
  date : f.date = s.date.yyyymmdd.toInt
  totalRows : f.totalRows = s.totalRows.toNat
  timeline : f.timeline = s.timeline
  instruments : List.Forall₂ (fun id inst => ∃ spec name e, r.spec id = .ok spec ∧
    r.underlyingName spec.underlying = .ok name ∧ s.entries.lookup id = some e ∧ Describes inst spec name ∧
    Locates inst e) s.instruments f.instruments

/-- The rows of a directory do not wrap: there are not that many entries. -/
theorem rowsOf_le (es : List DirEntry) (rows : UInt64) :
    (VfdaySession.rowsOf es rows).toNat ≤ rows.toNat + es.length * 2 ^ 32 := by
  induction es generalizing rows with
  | nil => exact Nat.le_add_right ..
  | cons e es ih =>
      have hrest := ih (rows + e.rowCount.toUInt64)
      have hsum : (rows + e.rowCount.toUInt64).toNat ≤ rows.toNat + e.rowCount.toNat := by
        rw [UInt64.toNat_add, UInt32.toNat_toUInt64]
        exact Nat.mod_le _ _
      have hlt := e.rowCount.toNat_lt
      rw [List.length_cons]
      refine le_trans hrest ?_
      omega

theorem totalRows_nonneg {path : String} {file : Bytes} {m : Metadata} (hm : VfdaySession.Accepted path file m)
    (hrows : VfdaySession.rowsOf m.directory 0 = m.header.totalRows.toUInt64) :
    m.header.totalRows.toInt = m.header.totalRows.toUInt64.toNat := by
  obtain ⟨raw, hraw, hdirectory, _⟩ := hm.directory
  obtain ⟨_, hlen⟩ := region_of_readRegion hraw
  rw [UInt32.toNat_toUInt64] at hlen
  have hcount : m.directory.length = raw.length / 40 := by
    rw [hdirectory, length_readMany]
    rfl
  have hbytes := m.header.directoryBytes.toNat_lt
  have hle := rowsOf_le m.directory 0
  rw [hrows, UInt64.toNat_zero] at hle
  rw [toInt_eq_cond, if_pos (by omega)]

/-- The contracts an opened file lists, with the entries they come from. -/
theorem opened_listed {path : String} (file : Bytes) {m : Metadata} {ts : List TableEntry}
    (hts : List.Forall₂ (fun e t => VfdaySession.checkEntry path m e = .ok t) m.directory ts)
    (hnodup : (VfdaySession.registerMany m ts {}).1.Nodup) :
    List.Forall₂ (fun id (x : DirEntry × TableEntry) => ∃ spec, (VfdaySession.registerMany m ts {}).2.spec id = .ok spec ∧
        (VfdaySession.registerMany m ts {}).2.underlyingName spec.underlying = .ok (VfdaySession.nameOf m x.2) ∧
        spec = { VfdaySession.specOf x.2 spec.underlying with id := id } ∧
        ((VfdaySession.startSession path file m).extend (VfdaySession.registerMany m ts {}).1
          m.directory).entries.lookup id = some (VfdaySession.entryOf x.1))
      (VfdaySession.registerMany m ts {}).1 (m.directory.zip ts) := by
  have hlen := hts.length_eq
  have hresolved := VfdaySession.registerMany_resolved InstrumentRegistry.sound_empty m ts hnodup
  have hentries : ((VfdaySession.startSession path file m).extend (VfdaySession.registerMany m ts {}).1
      m.directory).entries = (VfdaySession.registerMany m ts {}).1.zip (m.directory.map VfdaySession.entryOf) := rfl
  rw [hentries]
  obtain ⟨hlen', hresolved⟩ := List.forall₂_iff_get.mp hresolved
  refine List.forall₂_iff_get.mpr ⟨by rw [List.length_zip, hlen, min_self, hlen'], fun n hn hn' => ?_⟩
  rw [List.length_zip, lt_min_iff] at hn'
  obtain ⟨u, spec, hu, hspec, _, hcase⟩ := hresolved n hn hn'.2
  simp only [List.get_eq_getElem, List.getElem_zip] at hu hspec hcase ⊢
  rcases hcase with ⟨i, _, hget⟩ | hcase
  · cases hget
  · rw [hcase] at hspec
    refine ⟨_, InstrumentRegistry.spec_eq_ok.mpr hspec, InstrumentRegistry.underlyingName_eq_ok.mpr hu, rfl, ?_⟩
    exact lookup_zip hnodup (List.getElem?_eq_getElem hn) (by rw [List.getElem?_map, List.getElem?_eq_getElem hn'.1]; rfl)

/-- What `__init__` makes of an entry with its table entry. -/
theorem describes_of {m : Metadata} {e : DirEntry} {t : TableEntry} (id : InstrumentId) (u : UnderlyingId) {inst : Instrument}
    (h : (decode (VfdaySession.nameOf m t)).map (Instrument.of e t) = some inst) :
    Describes inst { VfdaySession.specOf t u with id := id } (VfdaySession.nameOf m t) ∧
      Locates inst (VfdaySession.entryOf e) := by
  obtain ⟨underlying, hdecode, rfl⟩ := Option.map_eq_some_iff.mp h
  refine ⟨⟨hdecode, ?_, ?_, rfl, rfl, rfl, rfl⟩, ⟨rfl, rfl, rfl, rfl, rfl, rfl⟩⟩
  · exact congrArg (fun b => kindText b.toNat) (InstrumentKind.toByte_ofByte t.kind).symm
  · exact congrArg (fun b => rightText b.toNat) (Right.toByte_ofByte t.right).symm

section Opened

variable {path : String} {file : Bytes} {s : VfdaySession} {r : InstrumentRegistry}

/-- **The reference reader sees the file the engine has opened.** -/
theorem sameFile_of_init (hsize : file.length < 2 ^ 63) (h : VfdaySession.openFile path file {} = (.ok s, r)) {f : VfdayFile}
    (hf : VfdayFile.init file = some f) : f.blob = file ∧ SameFile s r f := by
  obtain ⟨m, ts, hm, hts, hnodup, rfl, hrows, rfl⟩ := VfdaySession.openFile_eq_ok.mp h
  obtain ⟨hblob, hdate, htotal, htimeline, hinsts⟩ := (init_eq_some hsize hm hts).mp hf
  refine ⟨hblob, hdate, htotal.trans (totalRows_nonneg hm hrows), htimeline, ?_⟩
  have hread : List.Forall₂ (fun (x : DirEntry × TableEntry) inst =>
      (decode (VfdaySession.nameOf m x.2)).map (Instrument.of x.1 x.2) = some inst) (m.directory.zip ts) f.instruments := by
    rw [← List.forall₂_eq_eq_eq, List.forall₂_map_left_iff, List.forall₂_map_right_iff] at hinsts
    exact hinsts
  refine (related_comp (opened_listed file hts hnodup) hread).imp ?_
  rintro id inst ⟨⟨e, t⟩, ⟨spec, hspec, hname, heq, hlookup⟩, hinst⟩
  obtain ⟨hdescribes, hlocates⟩ := describes_of id spec.underlying hinst
  rw [← heq] at hdescribes
  exact ⟨spec, _, _, hspec, hname, hlookup, hdescribes, hlocates⟩

/-- It opens the file when the names of the contracts are UTF-8. -/
theorem exists_init_of_names (hsize : file.length < 2 ^ 63) (h : VfdaySession.openFile path file {} = (.ok s, r))
    (hnames : ∀ id ∈ s.instruments, ∃ spec name underlying, r.spec id = .ok spec ∧
      r.underlyingName spec.underlying = .ok name ∧ decode name = some underlying) : ∃ f, VfdayFile.init file = some f := by
  obtain ⟨m, ts, hm, hts, hnodup, rfl, _, rfl⟩ := VfdaySession.openFile_eq_ok.mp h
  have hlisted := opened_listed file hts hnodup
  have hsome : ∀ x ∈ m.directory.zip ts, ∃ inst,
      (decode (VfdaySession.nameOf m x.2)).map (Instrument.of x.1 x.2) = some inst := by
    intro x hx
    obtain ⟨id, hid, spec, hspec, hname, _⟩ := exists_of_mem_right hlisted hx
    obtain ⟨spec', name, underlying, hspec', hname', hdecode⟩ := hnames id hid
    rw [hspec, Except.ok.injEq] at hspec'
    rw [← hspec', hname, Except.ok.injEq] at hname'
    exact ⟨_, by rw [hname', hdecode]; rfl⟩
  obtain ⟨insts, hinsts⟩ := exists_related hsome
  exact ⟨_, (init_eq_some (f := ⟨_, _, _, _, insts⟩) hsize hm hts).mpr ⟨rfl, rfl, rfl, rfl, map_eq_map hinsts (fun _ _ h => h)⟩⟩

/-- **The specification opens what the engine opens.** Of a file the engine opens into a fresh registry, the reference
    reader sees the same date, rows, timeline and contracts, in the same order and with the same terms; it fails
    exactly when the name of a contract is not UTF-8, which the engine does not ask for. -/
theorem reference_opens_alike (hsize : file.length < 2 ^ 63) (h : VfdaySession.openFile path file {} = (.ok s, r)) :
    ((∃ f, VfdayFile.init file = some f) ↔ ∀ id ∈ s.instruments, ∃ spec name underlying, r.spec id = .ok spec ∧
      r.underlyingName spec.underlying = .ok name ∧ decode name = some underlying) ∧
    ∀ f, VfdayFile.init file = some f → SameFile s r f := by
  refine ⟨⟨?_, exists_init_of_names hsize h⟩, fun f hf => (sameFile_of_init hsize h hf).2⟩
  rintro ⟨f, hf⟩ id hid
  obtain ⟨inst, _, spec, name, _, hspec, hname, _, hdescribes, _⟩ :=
    exists_of_mem_left (sameFile_of_init hsize h hf).2.instruments hid
  exact ⟨spec, name, _, hspec, hname, hdescribes.underlying⟩

end Opened

/-! ### Two contracts -/

/-- "NIFTY" and "BANKNIFTY". -/
def nifty : Bytes := [78, 73, 70, 84, 89]
def bankNifty : Bytes := [66, 65, 78, 75, 78, 73, 70, 84, 89]

/-- A call on the one, struck at 24500.00, and a put on the other, struck at 56000.00. -/
def twoNames : InstrumentRegistry :=
  ((((({} : InstrumentRegistry).internUnderlying nifty).1.internUnderlying bankNifty).1.add
    { underlying := 0, kind := .Option, expiry := ⟨20250703⟩, strike := 2450000, lotSize := 75 }).1.add
      { underlying := 1, kind := .Option, expiry := ⟨20250731⟩, strike := 5600000, right := .Put, lotSize := 35 }).1

/-- The call prints once, the put twice. -/
def twoNamesSession : SessionData := { quietSession with registry := twoNames }

/-- What a session promises says nothing of its registry. -/
theorem twoNamesSession_contract : twoNamesSession.Contract :=
  ⟨quietSession_contract.nodup, quietSession_contract.listed, quietSession_contract.aligned,
    quietSession_contract.ascending, quietSession_contract.located, quietSession_contract.total,
    quietSession_contract.eventOrder, quietSession_contract.timeline.imp_right (fun h => ⟨h.ascending, h.mem_iff⟩),
    quietSession_contract.printedBy⟩

/-- The two contracts as items. -/
def twoNamesItem (id : InstrumentId) : Item :=
  if id = 0 then ⟨{ id := 0, underlying := 0, kind := .Option, expiry := ⟨20250703⟩, strike := 2450000, lotSize := 75 },
    nifty, flatQuotes [1]⟩
  else ⟨{ id := 1, underlying := 1, kind := .Option, expiry := ⟨20250731⟩, strike := 5600000, right := .Put, lotSize := 35 },
    bankNifty, flatQuotes [1, 2]⟩

theorem twoNamesSession_itemOf {id : InstrumentId} (hid : id ∈ twoNamesSession.instruments) :
    twoNamesSession.ItemOf id (twoNamesItem id) := by
  have hid : id ∈ [(0 : InstrumentId), 1] := hid
  rcases List.mem_cons.mp hid with rfl | hid
  · exact ⟨rfl, rfl, rfl⟩
  · rw [List.mem_singleton.mp hid]
    exact ⟨rfl, rfl, rfl⟩

theorem twoNamesSession_registered : twoNamesSession.Registered where
  resolves := fun id hid => ⟨_, twoNamesSession_itemOf hid⟩
  distinct := by
    intro id hid id' hid' i i' hi hi' heq
    rw [hi.unique (twoNamesSession_itemOf hid), hi'.unique (twoNamesSession_itemOf hid')] at heq
    have hall : ∀ id ∈ [(0 : InstrumentId), 1], ∀ id' ∈ [(0 : InstrumentId), 1],
        (twoNamesItem id).identity = (twoNamesItem id').identity → id = id' := by decide
    exact hall id hid id' hid' heq

theorem twoNamesSession_fitsFormat : twoNamesSession.FitsFormat := by
  refine SessionData.fitsFormat_of_le 2 9 twoNamesSession_registered twoNamesSession_contract.aligned ?_ ?_ (by decide)
    (by decide) (by decide)
  · decide
  · intro id hid i hi
    rw [hi.unique (twoNamesSession_itemOf hid)]
    have hall : ∀ id ∈ [(0 : InstrumentId), 1], (twoNamesItem id).name.length ≤ 9 := by decide
    exact hall id hid

/-- Both names are text. -/
theorem decode_twoNames {id : InstrumentId} (hid : id ∈ twoNamesSession.instruments) :
    ∃ underlying, decode (twoNamesItem id).name = some underlying := by
  have hid : id ∈ [(0 : InstrumentId), 1] := hid
  rcases List.mem_cons.mp hid with rfl | hid
  · exact ⟨"NIFTY", by decide⟩
  · rw [List.mem_singleton.mp hid]
    exact ⟨"BANKNIFTY", by decide⟩

theorem reference_opens_alike_two : ∃ file s r f,
    VfdaySession.openFile "2025-07-01.vfday" file {} = (.ok s, r) ∧ s.instruments.length = 2 ∧
      VfdayFile.init file = some f ∧ SameFile s r f := by
  obtain ⟨w, items, hw⟩ := SessionData.exists_written twoNamesSession_contract twoNamesSession_registered
    twoNamesSession_fitsFormat (by decide +kernel)
  have hdescribed : (w.image twoNamesSession (timelineOf twoNamesSession)).Described := hw.fits.described hw.ascending
  have hopen := hw.opens "2025-07-01.vfday" InstrumentRegistry.sound_empty
  obtain ⟨hopens, hsame⟩ := reference_opens_alike (hdescribed.length_bytes ▸ hdescribed.size_lt) hopen
  have hreread := hw.reread_empty "2025-07-01.vfday"
  obtain ⟨f, hf⟩ := hopens.mpr (fun id' hid' => by
    obtain ⟨id, hid, _, i, u, hi, hu, hs⟩ := exists_of_mem_right hreread hid'
    have hlisted := (List.mem_filter.mp hid).1
    obtain rfl := hi.unique (twoNamesSession_itemOf hlisted)
    obtain ⟨underlying, hdecode⟩ := decode_twoNames hlisted
    exact ⟨_, _, underlying, InstrumentRegistry.spec_eq_ok.mpr hs, InstrumentRegistry.underlyingName_eq_ok.mpr hu, hdecode⟩)
  have hprinting : twoNamesSession.printing = [0, 1] := by decide
  refine ⟨_, _, _, f, hopen, ?_, hf, hsame f hf⟩
  rw [← hreread.length_eq, hprinting]
  rfl

/-! ## Written files -/

/-- The columns of quotes under the reader's names for them, as integers. -/
def columnsOf (c : QuoteColumns) : List (String × List Int) :=
  COLUMNS.zip [c.ts.map Int64.toInt, c.last.map Int32.toInt, c.bid.map Int32.toInt, c.ask.map Int32.toInt,
    c.bidQty.map Int32.toInt, c.askQty.map Int32.toInt, c.lastQty.map Int32.toInt, c.openInterest.map Int64.toInt]

/-- The reference reader has a session: each instrument that prints, with its contract and its columns. -/
structure HasSession (session : SessionData) (f : VfdayFile) : Prop where
  date : f.date = session.date.yyyymmdd.toInt
  totalRows : f.totalRows = session.totalObservations
  timeline : f.timeline = timelineOf session
  instruments : List.Forall₂ (fun id inst => ∃ spec name, session.registry.spec id = .ok spec ∧
    session.registry.underlyingName spec.underlying = .ok name ∧ Describes inst spec name) session.printing f.instruments
  quotes : ∀ k id, session.printing[k]? = some id → f.quotes k = some (columnsOf (session.quotes id))

/-- One turn of the loop over columns. -/
theorem readColumns_cons {values : List Int64} {rowCount : Nat} (hlen : values.length = rowCount) (hrows : rowCount < 2 ^ 64)
    (name : String) (names : List String) (rest : Bytes) :
    readColumns rowCount (name :: names) (encodeColumn values ++ rest) =
      (readColumns rowCount names rest).map (fun x => ((name, values.map Int64.toInt) :: x.1, x.2)) := by
  rw [readColumns, readColumn_encodeColumn (hlen ▸ hrows)]
  simp only [Option.bind_eq_bind, Option.bind_some]
  rw [if_neg (not_not.mpr ((List.length_map _).trans hlen))]
  exact Option.map_eq_bind.symm

/-- The columns of an instrument are read, and nothing is left. -/
theorem readColumns_encodeColumns {c : QuoteColumns} (haligned : c.Aligned) (hrows : c.size < 2 ^ 64) :
    readColumns c.size COLUMNS (encodeColumns c) = some (columnsOf c, []) := by
  obtain ⟨hlast, hbid, hask, hbidQty, haskQty, hlastQty, hinterest⟩ := haligned
  have hwide : ∀ {xs : List Int32}, xs.length = c.ts.length → (xs.map (·.toInt64)).length = c.size := by
    intro xs hxs
    rw [List.length_map, hxs]
    rfl
  have hcut : ∀ xs : List Int32, (xs.map (·.toInt64)).map Int64.toInt = xs.map Int32.toInt := by
    intro xs
    rw [List.map_map]
    exact List.map_congr_left (fun x _ => Int32.toInt_toInt64 x)
  have hts : c.ts.length = c.size := rfl
  have htail : encodeColumn c.openInterest = encodeColumn c.openInterest ++ [] := (List.append_nil _).symm
  unfold encodeColumns COLUMNS
  rw [readColumns_cons hts hrows, readColumns_cons (hwide hlast) hrows, readColumns_cons (hwide hbid) hrows,
    readColumns_cons (hwide hask) hrows, readColumns_cons (hwide hbidQty) hrows, readColumns_cons (hwide haskQty) hrows,
    readColumns_cons (hwide hlastQty) hrows, htail, readColumns_cons (hinterest.trans hts) hrows]
  simp only [hcut]
  rfl

end Volforge.ReferenceReader

namespace Volforge.Writer

open ReferenceReader

/-- What is filed of an item: its directory entry, which points at its blob, and its table entry. -/
structure Filed (strings file : Bytes) (i : Item) (x : DirEntry × TableEntry) : Prop where
  entered : Entered strings x.2 i
  entry : ∃ n offset, x.1 = i.dirEntry n offset
  start : 0 ≤ x.1.blobOffset.toInt
  blob : readAt file x.1.blobOffset x.1.blobBytes.toNat = some i.blob
  fits : i.Fits

/-- The blob of an item is where its directory entry says. -/
theorem Holds.readAt_blob {w : Writer} {items : List Item} (h : w.Holds items) (session : SessionData)
    {timeline : List Timestamp} (hfits : w.Fits timeline) {n : Nat} {i : Item} (hitem : items[n]? = some i) (hi : i.Fits)
    {e : DirEntry} (he : e = i.dirEntry n (Item.payload (items.take n)).length) :
    0 ≤ e.blobOffset.toInt ∧
      readAt (w.image session timeline).bytes e.blobOffset e.blobBytes.toNat = some i.blob := by
  have hheader : (headerOf session w timeline).bytes.length = FileHeader.size := FileHeader.length_bytes rfl
  have hsplit := Item.payload_split hitem
  have hblobBytes : e.blobBytes.toNat = i.blob.length := by
    rw [he]
    exact UInt32.toNat_ofNat_of_lt' hi.blob
  have hoffset : e.blobOffset.toInt = ((headerOf session w timeline).bytes ++ Item.payload (items.take n)).length := by
    have hbound := hfits.blob
    rw [h.blob, hsplit, List.length_append] at hbound
    rw [List.length_append, hheader, he]
    exact Int64.toInt_ofNat_of_lt (by unfold FileHeader.size; omega)
  have hfile : (w.image session timeline).bytes =
      ((headerOf session w timeline).bytes ++ Item.payload (items.take n)) ++
        (i.blob ++ (Item.payload (items.drop (n + 1)) ++ (w.table.flatMap TableEntry.bytes ++ (w.strings ++
          ((timeline.map Int64.ofInt).flatMap (fun t => put64 t.toUInt64) ++ w.directory.flatMap DirEntry.bytes))))) := by
    show _ ++ (w.blob ++ _) = _
    rw [h.blob, hsplit, List.append_assoc, List.append_assoc, List.append_assoc]
    rfl
  refine ⟨by rw [hoffset]; exact Int.natCast_nonneg _, ?_⟩
  rw [hfile, readAt_append hoffset hblobBytes.le, hblobBytes, List.take_length]

/-- Every item is filed, in order. -/
theorem Holds.filed {w : Writer} {items : List Item} (h : w.Holds items) (session : SessionData)
    {timeline : List Timestamp} (hfits : w.Fits timeline) (hitems : ∀ i ∈ items, i.Fits) :
    List.Forall₂ (Filed w.strings (w.image session timeline).bytes) items (w.directory.zip w.table) := by
  have hlenD : w.directory.length = items.length := by rw [h.directory, Item.length_directoryFrom]
  have hlenT : w.table.length = items.length := h.table.length_eq
  refine List.forall₂_iff_get.mpr ⟨by rw [List.length_zip, hlenD, hlenT, min_self], fun n hn hn' => ?_⟩
  simp only [List.get_eq_getElem, List.getElem_zip]
  have hitem : items[n]? = some items[n] := List.getElem?_eq_getElem hn
  have hentry : w.directory[n] = items[n].dirEntry n (Item.payload (items.take n)).length := by
    have hget := Item.getElem?_directoryFrom 0 0 items n
    rw [← h.directory, hitem, List.getElem?_eq_getElem (hlenD ▸ hn), Option.map_some, Option.some.injEq, Nat.zero_add,
      Nat.zero_add] at hget
    exact hget
  have hi := hitems _ (List.getElem_mem hn)
  obtain ⟨hstart, hblob⟩ := h.readAt_blob session hfits hitem hi hentry
  exact ⟨(List.forall₂_iff_get.mp h.table).2 n (hlenT ▸ hn) hn, ⟨n, _, hentry⟩, hstart, hblob, hi⟩

end Volforge.Writer

namespace Volforge.ReferenceReader

open IdTable

/-- The reader decodes what is filed of an item. -/
theorem quotes_of_filed {strings : Bytes} {f : VfdayFile} {k : Nat} {i : Item} {x : DirEntry × TableEntry}
    {underlying : String} (hfiled : Writer.Filed strings f.blob i x)
    (hinst : f.instruments[k]? = some (Instrument.of x.1 x.2 underlying)) : f.quotes k = some (columnsOf i.columns) := by
  obtain ⟨n, offset, hentry⟩ := hfiled.entry
  have hi := hfiled.fits
  have hraw : slice f.blob x.1.blobOffset.toInt (x.1.blobOffset.toInt + x.1.blobBytes.toNat) = i.blob := by
    obtain ⟨_, hraw, _⟩ := readAt_eq_some hfiled.blob
    rw [hraw]
    exact slice_eq hfiled.start
  have hcrc : zlibCrc32 i.blob = x.1.blobCrc.toNat := by
    have hbytes : (UInt32.ofNat i.blob.length).toNat = i.blob.length := UInt32.toNat_ofNat_of_lt' hi.blob
    have hcut : x.1.blobCrc = crc32 (i.blob.take (UInt32.ofNat i.blob.length).toNat) := by rw [hentry, Item.dirEntry]
    rw [hcut, hbytes, List.take_length]
    rfl
  have hrows : x.1.rowCount.toNat = i.columns.size := by
    rw [hentry]
    exact UInt32.toNat_ofNat_of_lt' hi.rows
  have hcolumns : readColumns i.columns.size COLUMNS i.blob = some (columnsOf i.columns, []) :=
    readColumns_encodeColumns hi.aligned (lt_trans hi.rows (by norm_num))
  unfold VfdayFile.quotes
  rw [hinst]
  simp only [Option.bind_eq_bind, Option.bind_some, Instrument.of]
  rw [hraw, if_neg (not_not.mpr hcrc), hrows, hcolumns]
  rfl

theorem describes_of_entered {strings : Bytes} {e : DirEntry} {t : TableEntry} {i : Item} {underlying : String}
    (h : Writer.Entered strings t i) (hdecode : decode i.name = some underlying) :
    Describes (Instrument.of e t underlying) i.spec i.name where
  underlying := hdecode
  kind := congrArg (fun b : UInt8 => kindText b.toNat) h.kind
  right := congrArg (fun b : UInt8 => rightText b.toNat) h.right
  expiry := congrArg Int32.toInt h.expiry
  strike := congrArg Int32.toInt h.strike
  lotSize := congrArg Int32.toInt h.lotSize
  tickSize := congrArg Int32.toInt h.tickSize

section Written

variable {session : SessionData} {w : Writer} {items : List Item}

/-- The file of a session, as a file. -/
abbrev fileOf (session : SessionData) (w : Writer) : Bytes := (w.image session (timelineOf session)).bytes

/-- The reader opens the file of a session when the names are UTF-8, and makes of each item what is filed of it. -/
theorem init_of_written (hw : session.Written w items) {f : VfdayFile} (hf : VfdayFile.init (fileOf session w) = some f) :
    f.blob = fileOf session w ∧ List.Forall₂ (fun i inst => ∃ x underlying, Writer.Filed w.strings (fileOf session w) i x ∧
      decode i.name = some underlying ∧ inst = Instrument.of x.1 x.2 underlying) items f.instruments := by
  have hdescribed : (w.image session (timelineOf session)).Described := hw.fits.described hw.ascending
  obtain ⟨hblob, _, _, _, hinsts⟩ := (init_eq_some (hdescribed.length_bytes ▸ hdescribed.size_lt)
    hdescribed.accepted (hw.holds.checked hw.fits hw.itemFits "")).mp hf
  rw [← List.forall₂_eq_eq_eq, List.forall₂_map_left_iff, List.forall₂_map_right_iff] at hinsts
  refine ⟨hblob, (related_comp (hw.holds.filed session hw.fits hw.itemFits) hinsts).imp ?_⟩
  rintro i inst ⟨x, hfiled, hinst⟩
  obtain ⟨underlying, hdecode, rfl⟩ := Option.map_eq_some_iff.mp hinst
  rw [hfiled.entered.nameOf] at hdecode
  exact ⟨x, underlying, hfiled, hdecode, rfl⟩

/-- **A written file is read in full**, when the reader opens it. -/
theorem hasSession_of_init (hc : session.Contract) (hw : session.Written w items) {f : VfdayFile}
    (hf : VfdayFile.init (fileOf session w) = some f) : HasSession session f := by
  have hdescribed : (w.image session (timelineOf session)).Described := hw.fits.described hw.ascending
  have hopen := hw.opens "" InstrumentRegistry.sound_empty
  obtain ⟨_, hsame⟩ := sameFile_of_init (hdescribed.length_bytes ▸ hdescribed.size_lt) hopen hf
  obtain ⟨hblob, hinsts⟩ := init_of_written hw hf
  refine ⟨hsame.date, hsame.totalRows.trans (congrArg Nat.cast (hw.reread_total "")),
    hsame.timeline.trans (hw.reread_timeline hc ""), (related_comp hw.taken hinsts).imp ?_, fun k id hk => ?_⟩
  · rintro id _ ⟨i, hi, x, underlying, hfiled, hdecode, rfl⟩
    exact ⟨i.spec, i.name, hi.spec, hi.name, describes_of_entered hfiled.entered hdecode⟩
  · obtain ⟨hklt, rfl⟩ := List.getElem?_eq_some_iff.mp hk
    obtain ⟨hlen, htaken⟩ := List.forall₂_iff_get.mp hw.taken
    obtain ⟨hlen', hinsts⟩ := List.forall₂_iff_get.mp hinsts
    have hitem := htaken k hklt (hlen ▸ hklt)
    obtain ⟨x, underlying, hfiled, _, hinst⟩ := hinsts k (hlen ▸ hklt) (hlen' ▸ hlen ▸ hklt)
    rw [List.get_eq_getElem, List.get_eq_getElem] at hitem
    rw [List.get_eq_getElem] at hfiled hinst
    rw [← hitem.columns]
    exact quotes_of_filed (hblob ▸ hfiled) (hinst ▸ List.getElem?_eq_getElem _)

/-- **The specification reads what the engine writes.** The file `write_vfday` makes of a session that fits is opened by
    the reference reader exactly when the names of the instruments that print are UTF-8; it then has the
    session's date, rows, timeline and contracts, and decodes every column to the session's own. -/
theorem reference_reads_written (hc : session.Contract) (hreg : session.Registered) (hfits : session.FitsFormat)
    (htimeline : (timelineOf session).length < 2 ^ 32) :
    ∃ file, writeVfday session = .ok file ∧
      ((∃ f, VfdayFile.init file = some f) ↔ ∀ id ∈ session.printing, ∃ spec name underlying,
        session.registry.spec id = .ok spec ∧ session.registry.underlyingName spec.underlying = .ok name ∧
        decode name = some underlying) ∧
      ∀ f, VfdayFile.init file = some f → HasSession session f := by
  obtain ⟨w, items, hw⟩ := SessionData.exists_written hc hreg hfits htimeline
  refine ⟨fileOf session w, hw.file, ⟨?_, fun hnames => ?_⟩, fun f hf => hasSession_of_init hc hw hf⟩
  · rintro ⟨f, hf⟩ id hid
    obtain ⟨inst, _, spec, name, hspec, hname, hdescribes⟩ :=
      exists_of_mem_left (hasSession_of_init hc hw hf).instruments hid
    exact ⟨spec, name, _, hspec, hname, hdescribes.underlying⟩
  · have hdescribed : (w.image session (timelineOf session)).Described := hw.fits.described hw.ascending
    refine exists_init_of_names (hdescribed.length_bytes ▸ hdescribed.size_lt)
      (hw.opens "" InstrumentRegistry.sound_empty) (fun id' hid' => ?_)
    obtain ⟨id, hid, _, i, u, hi, hu, hs⟩ := exists_of_mem_right (hw.reread_empty "") hid'
    obtain ⟨spec, name, underlying, hspec, hname, hdecode⟩ := hnames id hid
    rw [hi.spec, Except.ok.injEq] at hspec
    rw [← hspec, hi.name, Except.ok.injEq] at hname
    exact ⟨_, i.name, underlying, InstrumentRegistry.spec_eq_ok.mpr hs, InstrumentRegistry.underlyingName_eq_ok.mpr hu,
      hname ▸ hdecode⟩

end Written

/-- What the reader knows of one of the two contracts. -/
theorem describes_twoNames {id : InstrumentId} (hid : id ∈ twoNamesSession.instruments) {inst : Instrument}
    (h : ∃ spec name, twoNamesSession.registry.spec id = .ok spec ∧
      twoNamesSession.registry.underlyingName spec.underlying = .ok name ∧ Describes inst spec name) :
    decode (twoNamesItem id).name = some inst.underlying ∧ inst.strikeMinor = (twoNamesItem id).spec.strike.toInt := by
  obtain ⟨spec, name, hspec, hname, hdescribes⟩ := h
  have hitem := twoNamesSession_itemOf hid
  obtain rfl : spec = (twoNamesItem id).spec := Except.ok.inj (hspec.symm.trans hitem.spec)
  obtain rfl : name = (twoNamesItem id).name := Except.ok.inj (hname.symm.trans hitem.name)
  exact ⟨hdescribes.underlying, hdescribes.strike⟩

theorem reference_reads_written_two : ∃ file f, writeVfday twoNamesSession = .ok file ∧
    VfdayFile.init file = some f ∧ HasSession twoNamesSession f ∧
      f.instruments.map (fun i => (i.underlying, i.strikeMinor)) = [("NIFTY", 2450000), ("BANKNIFTY", 5600000)] := by
  obtain ⟨file, hfile, hopens, hreads⟩ := reference_reads_written twoNamesSession_contract twoNamesSession_registered
    twoNamesSession_fitsFormat (by decide +kernel)
  obtain ⟨f, hf⟩ := hopens.mpr (fun id hid => by
    have hlisted := (List.mem_filter.mp hid).1
    obtain ⟨hspec, hname, _⟩ := twoNamesSession_itemOf hlisted
    obtain ⟨underlying, hdecode⟩ := decode_twoNames hlisted
    exact ⟨_, _, underlying, hspec, hname, hdecode⟩)
  have hsession := hreads f hf
  refine ⟨file, f, hfile, hf, hsession, ?_⟩
  have hinstruments := hsession.instruments
  rw [show twoNamesSession.printing = [0, 1] by decide] at hinstruments
  generalize f.instruments = instruments at hinstruments
  rcases hinstruments with _ | ⟨hcall, hinstruments⟩
  rcases hinstruments with _ | ⟨hput, hnil⟩
  cases hnil
  obtain ⟨hcallName, hcallStrike⟩ := describes_twoNames (by decide) hcall
  obtain ⟨hputName, hputStrike⟩ := describes_twoNames (by decide) hput
  have hnifty := Option.some.inj (hcallName.symm.trans (show decode (twoNamesItem 0).name = some "NIFTY" by decide))
  have hbank := Option.some.inj (hputName.symm.trans (show decode (twoNamesItem 1).name = some "BANKNIFTY" by decide))
  simp only [List.map_cons, List.map_nil, hnifty, hbank, hcallStrike, hputStrike]
  decide

end Volforge.ReferenceReader
