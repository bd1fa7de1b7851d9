import Volforge.Core.DataSource
import Volforge.Lib.Digits
import Volforge.Store.Codec

/-!
# `Store.Vfday` — the day store: one file per trading session

A file is a byte string. The packed structures of the source are read and written field by field, in order
and without padding; the structures, regions and columns have the widths the source gives them, and sums of
them wrap where the source's do.

`VfdaySession.openFile` registers contracts while it reads, so it answers with the registry it leaves behind as
well, on failure too. The file's bytes are part of the opened session: columns are decoded from them later.
A `std::map` is an association list, `emplace` appends.
-/

namespace Volforge

def kVfdayVersion : UInt32 := 3

/-- `"VFDAY003"`. -/
def kMagic : Bytes := [86, 70, 68, 65, 89, 48, 48, 51]

/-- `fail`: every error of this layer names the file. -/
def vfdayError (path why : String) : Error := .runtimeError ("vfday: " ++ path ++ ": " ++ why)

/-- `if (c) fail(path, why);` -/
def failIf (path : String) (c : Prop) [Decidable c] (why : String) : Except Error Unit :=
  if c then .error (vfdayError path why) else .ok ()

/-! ## Checksums -/

/-- One turn of the inner loop of `crc_table`. -/
def crcShift (c : UInt32) : UInt32 := if c &&& 1 ≠ 0 then (0xEDB88320 : UInt32) ^^^ (c >>> 1) else c >>> 1

/-- Entry `i` of `crc_table`. -/
def crcEntry (i : UInt32) : UInt32 :=
  crcShift (crcShift (crcShift (crcShift (crcShift (crcShift (crcShift (crcShift i)))))))

/-- The register after one more byte. -/
def crcByte (c : UInt32) (b : UInt8) : UInt32 := crcEntry ((c ^^^ b.toUInt32) &&& 0xFF) ^^^ (c >>> 8)

def crc32 (data : Bytes) : UInt32 := data.foldl crcByte 0xFFFFFFFF ^^^ 0xFFFFFFFF

/-! ## Fields -/

def put8 (x : UInt8) : Bytes := [x]
def put16 (x : UInt16) : Bytes := LittleEndian.bytes 2 x.toNat
def put32 (x : UInt32) : Bytes := LittleEndian.bytes 4 x.toNat
def put64 (x : UInt64) : Bytes := LittleEndian.bytes 8 x.toNat

/-- Reading consumes a byte string. -/
abbrev Reader := StateM Bytes

/-- The next `n` bytes. -/
def getBytes (n : Nat) : Reader Bytes := fun p => (p.take n, p.drop n)

def get8 : Reader UInt8 := fun p => (UInt8.ofNat (LittleEndian.value (p.take 1)), p.drop 1)
def get16 : Reader UInt16 := fun p => (UInt16.ofNat (LittleEndian.value (p.take 2)), p.drop 2)
def get32 : Reader UInt32 := fun p => (UInt32.ofNat (LittleEndian.value (p.take 4)), p.drop 4)
def get64 : Reader UInt64 := fun p => (UInt64.ofNat (LittleEndian.value (p.take 8)), p.drop 8)

/-! ## Structures -/

structure FileHeader where
  magic : Bytes := kMagic
  version : UInt32 := kVfdayVersion
  flags : UInt32 := 0
  date : Int32
  instrumentCount : Int32
  totalRows : Int64
  tableOffset : Int64
  tableBytes : UInt32
  tableCrc : UInt32
  stringsOffset : Int64
  stringsBytes : UInt32
  stringsCrc : UInt32
  timelineOffset : Int64
  timelineCount : UInt32
  timelineCrc : UInt32
  directoryOffset : Int64
  directoryBytes : UInt32
  directoryCrc : UInt32
  fileBytes : Int64
  headerCrc : UInt32 := 0
  reserved : UInt32 := 0
deriving DecidableEq

namespace FileHeader

/-- `sizeof(FileHeader)`. -/
def size : Nat := 112

/-- `offsetof(FileHeader, header_crc)`. -/
def crcOffset : Nat := 104

/-- The fields before `header_crc`. -/
def checkedBytes (h : FileHeader) : Bytes :=
  h.magic ++ (put32 h.version ++ (put32 h.flags ++ (put32 h.date.toUInt32 ++
    (put32 h.instrumentCount.toUInt32 ++ (put64 h.totalRows.toUInt64 ++
    (put64 h.tableOffset.toUInt64 ++ (put32 h.tableBytes ++ (put32 h.tableCrc ++
    (put64 h.stringsOffset.toUInt64 ++ (put32 h.stringsBytes ++ (put32 h.stringsCrc ++
    (put64 h.timelineOffset.toUInt64 ++ (put32 h.timelineCount ++ (put32 h.timelineCrc ++
    (put64 h.directoryOffset.toUInt64 ++ (put32 h.directoryBytes ++ (put32 h.directoryCrc ++
    put64 h.fileBytes.toUInt64)))))))))))))))))

def bytes (h : FileHeader) : Bytes := h.checkedBytes ++ (put32 h.headerCrc ++ put32 h.reserved)

def read : Reader FileHeader := do
  let magic ← getBytes 8
  let version ← get32
  let flags ← get32
  let date ← get32
  let instrumentCount ← get32
  let totalRows ← get64
  let tableOffset ← get64
  let tableBytes ← get32
  let tableCrc ← get32
  let stringsOffset ← get64
  let stringsBytes ← get32
  let stringsCrc ← get32
  let timelineOffset ← get64
  let timelineCount ← get32
  let timelineCrc ← get32
  let directoryOffset ← get64
  let directoryBytes ← get32
  let directoryCrc ← get32
  let fileBytes ← get64
  let headerCrc ← get32
  let reserved ← get32
  return { magic, version, flags, date := date.toInt32, instrumentCount := instrumentCount.toInt32,
           totalRows := totalRows.toInt64, tableOffset := tableOffset.toInt64, tableBytes, tableCrc,
           stringsOffset := stringsOffset.toInt64, stringsBytes, stringsCrc,
           timelineOffset := timelineOffset.toInt64, timelineCount, timelineCrc,
           directoryOffset := directoryOffset.toInt64, directoryBytes, directoryCrc,
           fileBytes := fileBytes.toInt64, headerCrc, reserved }

end FileHeader

structure TableEntry where
  underlyingOffset : UInt32
  underlyingLength : UInt32
  kind : UInt8
  right : UInt8
  reserved : UInt16 := 0
  expiry : Int32
  strikeMinor : Int32
  lotSize : Int32
  tickMinor : Int32
deriving DecidableEq

namespace TableEntry

/-- `sizeof(TableEntry)`. -/
def size : Nat := 28

def bytes (t : TableEntry) : Bytes :=
  put32 t.underlyingOffset ++ (put32 t.underlyingLength ++ (put8 t.kind ++ (put8 t.right ++
    (put16 t.reserved ++ (put32 t.expiry.toUInt32 ++ (put32 t.strikeMinor.toUInt32 ++
    (put32 t.lotSize.toUInt32 ++ put32 t.tickMinor.toUInt32)))))))

def read : Reader TableEntry := do
  let underlyingOffset ← get32
  let underlyingLength ← get32
  let kind ← get8
  let right ← get8
  let reserved ← get16
  let expiry ← get32
  let strikeMinor ← get32
  let lotSize ← get32
  let tickMinor ← get32
  return { underlyingOffset, underlyingLength, kind, right, reserved, expiry := expiry.toInt32,
           strikeMinor := strikeMinor.toInt32, lotSize := lotSize.toInt32, tickMinor := tickMinor.toInt32 }

end TableEntry

structure DirEntry where
  tableIndex : Int32
  rowCount : UInt32
  blobOffset : Int64
  blobBytes : UInt32
  blobCrc : UInt32
  firstTs : Int64
  lastTs : Int64
deriving DecidableEq

namespace DirEntry

/-- `sizeof(DirEntry)`. -/
def size : Nat := 40

def bytes (e : DirEntry) : Bytes :=
  put32 e.tableIndex.toUInt32 ++ (put32 e.rowCount ++ (put64 e.blobOffset.toUInt64 ++ (put32 e.blobBytes ++
    (put32 e.blobCrc ++ (put64 e.firstTs.toUInt64 ++ put64 e.lastTs.toUInt64)))))

def read : Reader DirEntry := do
  let tableIndex ← get32
  let rowCount ← get32
  let blobOffset ← get64
  let blobBytes ← get32
  let blobCrc ← get32
  let firstTs ← get64
  let lastTs ← get64
  return { tableIndex := tableIndex.toInt32, rowCount, blobOffset := blobOffset.toInt64, blobBytes, blobCrc,
           firstTs := firstTs.toInt64, lastTs := lastTs.toInt64 }

end DirEntry

/-- An array of `n` values, one after the other. -/
def readMany {α : Type} (read : Reader α) : Nat → Reader (List α)
  | 0 => pure []
  | n + 1 => do
      let x ← read
      let xs ← readMany read n
      return x :: xs

/-! ## Writing -/

/-- The eight columns of an instrument, each independently encoded. -/
def encodeColumns (c : QuoteColumns) : Bytes :=
  encodeColumn c.ts ++ (encodeColumn (c.last.map (·.toInt64)) ++ (encodeColumn (c.bid.map (·.toInt64)) ++
    (encodeColumn (c.ask.map (·.toInt64)) ++ (encodeColumn (c.bidQty.map (·.toInt64)) ++
    (encodeColumn (c.askQty.map (·.toInt64)) ++ (encodeColumn (c.lastQty.map (·.toInt64)) ++
    encodeColumn c.openInterest))))))

/-- The buffers `write_vfday` fills. -/
structure Writer where
  blob : Bytes := []
  directory : List DirEntry := []
  table : List TableEntry := []
  strings : Bytes := []
  interned : List (Bytes × UInt32) := []

namespace Writer

/-- The offset of a name in the string table, which it is added to when it is new. -/
def intern (w : Writer) (name : Bytes) : Writer × UInt32 :=
  match w.interned.lookup name with
  | some offset => (w, offset)
  | none =>
      let offset := UInt32.ofNat w.strings.length
      ({ w with strings := w.strings ++ name, interned := w.interned ++ [(name, offset)] }, offset)

/-- Adds an instrument that has rows. -/
def addInstrument (w : Writer) (spec : InstrumentSpec) (name : Bytes) (c : QuoteColumns) : Writer :=
  let (w, offset) := w.intern name
  let entry : TableEntry :=
    { underlyingOffset := offset, underlyingLength := UInt32.ofNat name.length, kind := spec.kind.toByte,
      right := spec.right.toByte, expiry := spec.expiry.yyyymmdd, strikeMinor := spec.strike,
      lotSize := spec.lotSize, tickMinor := spec.tickSize }
  let columns := encodeColumns c
  let blobBytes := UInt32.ofNat columns.length
  { w with
    blob := w.blob ++ columns
    table := w.table ++ [entry]
    directory := w.directory ++
      [{ tableIndex := Int32.ofNat w.table.length, rowCount := UInt32.ofNat c.size,
         -- absolute, because that is what the reader validates and seeks to
         blobOffset := Int64.ofNat (FileHeader.size + w.blob.length), blobBytes := blobBytes,
         blobCrc := crc32 (columns.take blobBytes.toNat), firstTs := c.ts.headD 0, lastTs := c.ts.getLastD 0 }] }

/-- One turn of the instrument loop. -/
def step (session : SessionData) (w : Writer) (id : InstrumentId) : Except Error Writer :=
  let c := session.quotes id
  if c.isEmpty then .ok w
  else do
    let spec ← session.registry.spec id
    let name ← session.registry.underlyingName spec.underlying
    return w.addInstrument spec name c

end Writer

/-- The distinct times of events in order, when the last one kept was `last`. -/
def distinctTimes : Option Timestamp → List Event → List Timestamp
  | _, [] => []
  | last, e :: es => if last = some e.ts then distinctTimes last es else e.ts :: distinctTimes (some e.ts) es

/-- The session's timeline, or the times of its events. -/
def timelineOf (session : SessionData) : List Timestamp :=
  if session.timeline.isEmpty then distinctTimes none session.events else session.timeline

/-- The timeline as it is stored. -/
def timelineBytes (timeline : List Timestamp) : Bytes :=
  timeline.flatMap (fun t => put64 (Int64.ofInt t).toUInt64)

/-- The header over the filled buffers, its own checksum last. -/
def headerOf (session : SessionData) (w : Writer) (timeline : List Timestamp) : FileHeader :=
  let table := w.table.flatMap TableEntry.bytes
  let directory := w.directory.flatMap DirEntry.bytes
  let tableBytes := UInt32.ofNat table.length
  let stringsBytes := UInt32.ofNat w.strings.length
  let directoryBytes := UInt32.ofNat directory.length
  let tableOffset := Int64.ofNat (FileHeader.size + w.blob.length)
  let stringsOffset := tableOffset + tableBytes.toUInt64.toInt64
  let timelineOffset := stringsOffset + stringsBytes.toUInt64.toInt64
  let directoryOffset := timelineOffset + Int64.ofNat (timeline.length * 8)
  let h : FileHeader :=
    { date := session.date.yyyymmdd, instrumentCount := Int32.ofNat w.directory.length,
      totalRows := Int64.ofNat session.totalObservations,
      tableOffset, tableBytes, tableCrc := crc32 (table.take tableBytes.toNat),
      stringsOffset, stringsBytes, stringsCrc := crc32 (w.strings.take stringsBytes.toNat),
      timelineOffset, timelineCount := UInt32.ofNat timeline.length, timelineCrc := crc32 (timelineBytes timeline),
      directoryOffset, directoryBytes, directoryCrc := crc32 (directory.take directoryBytes.toNat),
      fileBytes := directoryOffset + directoryBytes.toUInt64.toInt64 }
  { h with headerCrc := crc32 h.checkedBytes }

/-- The bytes `write_vfday` puts into the file. -/
def writeVfday (session : SessionData) : Except Error Bytes := do
  let w ← session.instruments.foldlM (Writer.step session) {}
  let timeline := timelineOf session
  let h := headerOf session w timeline
  return h.bytes ++ (w.blob ++ ((w.table.flatMap TableEntry.bytes).take h.tableBytes.toNat ++
    (w.strings.take h.stringsBytes.toNat ++ (timelineBytes timeline ++
    (w.directory.flatMap DirEntry.bytes).take h.directoryBytes.toNat))))

/-! ## Reading -/

/-- `std::ifstream` after a `seekg` to `offset`: reading fewer bytes than asked for is a failure. -/
def readAt (file : Bytes) (offset : Int64) (bytes : Nat) : Option Bytes :=
  let p := file.drop offset.toInt.toNat
  if p.length < bytes then none else some (p.take bytes)

def readExact (path : String) (file : Bytes) (offset : Int64) (bytes : UInt64) (fileSize : Int64) (what : String) :
    Except Error Bytes :=
  if offset < 0 ∨ fileSize.toUInt64 < bytes ∨ fileSize < offset + bytes.toInt64 then
    .error (vfdayError path (what ++ ": region lies outside the file"))
  else match readAt file offset bytes.toNat with
    | none => .error (vfdayError path (what ++ ": short read"))
    | some buffer => .ok buffer

/-- `VfdaySession::Entry`. -/
structure Entry where
  tableIndex : Int32
  rowCount : UInt32
  blobOffset : Int64
  blobBytes : UInt32
  blobCrc : UInt32
  first : Int64
  last : Int64
deriving DecidableEq

structure VfdaySession where
  path : String
  /-- What `path` holds. -/
  file : Bytes
  date : Date
  totalRows : UInt64
  instruments : List InstrumentId := []
  entries : List (InstrumentId × Entry) := []
  timeline : List Timestamp := []

/-- What `open` reads before it registers anything. -/
structure Metadata where
  header : FileHeader
  table : List TableEntry
  strings : Bytes
  directory : List DirEntry
  timeline : List Int64

/-- The values are strictly ascending. -/
def ascending : List Int64 → Bool
  | [] => true
  | [_] => true
  | a :: b :: rest => a < b && ascending (b :: rest)

namespace VfdaySession

/-- The checks of `open` on the header. -/
def readHeader (path : String) (file : Bytes) : Except Error FileHeader := do
  let fileSize := Int64.ofNat file.length
  let h := (FileHeader.read file).1
  failIf path (fileSize < Int64.ofNat FileHeader.size) "shorter than a header"
  failIf path (h.magic ≠ kMagic) "not a vfday file"
  failIf path (h.version ≠ kVfdayVersion)
    ("version " ++ toString h.version ++ ", expected " ++ toString kVfdayVersion)
  failIf path (crc32 (file.take FileHeader.crcOffset) ≠ h.headerCrc) "header checksum mismatch"
  failIf path (h.fileBytes ≠ fileSize)
    ("expected " ++ toString h.fileBytes ++ " bytes, found " ++ toString fileSize ++ " — truncated or appended to")
  failIf path (h.instrumentCount < 0) "negative instrument count"
  return h

/-- A region with its checksum. -/
def readRegion (path : String) (file : Bytes) (offset : Int64) (bytes : UInt64) (crc : UInt32) (what name : String) :
    Except Error Bytes := do
  let raw ← readExact path file offset bytes (Int64.ofNat file.length) what
  failIf path (crc32 raw ≠ crc) (name ++ " checksum mismatch")
  return raw

def readMetadata (path : String) (file : Bytes) : Except Error Metadata := do
  let h ← readHeader path file
  let table ← readRegion path file h.tableOffset h.tableBytes.toUInt64 h.tableCrc "table" "instrument table"
  failIf path (h.tableBytes.toNat % TableEntry.size ≠ 0) "instrument table is misaligned"
  let strings ← readRegion path file h.stringsOffset h.stringsBytes.toUInt64 h.stringsCrc "strings" "string table"
  let dir ← readRegion path file h.directoryOffset h.directoryBytes.toUInt64 h.directoryCrc "directory" "directory"
  failIf path (h.directoryBytes.toNat % DirEntry.size ≠ 0) "directory is misaligned"
  let timeline ← readRegion path file h.timelineOffset (h.timelineCount.toUInt64 * 8) h.timelineCrc "timeline"
    "timeline"
  failIf path (dir.length / DirEntry.size ≠ h.instrumentCount.toInt.toNat)
    "directory length disagrees with the header"
  let values := ((readMany get64 h.timelineCount.toNat timeline).1).map (·.toInt64)
  failIf path (ascending values = false) "timeline is not ascending"
  return { header := h
           table := (readMany TableEntry.read (table.length / TableEntry.size) table).1
           strings := strings
           directory := (readMany DirEntry.read (dir.length / DirEntry.size) dir).1
           timeline := values }

/-- The checks on a directory entry, with the table entry it refers to. -/
def checkEntry (path : String) (m : Metadata) (e : DirEntry) : Except Error TableEntry :=
  if e.tableIndex < 0 then .error (vfdayError path "directory references a missing instrument")
  else match m.table[e.tableIndex.toInt.toNat]? with
    | none => .error (vfdayError path "directory references a missing instrument")
    | some t =>
        if e.blobOffset < Int64.ofNat FileHeader.size ∨
            m.header.tableOffset < e.blobOffset + e.blobBytes.toUInt64.toInt64 then
          .error (vfdayError path "instrument data lies outside the payload")
        else if e.lastTs < e.firstTs then .error (vfdayError path "instrument has a backwards time range")
        else if m.strings.length < t.underlyingOffset.toNat + t.underlyingLength.toNat then
          .error (vfdayError path "instrument name lies outside the string table")
        else .ok t

/-- The name of a table entry's underlying. -/
def nameOf (m : Metadata) (t : TableEntry) : Bytes :=
  (m.strings.drop t.underlyingOffset.toNat).take t.underlyingLength.toNat

/-- The contract of a table entry, for an interned underlying. -/
def specOf (t : TableEntry) (underlying : UnderlyingId) : InstrumentSpec :=
  { underlying := underlying, kind := .ofByte t.kind, right := .ofByte t.right, expiry := ⟨t.expiry⟩,
    strike := t.strikeMinor, lotSize := t.lotSize, tickSize := t.tickMinor }

/-- `intern_underlying` and `add` for a table entry. -/
def registerEntry (m : Metadata) (t : TableEntry) (r : InstrumentRegistry) : InstrumentRegistry × InstrumentId :=
  let (r, underlying) := r.internUnderlying (nameOf m t)
  r.add (specOf t underlying)

def entryOf (e : DirEntry) : Entry :=
  { tableIndex := e.tableIndex, rowCount := e.rowCount, blobOffset := e.blobOffset, blobBytes := e.blobBytes,
    blobCrc := e.blobCrc, first := e.firstTs, last := e.lastTs }

/-- The directory loop, with the rows seen so far. -/
def registerAll (path : String) (m : Metadata) :
    List DirEntry → VfdaySession → UInt64 → InstrumentRegistry →
      Except Error (VfdaySession × UInt64) × InstrumentRegistry
  | [], session, rows, r => (.ok (session, rows), r)
  | e :: es, session, rows, r =>
      match checkEntry path m e with
      | .error x => (.error x, r)
      | .ok t =>
          let (r, id) := registerEntry m t r
          if (session.entries.lookup id).isSome then
            (.error (vfdayError path "the same contract appears twice"), r)
          else
            registerAll path m es
              { session with
                instruments := session.instruments ++ [id]
                entries := session.entries ++ [(id, entryOf e)] }
              (rows + e.rowCount.toUInt64) r

/-- `VfdaySession::open`, with the registry it leaves behind. -/
def openFile (path : String) (file : Bytes) (r : InstrumentRegistry) :
    Except Error VfdaySession × InstrumentRegistry :=
  match readMetadata path file with
  | .error x => (.error x, r)
  | .ok m =>
      let session : VfdaySession :=
        { path, file, date := ⟨m.header.date⟩, totalRows := m.header.totalRows.toUInt64
          timeline := m.timeline.map (·.toInt) }
      match registerAll path m m.directory session 0 r with
      | (.error x, r) => (.error x, r)
      | (.ok (session, rows), r) =>
          if rows ≠ m.header.totalRows.toUInt64 then
            (.error (vfdayError path "directory row counts do not sum to the header total"), r)
          else (.ok session, r)

def printedBy (s : VfdaySession) (id : InstrumentId) (t : Timestamp) : Bool :=
  match s.entries.lookup id with
  | none => false
  | some e => 0 < e.rowCount && e.first.toInt ≤ t

/-- `next_column`: one column of the expected length, and the bytes after it. -/
def nextColumn (path : String) (rowCount : UInt32) (p : Bytes) : Except Error (List Int64 × Bytes) :=
  match decodeColumn p with
  | none => .error (vfdayError path "instrument data could not be decoded")
  | some (used, values) =>
      if values.length ≠ rowCount.toNat then
        .error (vfdayError path "column length disagrees with the directory")
      else .ok (values, p.drop used)

/-- The eight columns of a blob; prices and quantities are cut down to 32 bits. -/
def decodeColumns (path : String) (e : Entry) (p : Bytes) : Except Error QuoteColumns := do
  let (ts, p) ← nextColumn path e.rowCount p
  let (last, p) ← nextColumn path e.rowCount p
  let (bid, p) ← nextColumn path e.rowCount p
  let (ask, p) ← nextColumn path e.rowCount p
  let (bidQty, p) ← nextColumn path e.rowCount p
  let (askQty, p) ← nextColumn path e.rowCount p
  let (lastQty, p) ← nextColumn path e.rowCount p
  let (openInterest, p) ← nextColumn path e.rowCount p
  failIf path (p.length ≠ 0) "trailing bytes after the last column"
  failIf path (ts ≠ [] ∧ (ts.headD 0 ≠ e.first ∨ ts.getLastD 0 ≠ e.last))
    "decoded time range disagrees with the directory"
  return { ts, last := last.map (·.toInt32), bid := bid.map (·.toInt32), ask := ask.map (·.toInt32),
           bidQty := bidQty.map (·.toInt32), askQty := askQty.map (·.toInt32),
           lastQty := lastQty.map (·.toInt32), openInterest }

/-- `materialise` as the first read of a session: nothing is in its cache, and its stream has not failed. -/
def materialise (s : VfdaySession) (id : InstrumentId) : Except Error QuoteColumns :=
  match s.entries.lookup id with
  | none => .ok {}
  | some e =>
      match readAt s.file e.blobOffset e.blobBytes.toNat with
      | none => .error (vfdayError s.path "short read on instrument data")
      | some raw =>
          -- verified at the point of use, not merely at open
          if crc32 raw ≠ e.blobCrc then
            .error (vfdayError s.path "instrument data checksum mismatch — the file is corrupt")
          else decodeColumns s.path e raw

def quotes (s : VfdaySession) (id : InstrumentId) : Except Error QuoteColumns := do
  let c ← s.materialise id
  if c.ts.isEmpty then return {} else return c

end VfdaySession

/-! ## The cache of decoded columns, and the stream -/

/-- A session with the columns it has decoded so far (`decoded_`) and the stream it reads from (`file_`). -/
structure LazySession where
  session : VfdaySession
  decoded : List (InstrumentId × QuoteColumns) := []
  /-- The stream's `failbit`. -/
  failed : Bool := false

namespace LazySession

/-- `materialise`: an instrument is decoded once. One that is not listed, or that throws, is not kept. All reads share
    one stream: one that falls short sets its `failbit`, which is never cleared, so that every later read falls
    short. -/
def materialise (s : LazySession) (id : InstrumentId) : Except Error QuoteColumns × LazySession :=
  match s.decoded.lookup id with
  | some c => (.ok c, s)
  | none =>
      match s.session.entries.lookup id with
      | none => (.ok {}, s)
      | some e =>
          if s.failed then (.error (vfdayError s.session.path "short read on instrument data"), s)
          else
            match s.session.materialise id with
            | .error x =>
                (.error x, { s with failed := (readAt s.session.file e.blobOffset e.blobBytes.toNat).isNone })
            | .ok c => (.ok c, { s with decoded := s.decoded ++ [(id, c)] })

def quotes (s : LazySession) (id : InstrumentId) : Except Error QuoteColumns × LazySession :=
  match s.materialise id with
  | (.error x, s) => (.error x, s)
  | (.ok c, s) => (.ok (if c.ts.isEmpty then {} else c), s)

def decodedInstruments (s : LazySession) : Nat := s.decoded.length

/-- Eight bytes for a timestamp and for the open interest, four for each price and quantity. -/
def rowBytes : Nat := 8 + 3 * 4 + 3 * 4 + 8

def decodedBytes (s : LazySession) : Nat := (s.decoded.map (fun x => x.2.size * rowBytes)).sum

end LazySession

/-! ## Verification -/

structure VfdayStats where
  instruments : Nat
  rows : Nat
  /-- Distinct ones. -/
  timestamps : Nat
  bytes : Nat
deriving Repr, DecidableEq

/-- `columns_equal`. -/
def columnsEqual (a b : QuoteColumns) : Bool :=
  a.size = b.size && (List.range a.size).all (fun i => a.atRow i = b.atRow i)

/-- The comparison of two contracts "by identity, never by id". -/
def sameIdentity (session : SessionData) (s spec : InstrumentSpec) (name : Bytes) : Except Error Bool :=
  if s.kind = spec.kind ∧ s.expiry = spec.expiry ∧ s.strike = spec.strike ∧ s.right = spec.right ∧
      s.lotSize = spec.lotSize then do
    return (← session.registry.underlyingName s.underlying) = name
  else .ok false

/-- The first instrument of the source with that identity. -/
def findOriginal (session : SessionData) (spec : InstrumentSpec) (name : Bytes) :
    List InstrumentId → Except Error (Option InstrumentId)
  | [] => .ok none
  | candidate :: rest => do
      let s ← session.registry.spec candidate
      if ← sameIdentity session s spec name then return some candidate
      findOriginal session spec name rest

/-- One instrument of the file that was read back. -/
def verifyInstrument (session : SessionData) (path : String) (reread : VfdaySession) (registry : InstrumentRegistry)
    (written : InstrumentId) : Except Error Unit := do
  let spec ← registry.spec written
  let name ← registry.underlyingName spec.underlying
  match ← findOriginal session spec name session.instruments with
  | none => .error (vfdayError path "verify: instrument missing from source")
  | some original =>
      let columns ← reread.quotes written
      failIf path (columnsEqual (session.quotes original) columns = false)
        "verify: column data differs after round trip"

/-- The verification of `write_vfday`: `file` is what is read back, `count` the length of the directory. -/
def verifyVfday (session : SessionData) (path : String) (count : Nat) (file : Bytes) : Except Error Unit :=
  match VfdaySession.openFile path file {} with
  | (.error x, _) => .error x
  | (.ok reread, registry) => do
      failIf path (reread.date ≠ session.date) "verify: date mismatch"
      failIf path (reread.totalRows.toNat ≠ session.totalObservations) "verify: row count mismatch"
      failIf path (reread.instruments.length ≠ count) "verify: instrument count mismatch"
      failIf path (session.timeline ≠ [] ∧ reread.timeline.length ≠ session.timeline.length)
        "verify: timeline length mismatch"
      failIf path (session.timeline ≠ [] ∧ reread.timeline ≠ session.timeline) "verify: timeline mismatch"
      reread.instruments.forM (verifyInstrument session path reread registry)
      failIf path (reread.instruments.length ≠ count) "verify: not every instrument was checked"

/-- `write_vfday` with its verification; `disk` is what the path holds after a file has been put there. -/
def writeVerified (disk : Bytes → Bytes) (session : SessionData) (path : String) (verify : Bool) :
    Except Error VfdayStats := do
  let w ← session.instruments.foldlM (Writer.step session) {}
  let file ← writeVfday session
  if verify then verifyVfday session path w.directory.length (disk file)
  return { instruments := w.directory.length
           rows := session.totalObservations
           timestamps := (timelineOf session).length
           bytes := (headerOf session w (timelineOf session)).fileBytes.toUInt64.toNat }

/-! ## Source -/

/-- A number in decimal, with leading zeros up to a width. -/
def padded (width : Nat) (n : Int) : String :=
  let s := toString n
  String.ofList (List.replicate (width - s.length) '0') ++ s

/-- `Date::to_string`. -/
def Date.toText (d : Date) : String :=
  if !d.valid then "invalid-date" else padded 4 d.year ++ "-" ++ padded 2 d.month ++ "-" ++ padded 2 d.day

structure VfdaySource where
  /-- Date and path of each file that was accepted. -/
  files : List (Int32 × String) := []
  cache : List (Int32 × VfdaySession) := []
  problems : List Error := []

namespace VfdaySource

/-- One file of the scan. -/
def scanFile (acc : VfdaySource × InstrumentRegistry) (entry : String × Bytes) : VfdaySource × InstrumentRegistry :=
  let (source, r) := acc
  match VfdaySession.openFile entry.1 entry.2 r with
  | (.error x, r) => ({ source with problems := source.problems ++ [x] }, r)
  | (.ok session, r) =>
      let key := session.date.yyyymmdd
      match source.files.lookup key with
      | some path =>
          ({ source with
              problems := source.problems ++
                [.runtimeError ("two files claim " ++ session.date.toText ++ ": " ++ path ++ " and " ++ entry.1)] }, r)
      | none =>
          ({ source with files := source.files ++ [(key, entry.1)], cache := source.cache ++ [(key, session)] }, r)

/-- The constructor: `directory` holds the `.vfday` files, path with content, sorted by path. -/
def scan (directory : List (String × Bytes)) (r : InstrumentRegistry) : VfdaySource × InstrumentRegistry :=
  directory.foldl scanFile ({}, r)

/-- `sessions`: the keys of `files`, which the source keeps in a map. -/
def sessions (source : VfdaySource) : List Date :=
  (source.files.map (fun x => (⟨x.1⟩ : Date))).foldl (fun out d => InstrumentRegistry.insertDate d out) []

/-- `load`: a session that is not in the cache is opened again, from what its path holds now. -/
def load (disk : String → Option Bytes) (source : VfdaySource) (r : InstrumentRegistry) (d : Date) :
    Except Error (Option VfdaySession) × VfdaySource × InstrumentRegistry :=
  match source.cache.lookup d.yyyymmdd with
  | some session => (.ok (some session), source, r)
  | none =>
      match source.files.lookup d.yyyymmdd with
      | none => (.ok none, source, r)
      | some path =>
          match disk path with
          | none => (.error (vfdayError path "not a file"), source, r)
          | some file =>
              match VfdaySession.openFile path file r with
              | (.error x, r) => (.error x, source, r)
              | (.ok session, r) =>
                  (.ok (some session), { source with cache := source.cache ++ [(d.yyyymmdd, session)] }, r)

end VfdaySource

end Volforge
