import Volforge.Store.ReferenceReader
import Volforge.Store.Vfday

/-!
# `Store.ReferenceFile` — the files of `reference_reader.py`

The rest of the reader that is read as a specification. As in its column decoder, integers are unbounded and
`none` is an exception. A `struct` format is a reader of its fields, without padding; prices stay in minor units.
-/

namespace Volforge.ReferenceReader

/-! ## Python -/

/-- `buf[start:stop]`. A negative bound counts from the end. -/
def slice (buf : Bytes) (start stop : Int) : Bytes :=
  let bound (k : Int) : Nat := (if k < 0 then k + buf.length else k).toNat
  (buf.take (bound stop)).drop (bound start)

/-- `struct.unpack_from`, for a format of `size` bytes. A negative offset counts from the end. -/
def unpackAt {α : Type} (size : Nat) (format : Reader α) (buf : Bytes) (offset : Int) : Option α :=
  let offset := if offset < 0 then offset + buf.length else offset
  if offset < 0 ∨ (buf.length : Int) < offset + size then none else some (format (buf.drop offset.toNat)).1

/-- `bytes.decode()`: UTF-8. -/
def decode (buf : Bytes) : Option String := String.fromUTF8? ⟨buf.toArray⟩

/-- `zlib.crc32`. -/
def zlibCrc32 (buf : Bytes) : Nat := (crc32 buf).toNat

/-- An unsigned integer of `n` bytes: `B`, `H` and `I`. -/
def unsigned (n : Nat) : Reader Nat := fun p => (LittleEndian.value (p.take n), p.drop n)

/-- A signed integer of `n` bytes: `i` and `q`. -/
def signed (n : Nat) : Reader Int := fun p => ((LittleEndian.value (p.take n) : Int).bmod (256 ^ n), p.drop n)

/-! ## Formats -/

def MAGIC : Bytes := [86, 70, 68, 65, 89, 48, 48, 51]

def VERSION : Nat := 3

structure Header where
  magic : Bytes
  version : Nat
  flags : Nat
  date : Int
  count : Int
  totalRows : Int
  tOff : Int
  tBytes : Nat
  tCrc : Nat
  sOff : Int
  sBytes : Nat
  sCrc : Nat
  tlOff : Int
  tlCount : Nat
  tlCrc : Nat
  dOff : Int
  dBytes : Nat
  dCrc : Nat
  fileBytes : Int
  headerCrc : Nat
  reserved : Nat

def HEADER_FMT : Reader Header := do
  let magic ← getBytes 8
  let version ← unsigned 4
  let flags ← unsigned 4
  let date ← signed 4
  let count ← signed 4
  let totalRows ← signed 8
  let tOff ← signed 8
  let tBytes ← unsigned 4
  let tCrc ← unsigned 4
  let sOff ← signed 8
  let sBytes ← unsigned 4
  let sCrc ← unsigned 4
  let tlOff ← signed 8
  let tlCount ← unsigned 4
  let tlCrc ← unsigned 4
  let dOff ← signed 8
  let dBytes ← unsigned 4
  let dCrc ← unsigned 4
  let fileBytes ← signed 8
  let headerCrc ← unsigned 4
  let reserved ← unsigned 4
  return { magic, version, flags, date, count, totalRows, tOff, tBytes, tCrc, sOff, sBytes, sCrc, tlOff, tlCount,
           tlCrc, dOff, dBytes, dCrc, fileBytes, headerCrc, reserved }

def HEADER_SIZE : Nat := 112

/-- A row of the instrument table. -/
structure TableRow where
  uOff : Nat
  uLen : Nat
  kind : Nat
  right : Nat
  pad : Nat
  expiry : Int
  strikeMinor : Int
  lot : Int
  tickMinor : Int

def TABLE_FMT : Reader TableRow := do
  let uOff ← unsigned 4
  let uLen ← unsigned 4
  let kind ← unsigned 1
  let right ← unsigned 1
  let pad ← unsigned 2
  let expiry ← signed 4
  let strikeMinor ← signed 4
  let lot ← signed 4
  let tickMinor ← signed 4
  return { uOff, uLen, kind, right, pad, expiry, strikeMinor, lot, tickMinor }

def TABLE_SIZE : Nat := 28

/-- A row of the directory. -/
structure DirRow where
  idx : Int
  rows : Nat
  blobOff : Int
  blobBytes : Nat
  blobCrc : Nat
  firstNs : Int
  lastNs : Int

def DIR_FMT : Reader DirRow := do
  let idx ← signed 4
  let rows ← unsigned 4
  let blobOff ← signed 8
  let blobBytes ← unsigned 4
  let blobCrc ← unsigned 4
  let firstNs ← signed 8
  let lastNs ← signed 8
  return { idx, rows, blobOff, blobBytes, blobCrc, firstNs, lastNs }

def DIR_SIZE : Nat := 40

def COLUMNS : List String := ["ts", "last", "bid", "ask", "bid_qty", "ask_qty", "last_qty", "open_interest"]

/-- `RIGHTS.get(right, "?")`. -/
def rightText (right : Nat) : String := if right = 0 then "CE" else if right = 1 then "PE" else "?"

/-- `KINDS.get(kind, "?")`. -/
def kindText (kind : Nat) : String :=
  if kind = 0 then "spot" else if kind = 1 then "future" else if kind = 2 then "option" else "?"

/-! ## Files -/

structure Instrument where
  underlying : String
  kind : String
  right : String
  expiry : Int
  strikeMinor : Int
  lotSize : Int
  tickMinor : Int
  rowCount : Nat
  firstNs : Int
  lastNs : Int
  blobOffset : Int
  blobBytes : Nat
  blobCrc : Nat

structure VfdayFile where
  blob : Bytes
  date : Int
  totalRows : Int
  timeline : List Int
  instruments : List Instrument

/-- `region`, of the file it is called in. -/
def region (blob : Bytes) (off : Int) (n crc : Nat) : Option Bytes :=
  let chunk := slice blob off (off + n)
  if chunk.length ≠ n then none              -- region outside the file
  else if zlibCrc32 chunk ≠ crc then none    -- checksum mismatch
  else some chunk

/-- One turn of the loop over the directory. -/
def readInstrument (table strings directory : Bytes) (i : Nat) : Option Instrument := do
  let d ← unpackAt DIR_SIZE DIR_FMT directory (i * DIR_SIZE : Nat)
  let t ← unpackAt TABLE_SIZE TABLE_FMT table (d.idx * TABLE_SIZE)
  let underlying ← decode (slice strings t.uOff (t.uOff + t.uLen : Nat))
  return { underlying, kind := kindText t.kind, right := rightText t.right, expiry := t.expiry
           strikeMinor := t.strikeMinor, lotSize := t.lot, tickMinor := t.tickMinor, rowCount := d.rows
           firstNs := d.firstNs, lastNs := d.lastNs, blobOffset := d.blobOff, blobBytes := d.blobBytes
           blobCrc := d.blobCrc }

/-- The checks on the header. -/
def readHeader (blob : Bytes) : Option Header :=
  if blob.length < HEADER_SIZE then none          -- shorter than a header
  else do
    let h ← unpackAt HEADER_SIZE HEADER_FMT blob 0
    if h.magic ≠ MAGIC then none                  -- not a vfday file
    else if h.version ≠ VERSION then none
    else if zlibCrc32 (slice blob 0 (HEADER_SIZE - 8 : Nat)) ≠ h.headerCrc then none
    else if h.fileBytes ≠ blob.length then none   -- truncated or appended to
    else some h

/-- `VfdayFile.__init__`, for what the file holds. -/
def VfdayFile.init (blob : Bytes) : Option VfdayFile := do
  let h ← readHeader blob
  let table ← region blob h.tOff h.tBytes h.tCrc
  let strings ← region blob h.sOff h.sBytes h.sCrc
  let timeline ← region blob h.tlOff (h.tlCount * 8) h.tlCrc
  let directory ← region blob h.dOff h.dBytes h.dCrc
  let times ← unpackAt (h.tlCount * 8) (readMany (signed 8) h.tlCount) timeline 0
  let instruments ← (List.range h.count.toNat).mapM (readInstrument table strings directory)
  return { blob, date := h.date, totalRows := h.totalRows, timeline := times, instruments }

/-- The loop over the columns: they are decoded one after the other, each of the same length. -/
def readColumns (rowCount : Nat) : List String → Bytes → Option (List (String × List Int) × Bytes)
  | [], buf => some ([], buf)
  | name :: names, buf => do
      let (values, buf) ← readColumn buf
      if values.length ≠ rowCount then none       -- length disagrees with the directory
      else do
        let (out, buf) ← readColumns rowCount names buf
        return ((name, values) :: out, buf)

def VfdayFile.quotes (f : VfdayFile) (index : Nat) : Option (List (String × List Int)) := do
  let inst ← f.instruments[index]?
  let raw := slice f.blob inst.blobOffset (inst.blobOffset + inst.blobBytes)
  if zlibCrc32 raw ≠ inst.blobCrc then none
  else do
    let (out, rest) ← readColumns inst.rowCount COLUMNS raw
    if rest ≠ [] then none                        -- trailing bytes after the last column
    else some out

end Volforge.ReferenceReader
