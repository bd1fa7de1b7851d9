import Volforge.Core.MemorySource

/-!
# `Adapters.GfdlCsv` — the loader of vendor CSV files

A scanner takes the text from its position on and returns what it read with the text that is left. Numbers are
accumulated in 64 bits. The loop over a buffer is a fold over its lines, the runs of bytes between line ends.

A directory is the list of its regular files, name and contents; an archive is the list of its members that are not
directories, each with what it inflates to. Warnings are kept as data.
-/

namespace Volforge.Gfdl

def chr (c : Char) : UInt8 := UInt8.ofNat c.toNat

def text (s : String) : Bytes := s.toList.map chr

def kMonths : List String :=
  ["JAN", "FEB", "MAR", "APR", "MAY", "JUN", "JUL", "AUG", "SEP", "OCT", "NOV", "DEC"]

def monthFrom (s : Bytes) : Int :=
  match kMonths.findIdx? (fun m => text m = s) with
  | some i => i + 1
  | none => 0

def isDigit (c : UInt8) : Bool := chr '0' ≤ c && c ≤ chr '9'

def digitOf (c : UInt8) : Nat := c.toNat - (chr '0').toNat

/-! ## Field scanners -/

/-- An optional sign; true when it is a minus. -/
def scanSign : Bytes → Bool × Bytes
  | [] => (false, [])
  | c :: p => if c = chr '-' ∨ c = chr '+' then (c = chr '-', p) else (false, c :: p)

def scanDigits (v : Int64) : Bytes → Int64 × Bytes
  | [] => (v, [])
  | c :: p => if isDigit c then scanDigits (v * 10 + Int64.ofNat (digitOf c)) p else (v, c :: p)

def scanInt (p : Bytes) : Int64 × Bytes :=
  let (neg, p) := scanSign p
  let (v, p) := scanDigits 0 p
  (if neg then -v else v, p)

/-- The digits after the point, of which `places` still count; padded with zeros to that many. -/
def scanFraction (places : Nat) (frac : Int64) : Bytes → Int64 × Bytes
  | [] => (frac * 10 ^ places, [])
  | c :: p =>
      if isDigit c then
        match places with
        | 0 => scanFraction 0 frac p            -- anything past two places is below the tick grid
        | places + 1 => scanFraction places (frac * 10 + Int64.ofNat (digitOf c)) p
      else (frac * 10 ^ places, c :: p)

/-- Decimal with at most two places, returned in minor units. -/
def scanPriceMinor (p : Bytes) : Int32 × Bytes :=
  let (neg, p) := scanSign p
  let (whole, p) := scanDigits 0 p
  let (frac, p) := match p with
    | [] => scanFraction 2 0 []
    | c :: q => if c = chr '.' then scanFraction 2 0 q else ((0 : Int64), c :: q)
  let v := whole * 100 + frac
  ((if neg then -v else v).toInt32, p)

/-- Skips one character, if it is there. -/
def skipChar (c : Char) : Bytes → Bytes
  | [] => []
  | b :: p => if b = chr c then p else b :: p

def lineEnd (c : UInt8) : Bool := c = chr '\n' || c = chr '\r'

def skipField (p : Bytes) : Bytes := skipChar ',' (p.dropWhile (fun c => !(c = chr ',' || lineEnd c)))

/-! ## Symbols -/

structure ParsedSymbol where
  underlying : Bytes
  expiry : Date
  strike : Int32
  right : Right
deriving DecidableEq

/-- The right is the final two characters. -/
def rightOf (ticker : Bytes) : Option Right :=
  let tail := ticker.drop (ticker.length - 2)
  if tail = text "CE" then some .Call else if tail = text "PE" then some .Put else none

/-- `DDMMMYY`, then the strike. -/
def parseContract (underlying : Bytes) (right : Right) (rest : Bytes) : Option ParsedSymbol :=
  match rest with
  | d1 :: d2 :: m1 :: m2 :: m3 :: y1 :: y2 :: strikeText =>
      if !isDigit d1 || !isDigit d2 then none
      else
        let day : Int := digitOf d1 * 10 + digitOf d2
        let month := monthFrom [m1, m2, m3]
        if month = 0 then none
        else if !isDigit y1 || !isDigit y2 then none
        else
          let year : Int := 2000 + digitOf y1 * 10 + digitOf y2
          if strikeText.isEmpty then none
          else if strikeText.any (fun c => !isDigit c && c ≠ chr '.') then none
          else
            let strike := (scanPriceMinor strikeText).1
            if strike ≤ 0 then none
            else if day < 1 || 31 < day then none
            else some ⟨underlying, ⟨Int32.ofInt (year * 10000 + month * 100 + day)⟩, strike, right⟩
  | _ => none

/-- Decomposes a vendor ticker such as `NIFTY03JUL2523000CE.NFO`; `none` is the source's `ok = false`. -/
def parseGfdlSymbol (ticker : Bytes) : Option ParsedSymbol :=
  let ticker := ticker.takeWhile (fun c => c ≠ chr '.')          -- drop the ".NFO" segment
  if ticker.length < 12 then none
  else match rightOf ticker with
    | none => none
    | some right =>
        let ticker := ticker.take (ticker.length - 2)
        let underlying := ticker.takeWhile (fun c => !isDigit c)
        if underlying.length = 0 || ticker.length ≤ underlying.length + 7 then none
        else parseContract underlying right (ticker.drop underlying.length)

/-! ## Rows -/

structure GfdlLoadOptions where
  lotSize : Int32 := 75
  tickSize : Int32 := 5
  utcOffsetSeconds : Int32 := Int32.ofInt kISTOffsetSeconds
  /-- Skip files whose underlying is not this, when set. -/
  onlyUnderlying : Bytes := []
  /-- The session these files belong to. -/
  expectedDate : Date := ⟨0⟩

/-- What the scanners read from one line. -/
structure CsvRow where
  dd : Int64
  mm : Int64
  yyyy : Int64
  hh : Int64
  mi : Int64
  ss : Int64
  last : Int32
  bid : Int32
  bidQty : Int32
  ask : Int32
  askQty : Int32
  lastQty : Int32
  openInterest : Int64
deriving DecidableEq

/-- The scanners in the order of the columns, separators skipped where they are. -/
def scanRow (p : Bytes) : CsvRow :=
  let p := skipField p                          -- Ticker
  let (dd, p) := scanInt p
  let (mm, p) := scanInt (skipChar '/' p)
  let (yyyy, p) := scanInt (skipChar '/' p)
  let (hh, p) := scanInt (skipChar ',' p)
  let (mi, p) := scanInt (skipChar ':' p)
  let (ss, p) := scanInt (skipChar ':' p)
  let (last, p) := scanPriceMinor (skipChar ',' p)
  let (bid, p) := scanPriceMinor (skipChar ',' p)
  let (bidQty, p) := scanInt (skipChar ',' p)
  let (ask, p) := scanPriceMinor (skipChar ',' p)
  let (askQty, p) := scanInt (skipChar ',' p)
  let (lastQty, p) := scanInt (skipChar ',' p)
  let (openInterest, _) := scanInt (skipChar ',' p)
  { dd := dd, mm := mm, yyyy := yyyy, hh := hh, mi := mi, ss := ss, last := last, bid := bid,
    bidQty := bidQty.toInt32, ask := ask, askQty := askQty.toInt32, lastQty := lastQty.toInt32,
    openInterest := openInterest }

namespace CsvRow

/-- Bounded on both sides. -/
def inRange (r : CsvRow) : Bool :=
  !(r.yyyy < 1990 || 2100 < r.yyyy || r.mm < 1 || 12 < r.mm || r.dd < 1 || 31 < r.dd ||
    r.hh < 0 || 23 < r.hh || r.mi < 0 || 59 < r.mi || r.ss < 0 || 59 < r.ss)

def date (r : CsvRow) : Date := ⟨(r.yyyy * 10000 + r.mm * 100 + r.dd).toInt32⟩

def ts (r : CsvRow) (options : GfdlLoadOptions) : Timestamp :=
  timestampOf r.date (r.hh * 3600 + r.mi * 60 + r.ss).toInt options.utcOffsetSeconds.toInt

def quote (r : CsvRow) (options : GfdlLoadOptions) : Quote where
  ts := r.ts options
  last := r.last.toInt
  bid := r.bid.toInt
  ask := r.ask.toInt
  bidQty := r.bidQty.toInt
  askQty := r.askQty.toInt
  lastQty := r.lastQty.toInt
  openInterest := r.openInterest.toInt

end CsvRow

/-- What the rows of a buffer go into, and the one date the day may carry. -/
structure RowSink where
  session : Option MemorySessionData := none
  date : Date := ⟨0⟩
  rowsRead : Nat := 0
  rowsSkipped : Nat := 0
  expected : Date

/-- The state of the loop over the rows of one buffer. -/
structure RowLoop where
  sink : RowSink
  rowDate : Date := ⟨0⟩
  previous : Option Timestamp := none

def RowLoop.skip (s : RowLoop) : RowLoop := { s with sink := { s.sink with rowsSkipped := s.sink.rowsSkipped + 1 } }

/-- A row of the day sets what is not set yet: the date of the day, and that of the file. -/
def RowLoop.onDay (s : RowLoop) (d : Date) : RowLoop where
  sink := { s.sink with expected := if s.sink.expected.valid then s.sink.expected else d }
  rowDate := if s.rowDate.valid then s.rowDate else d
  previous := s.previous

/-- The session and its date, made for the first row. -/
def RowSink.openSession (sink : RowSink) (registry : InstrumentRegistry) (d : Date) : MemorySessionData × Date :=
  match sink.session with
  | some session => (session, sink.date)
  | none => ({ date := d, registry := registry }, d)

/-- Appends a row. -/
def keepRow (id : InstrumentId) (options : GfdlLoadOptions) (registry : InstrumentRegistry) (s : RowLoop) (r : CsvRow) :
    Except Error RowLoop := do
  let (session, date) := s.sink.openSession registry r.date
  let session ← session.append id (r.quote options)
  return { s with
    previous := some (r.ts options)
    sink := { s.sink with session := some session, date := date, rowsRead := s.sink.rowsRead + 1 } }

/-- One line of `parse_csv_rows`. -/
def parseRow (id : InstrumentId) (options : GfdlLoadOptions) (registry : InstrumentRegistry) (s : RowLoop)
    (line : Bytes) : Except Error RowLoop :=
  if line.count (chr ',') ≠ 9 then .ok s.skip
  else
    let r := scanRow line
    if !r.inRange then .ok s.skip
    -- one archive is one session; anything else is a damaged row
    else if s.sink.expected.valid && r.date ≠ s.sink.expected then .ok s.skip
    else
      let s := s.onDay r.date
      -- time-ordered within a file; anything else is dropped
      if s.previous.any (fun previous => r.ts options < previous) then .ok s.skip
      else keepRow id options registry s r

/-- The runs of bytes between line ends, the one in front having begun with `line`. -/
def linesFrom (line : Bytes) : Bytes → List Bytes
  | [] => if line.isEmpty then [] else [line]
  | c :: p =>
      if lineEnd c then (if line.isEmpty then linesFrom [] p else line :: linesFrom [] p)
      else linesFrom (line ++ [c]) p

/-- The lines of a buffer that are not blank. -/
def linesOf (data : Bytes) : List Bytes := linesFrom [] data

def hasHeader (data : Bytes) : Bool := 6 < data.length && data.take 6 = text "Ticker"

/-- A header is skipped up to and including the first newline. -/
def skipHeader (data : Bytes) : Bytes :=
  if hasHeader data then (data.dropWhile (fun c => c ≠ chr '\n')).drop 1 else data

/-- Parses one CSV buffer into the session; the date is that of its first row of the day. -/
def parseCsvRows (data : Bytes) (id : InstrumentId) (options : GfdlLoadOptions) (registry : InstrumentRegistry)
    (sink : RowSink) : Except Error (RowSink × Date) := do
  let s ← (linesOf (skipHeader data)).foldlM (parseRow id options registry) { sink := sink }
  return (s.sink, s.rowDate)

/-! ## Days -/

inductive Warning where
  | unparsableSymbol (name : Bytes)
  | couldNotDecompress (name : Bytes)
  | carriesDate (name : Bytes) (rowDate expected : Date)
deriving DecidableEq

structure GfdlDay where
  session : Option MemorySessionData := none
  underlying : UnderlyingId := 0
  date : Date := ⟨0⟩
  filesRead : Nat := 0
  filesSkipped : Nat := 0
  rowsRead : Nat := 0
  rowsSkipped : Nat := 0
  /-- Distinct expiries seen, ascending. -/
  expiries : List Date := []
  warnings : List Warning := []

/-- The state of the loop over the files. -/
structure DayLoop where
  registry : InstrumentRegistry
  out : GfdlDay := {}
  expected : Date
  expiries : List Date := []

def DayLoop.skip (s : DayLoop) : DayLoop := { s with out := { s.out with filesSkipped := s.out.filesSkipped + 1 } }

def DayLoop.warn (s : DayLoop) (w : Warning) : DayLoop :=
  { s with out := { s.out with warnings := s.out.warnings ++ [w] } }

def specOf (sym : ParsedSymbol) (options : GfdlLoadOptions) (underlying : UnderlyingId) : InstrumentSpec where
  underlying := underlying
  kind := .Option
  expiry := sym.expiry
  strike := sym.strike
  right := sym.right
  lotSize := options.lotSize
  tickSize := options.tickSize

def DayLoop.sink (s : DayLoop) : RowSink where
  session := s.out.session
  date := s.out.date
  rowsRead := s.out.rowsRead
  rowsSkipped := s.out.rowsSkipped
  expected := s.expected

/-- What the sink points to. -/
def DayLoop.drain (s : DayLoop) (sink : RowSink) : DayLoop :=
  { s with
    out := { s.out with
      session := sink.session, date := sink.date, rowsRead := sink.rowsRead, rowsSkipped := sink.rowsSkipped }
    expected := sink.expected }

/-- A file is read: counted, and reported when it carries another date. -/
def DayLoop.countFile (s : DayLoop) (name : Bytes) (rowDate : Date) : DayLoop :=
  let s := { s with out := { s.out with filesRead := s.out.filesRead + 1 } }
  if rowDate.valid && s.out.date.valid && rowDate ≠ s.out.date then s.warn (.carriesDate name rowDate s.out.date)
  else s

/-- One file of `load_gfdl_day`. -/
def loadFile (options : GfdlLoadOptions) (s : DayLoop) (file : Bytes × Bytes) : Except Error DayLoop :=
  let (name, buffer) := file
  match parseGfdlSymbol name with
  | none => .ok (s.skip.warn (.unparsableSymbol name))
  | some sym =>
      if !options.onlyUnderlying.isEmpty && sym.underlying ≠ options.onlyUnderlying then .ok s.skip
      else if buffer.isEmpty then .ok s.skip
      else
        let (registry, underlying) := s.registry.internUnderlying sym.underlying
        let (registry, id) := registry.add (specOf sym options underlying)
        let s := { s with
          registry := registry
          out := { s.out with underlying := underlying }
          expiries := InstrumentRegistry.insertDate sym.expiry s.expiries }
        do
          let (sink, rowDate) ← parseCsvRows buffer id options registry s.sink
          return (s.drain sink).countFile name rowDate

/-- `path::extension`: from the last point on, unless the name begins with it. -/
def extensionOf (name : Bytes) : Bytes :=
  let tail := (name.reverse.takeWhile (fun c => c ≠ chr '.')).reverse
  if name.length ≤ tail.length + 1 then [] else chr '.' :: tail

def isCsv (name : Bytes) : Bool := extensionOf name = text ".csv" || extensionOf name = text ".CSV"

/-- In the order of their names. -/
def sortByName {α : Type} (files : List (Bytes × α)) : List (Bytes × α) := files.insertionSort (fun a b => a.1 ≤ b.1)

/-- The session refers to the registry it was built on, which has grown since. -/
def closeSession (registry : InstrumentRegistry) (session : Option MemorySessionData) : Option MemorySessionData :=
  session.map (fun s => { s with registry := registry }.buildEventOrder)

/-- Parses one day's directory of CSVs. -/
def loadGfdlDay (registry : InstrumentRegistry) (directory : List (Bytes × Bytes)) (options : GfdlLoadOptions) :
    Except Error (InstrumentRegistry × GfdlDay) := do
  let files := sortByName (directory.filter (fun file => isCsv file.1))
  let s ← files.foldlM (loadFile options) { registry := registry, expected := options.expectedDate }
  return (s.registry, { s.out with
    expiries := s.expiries, session := closeSession s.registry s.out.session })

/-! ## Archives -/

/-- What follows the last slash. -/
def leafOf (name : Bytes) : Bytes := (name.reverse.takeWhile (fun c => c ≠ chr '/' && c ≠ chr '\\')).reverse

/-- Two digits of a file name. -/
def digitsValue (s : Bytes) : Nat := s.foldl (fun v c => v * 10 + digitOf c) 0

/-- `GFDLNFO_TICK_DDMMYYYY.zip`: the archive names the session it covers. -/
def archiveDate (zipPath : Bytes) : Date :=
  let stem := leafOf zipPath
  let after := (stem.reverse.takeWhile (fun c => c ≠ chr '_')).reverse
  -- an underscore, and eight characters after it
  if after.length = stem.length || after.length < 8 then ⟨0⟩
  else
    let digits := after.take 8
    if digits.any (fun c => !isDigit c) then ⟨0⟩
    else
      let dd := digitsValue (digits.take 2)
      let mm := digitsValue ((digits.drop 2).take 2)
      let yy := digitsValue (digits.drop 4)
      if 1 ≤ dd && dd ≤ 31 && 1 ≤ mm && mm ≤ 12 && 1990 ≤ yy && yy ≤ 2100 then
        ⟨Int32.ofNat (yy * 10000 + mm * 100 + dd)⟩
      else ⟨0⟩

/-- One member of `load_gfdl_zip`. -/
def loadEntry (options : GfdlLoadOptions) (s : DayLoop) (entry : Bytes × Option Bytes) : Except Error DayLoop :=
  let leaf := leafOf entry.1
  match parseGfdlSymbol leaf with
  | none => .ok (if 4 < leaf.length then s.skip.warn (.unparsableSymbol leaf) else s.skip)
  | some sym =>
      if !options.onlyUnderlying.isEmpty && sym.underlying ≠ options.onlyUnderlying then .ok s.skip
      else match entry.2 with
        | none => .ok (s.skip.warn (.couldNotDecompress leaf))
        | some raw =>
            let (registry, underlying) := s.registry.internUnderlying sym.underlying
            let (registry, id) := registry.add (specOf sym options underlying)
            let s := { s with registry := registry, out := { s.out with underlying := underlying } }
            do
              let (sink, rowDate) ← parseCsvRows raw id options registry s.sink
              return (s.drain sink).countFile leaf rowDate

/-- The expiries of the instruments that have an observation. -/
def sessionExpiries (registry : InstrumentRegistry) (session : MemorySessionData) : Except Error (List Date) :=
  session.instruments.foldlM (fun out id => do
    let spec ← registry.spec id
    return if spec.expiry.valid then InstrumentRegistry.insertDate spec.expiry out else out) []

/-- Parses one day straight out of a vendor archive. -/
def loadGfdlZip (registry : InstrumentRegistry) (zipPath : Bytes) (archive : List (Bytes × Option Bytes))
    (options : GfdlLoadOptions) : Except Error (InstrumentRegistry × GfdlDay) := do
  let expected := if options.expectedDate.valid then options.expectedDate else archiveDate zipPath
  let s ← (sortByName archive).foldlM (loadEntry options) { registry := registry, expected := expected }
  let expiries ← match s.out.session with
    | none => pure []
    | some session => sessionExpiries s.registry session
  return (s.registry, { s.out with expiries := expiries, session := closeSession s.registry s.out.session })

end Volforge.Gfdl
