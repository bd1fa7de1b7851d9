import Volforge.Core.DataSource
import Mathlib.Data.List.Sort

/-!
# `Core.MemorySource` — sessions built in memory

`MemorySessionData` grows one observation at a time. The merged time order is built on request and dropped by
the next observation.

`std::map` is a list ascending by its keys, `std::sort` is insertion sort with the source's comparison.
-/

namespace Volforge

/-- One observation more, pushed onto every column. -/
def QuoteColumns.push (c : QuoteColumns) (q : Quote) : QuoteColumns where
  ts := c.ts ++ [Int64.ofInt q.ts]
  last := c.last ++ [Int32.ofInt q.last]
  bid := c.bid ++ [Int32.ofInt q.bid]
  ask := c.ask ++ [Int32.ofInt q.ask]
  bidQty := c.bidQty ++ [Int32.ofInt q.bidQty]
  askQty := c.askQty ++ [Int32.ofInt q.askQty]
  lastQty := c.lastQty ++ [Int32.ofInt q.lastQty]
  openInterest := c.openInterest ++ [Int64.ofInt q.openInterest]

/-- The comparison of `build_event_order`. -/
def Event.before (a b : Event) : Bool :=
  if a.ts ≠ b.ts then a.ts < b.ts
  else if a.instrument ≠ b.instrument then a.instrument < b.instrument
  else a.row < b.row

structure MemorySessionData where
  date : Date
  registry : InstrumentRegistry
  /-- Ascending by instrument. -/
  series : List (InstrumentId × QuoteColumns) := []
  /-- In the order of their first observation. -/
  instruments : List InstrumentId := []
  order : List Event := []
  timeline : List Timestamp := []
  total : Nat := 0

namespace MemorySessionData

/-- Changes the series of an instrument, which is made first if it is not there. -/
def modifySeries (id : InstrumentId) (f : QuoteColumns → QuoteColumns) :
    List (InstrumentId × QuoteColumns) → List (InstrumentId × QuoteColumns)
  | [] => [(id, f {})]
  | (key, c) :: rest =>
      if id < key then (id, f {}) :: (key, c) :: rest
      else if id = key then (key, f c) :: rest
      else (key, c) :: modifySeries id f rest

/-- Appends one observation. One that throws finds the series there, and changes nothing. -/
def append (s : MemorySessionData) (id : InstrumentId) (q : Quote) : Except Error MemorySessionData :=
  let c := (s.series.lookup id).getD {}
  if c.ts.getLast?.any (fun back => Int64.ofInt q.ts < back) then
    .error (.invalidArgument "MemorySessionData::append: observations must be non-decreasing in time")
  else .ok { s with
    series := modifySeries id (·.push q) s.series
    instruments := if (s.series.lookup id).isSome then s.instruments else s.instruments ++ [id]
    order := []                       -- any cached merge order is now stale
    timeline := []
    total := s.total + 1 }

/-- The rows of one series, in order; `row` is a `std::uint32_t`. -/
def rowEvents (x : InstrumentId × QuoteColumns) : List Event :=
  (List.range x.2.size).map fun i => { ts := x.2.time i, instrument := x.1, row := i % 2 ^ 32 }

/-- One turn of the loop that collects the distinct times. -/
def pushTime (out : List Timestamp) (e : Event) : List Timestamp :=
  if out.getLast? = some e.ts then out else out ++ [e.ts]

/-- Builds the merged time order once. -/
def buildEventOrder (s : MemorySessionData) : MemorySessionData :=
  let order := (s.series.flatMap rowEvents).insertionSort (fun a b => (b.before a) = false)
  { s with order := order, timeline := order.foldl pushTime [] }

def quotes (s : MemorySessionData) (id : InstrumentId) : QuoteColumns := (s.series.lookup id).getD {}

/-- What its accessors answer. -/
def session (s : MemorySessionData) : SessionData where
  date := s.date
  registry := s.registry
  instruments := s.instruments
  quotes := s.quotes
  totalObservations := s.total
  eventOrder := s.order
  timeline := s.timeline
  printedBy := SessionData.lookPrintedBy s.quotes

/-- The two operations that change a session. -/
inductive Op where
  | append (id : InstrumentId) (q : Quote)
  | buildEventOrder
deriving Repr, DecidableEq

def apply (s : MemorySessionData) : Op → Except Error MemorySessionData
  | .append id q => s.append id q
  | .buildEventOrder => .ok s.buildEventOrder

end MemorySessionData

structure MemoryDataSource where
  registry : InstrumentRegistry
  /-- Ascending by date. -/
  byDate : List (Int32 × MemorySessionData) := []

namespace MemoryDataSource

/-- `sessions_[key] = session`. -/
def insertSession (key : Int32) (session : MemorySessionData) :
    List (Int32 × MemorySessionData) → List (Int32 × MemorySessionData)
  | [] => [(key, session)]
  | (k, s) :: rest =>
      if key < k then (key, session) :: (k, s) :: rest
      else if key = k then (key, session) :: rest
      else (k, s) :: insertSession key session rest

/-- A session of the same date is replaced. -/
def addSession (m : MemoryDataSource) (session : MemorySessionData) : MemoryDataSource :=
  { m with byDate := insertSession session.date.yyyymmdd session m.byDate }

def sessions (m : MemoryDataSource) : List Date := m.byDate.map (fun x => ⟨x.1⟩)

def load (m : MemoryDataSource) (d : Date) : Option MemorySessionData := m.byDate.lookup d.yyyymmdd

/-- What a run is given. -/
def source (m : MemoryDataSource) : DataSource where
  sessions := m.sessions
  load d := .ok ((m.load d).map (·.session))

end MemoryDataSource

end Volforge
