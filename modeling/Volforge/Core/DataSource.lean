import Volforge.Core.Instrument
import Volforge.Core.Quotes

/-!
# `Core.DataSource` — the data abstraction boundary

* `SessionData` is one trading session: a record of what the virtual accessors of the source answer.
  `SessionData.Contract` is what its comments promise of those answers.
* `MarketView` is what a strategy is allowed to see: a record of what the view's accessors answer at one
  instant. `SessionData.view` builds it from a session and the clock.
* `EventCursor` walks a session in time order, along the precomputed index or by merging the per-instrument
  runs.
-/

namespace Volforge

/-- One observation, located. `row` is a `std::uint32_t`. -/
structure Event where
  ts : Timestamp
  instrument : InstrumentId := -1
  row : Nat := 0
deriving Repr, DecidableEq

structure SessionData where
  date : Date
  registry : InstrumentRegistry
  instruments : List InstrumentId
  quotes : InstrumentId → QuoteColumns
  totalObservations : Nat
  eventOrder : List Event
  timeline : List Timestamp
  printedBy : InstrumentId → Timestamp → Bool

namespace SessionData

/-- The default `printed_by`: answers by looking at the quotes. -/
def lookPrintedBy (quotes : InstrumentId → QuoteColumns) (id : InstrumentId) (t : Timestamp) : Bool :=
  !(quotes id).isEmpty && ((quotes id).indexAtOrBefore t).isSome

/-- Some instrument of the session prints at `t`. -/
def PrintsAt (s : SessionData) (t : Timestamp) : Prop :=
  ∃ id ∈ s.instruments, ∃ i < (s.quotes id).size, (s.quotes id).time i = t

/-- `ts` is the ascending list of the session's distinct observation times. -/
structure IsTimeline (s : SessionData) (ts : List Timestamp) : Prop where
  ascending : ts.Pairwise (· < ·)
  mem_iff : ∀ t, t ∈ ts ↔ s.PrintsAt t

/-- An event that locates an observation of the session. -/
def Locates (s : SessionData) (e : Event) : Prop :=
  e.instrument ∈ s.instruments ∧ e.row < (s.quotes e.instrument).size ∧
    e.ts = (s.quotes e.instrument).time e.row

/-- What the comments of `SessionData`, `QuoteColumns` and `Event` promise. -/
structure Contract (s : SessionData) : Prop where
  /-- Instruments are listed once. -/
  nodup : s.instruments.Nodup
  /-- Columns are empty for an instrument that did not trade or quote this session. -/
  listed : ∀ id, id ∉ s.instruments → (s.quotes id).ts = []
  /-- All spans have equal length and are sorted ascending by `ts`. -/
  aligned : ∀ id, (s.quotes id).Aligned
  ascending : ∀ id, (s.quotes id).Ascending
  /-- Every row can be located by the 32-bit `row` of an event. -/
  located : ∀ id, (s.quotes id).size < 2 ^ 32
  total : s.totalObservations = (s.instruments.map (fun id => (s.quotes id).size)).sum
  /-- The precomputed order, if there is one, lists every observation in time order. -/
  eventOrder : s.eventOrder = [] ∨
    (s.eventOrder.Pairwise (fun a b => a.ts ≤ b.ts) ∧ ∀ e, e ∈ s.eventOrder ↔ s.Locates e)
  /-- Distinct observation times, ascending, or empty. -/
  timeline : s.timeline = [] ∨ s.IsTimeline s.timeline
  printedBy : ∀ id t, s.printedBy id t = lookPrintedBy s.quotes id t

end SessionData

/-! ## What a strategy may see of the data -/

/-- The answers of the view's accessors at one instant. `quote id back` counts observations backwards. -/
structure MarketView where
  now : Timestamp
  registry : InstrumentRegistry
  quote : InstrumentId → Nat → Option Quote
  hasQuote : InstrumentId → Bool

/-- `MarketView::quote` with the default `back = 0`. -/
def MarketView.current (m : MarketView) (id : InstrumentId) : Option Quote := m.quote id 0

/-- `MarketView::quote` for a caller-supplied `int`: a negative offset reads the future and throws. -/
def MarketView.quoteBack (m : MarketView) (id : InstrumentId) (back : Int) :
    Except Error (Option Quote) :=
  if back < 0 then
    .error (.invalidArgument "MarketView::quote: negative offset reads the future")
  else .ok (m.quote id back.toNat)

/-- The observation of one instrument `back` steps before `now`. -/
def QuoteColumns.quoteAt (c : QuoteColumns) (now : Timestamp) (back : Nat) : Option Quote :=
  if c.isEmpty then none
  else match c.indexAtOrBefore now with
    | none => none
    | some idx => if idx < back then none else some (c.atRow (idx - back))

/-- `MarketView(data, clock)`. -/
def SessionData.view (s : SessionData) (now : Timestamp) : MarketView where
  now := now
  registry := s.registry
  quote id back := (s.quotes id).quoteAt now back
  hasQuote id := s.printedBy id now

theorem QuoteColumns.quoteAt_zero_eq_some {c : QuoteColumns} {now : Timestamp} {q : Quote} :
    c.quoteAt now 0 = some q ↔ ∃ i, c.indexAtOrBefore now = some i ∧ q = c.atRow i := by
  unfold QuoteColumns.quoteAt
  by_cases hemp : c.isEmpty = true
  · have hnone : c.indexAtOrBefore now = none := by
      rw [QuoteColumns.indexAtOrBefore_eq_none]
      have := c.upperBound_le_size now
      simp only [QuoteColumns.isEmpty, List.isEmpty_iff] at hemp
      simp only [QuoteColumns.size, hemp, List.length_nil] at this
      omega
    simp [hemp, hnone]
  · cases hidx : c.indexAtOrBefore now with
    | none => simp [hemp]
    | some i => simp [hemp, eq_comm]

/-! ## Event iteration -/

namespace EventCursor

/-- The unread part of one instrument's run; `row` and `end` are `std::uint32_t`. -/
structure Run where
  instrument : InstrumentId
  row : Nat
  stop : Nat
  ts : Timestamp
deriving Repr, DecidableEq

/-- `RunGreater` with its arguments swapped: `a` is emitted before `b`. -/
def Run.before (a b : Run) : Bool :=
  if a.ts ≠ b.ts then a.ts < b.ts else a.instrument < b.instrument

/-- `std::pop_heap` on the merge heap: the run to emit next, and the others. -/
def popHeap : List Run → Option (Run × List Run)
  | [] => none
  | r :: rs =>
      match popHeap rs with
      | none => some (r, [])
      | some (m, rest) => if m.before r then some (m, r :: rest) else some (r, m :: rest)

end EventCursor

/-- A cursor: the precomputed order with the position in it, or the heap of run heads. -/
structure EventCursor where
  order : List Event
  orderPos : Nat
  heap : List EventCursor.Run
deriving Repr, DecidableEq

namespace EventCursor

/-- The head of one instrument's run, if it has any rows. -/
def headRun (s : SessionData) (id : InstrumentId) : Option Run :=
  let cols := s.quotes id
  if cols.isEmpty then none
  else some { instrument := id, row := 0, stop := cols.size % 2 ^ 32, ts := cols.time 0 }

def new (s : SessionData) : EventCursor :=
  if !s.eventOrder.isEmpty then { order := s.eventOrder, orderPos := 0, heap := [] }
  else { order := [], orderPos := 0, heap := s.instruments.filterMap (headRun s) }

/-- Yields the next event, or `none` at the end of the session. -/
def next (s : SessionData) (c : EventCursor) : Option (Event × EventCursor) :=
  if !c.order.isEmpty then
    match c.order[c.orderPos]? with
    | none => none
    | some e => some (e, { c with orderPos := c.orderPos + 1 })
  else match popHeap c.heap with
    | none => none
    | some (run, rest) =>
        let e : Event := { ts := run.ts, instrument := run.instrument, row := run.row }
        let row := run.row + 1
        if row < run.stop then
          let run' := { run with row := row, ts := (s.quotes run.instrument).time row }
          some (e, { c with heap := run' :: rest })
        else some (e, { c with heap := rest })

/-- `while (cursor.next(ev))`, for at most `fuel` events. -/
def drain (s : SessionData) : Nat → EventCursor → List Event
  | 0, _ => []
  | fuel + 1, c =>
      match next s c with
      | none => []
      | some (e, c') => e :: drain s fuel c'

end EventCursor

namespace SessionData

/-- No cursor yields more events than this. -/
def eventBound (s : SessionData) : Nat :=
  s.eventOrder.length + (s.instruments.map (fun id => (s.quotes id).size)).sum

/-- Everything a fresh cursor over the session yields. -/
def events (s : SessionData) : List Event := EventCursor.drain s s.eventBound (EventCursor.new s)

/-- The times of a list of events, each written down when it differs from the one seen before it. -/
def dropRepeats : Timestamp → List Event → List Timestamp
  | _, [] => []
  | seen, e :: es => if e.ts = seen then dropRepeats seen es else e.ts :: dropRepeats e.ts es

/-- The times a replay steps through: the timeline, or the times of the merged events. -/
def steps (s : SessionData) : List Timestamp :=
  if s.timeline.isEmpty then dropRepeats kNoTime s.events else s.timeline

end SessionData

/-- A source of sessions. `load` gives `none` where there is no data for the date, and may throw. -/
structure DataSource where
  sessions : List Date
  load : Date → Except Error (Option SessionData)

end Volforge
