import Volforge.Core.EventLoop

/-!
# `Core.Lookahead` — truncated sessions and the look-ahead detector

The detector replays a strategy on the session cut off at chosen instants, and compares the trades with those
the full run had made by then. The random draws of the source are a parameter.
-/

namespace Volforge

variable {F : Type} [Double F]

namespace SessionData

/-- Rows of an instrument at or before the cutoff. -/
def clipCount (s : SessionData) (cutoff : Timestamp) (id : InstrumentId) : Nat :=
  match (s.quotes id).indexAtOrBefore cutoff with
  | none => 0
  | some idx => idx + 1

/-- An instrument with something at or before the cutoff. -/
def keeps (s : SessionData) (cutoff : Timestamp) (id : InstrumentId) : Bool :=
  !(s.quotes id).isEmpty && ((s.quotes id).indexAtOrBefore cutoff).isSome

/-- The columns of `TruncatedSession`. -/
def clipQuotes (s : SessionData) (cutoff : Timestamp) (id : InstrumentId) : QuoteColumns :=
  if id ∈ s.instruments.filter (s.keeps cutoff) then (s.quotes id).first (s.clipCount cutoff id) else {}

/-- `TruncatedSession`: no cached order and no timeline, so the cursor merges instead. -/
def truncate (s : SessionData) (cutoff : Timestamp) : SessionData where
  date := s.date
  registry := s.registry
  instruments := s.instruments.filter (s.keeps cutoff)
  quotes := s.clipQuotes cutoff
  totalObservations := ((s.instruments.filter (s.keeps cutoff)).map (s.clipCount cutoff)).sum
  eventOrder := []
  timeline := []
  printedBy := lookPrintedBy (s.clipQuotes cutoff)

end SessionData

/-! ## Comparison -/

def sameTrade (a b : TradeRecord) : Bool :=
  a.signalTs = b.signalTs && a.fillTs = b.fillTs && a.instrument = b.instrument && a.side = b.side &&
    a.qty = b.qty && a.price = b.price

/-- What the text of a violation is printed from. -/
inductive ViolationDetail where
  /-- "truncated run produced … trades, full run had … by this point" -/
  | count (truncated full : Nat)
  /-- "trade differs under truncation: full[…] vs truncated[…]" -/
  | trade (full truncated : TradeRecord)
deriving Repr, DecidableEq

structure LookaheadViolation where
  cutoff : Timestamp
  detail : ViolationDetail
deriving Repr, DecidableEq

structure LookaheadReport where
  clean : Bool := true
  cutoffsTested : Nat := 0
  tradesCompared : Nat := 0
  violations : List LookaheadViolation := []
deriving Repr, DecidableEq

namespace LookaheadReport

def violation (r : LookaheadReport) (cutoff : Timestamp) (detail : ViolationDetail) : LookaheadReport :=
  { r with clean := false, violations := r.violations ++ [⟨cutoff, detail⟩] }

/-- Compares the log of a truncated run with the part of the full log up to the cutoff. -/
def compare (r : LookaheadReport) (cutoff : Timestamp) (expected truncated : List TradeRecord) :
    LookaheadReport :=
  let r := { r with tradesCompared := r.tradesCompared + expected.length }
  if truncated.length ≠ expected.length then
    r.violation cutoff (.count truncated.length expected.length)
  else match (expected.zip truncated).find? (fun x => !sameTrade x.1 x.2) with
    | none => r
    | some (a, b) => r.violation cutoff (.trade a b)

end LookaheadReport

/-! ## Cutoffs -/

/-- Insertion into `std::set<std::int64_t>`. -/
def insertCutoff (t : Timestamp) : List Timestamp → List Timestamp
  | [] => [t]
  | u :: us => if t < u then t :: u :: us else if t = u then u :: us else u :: insertCutoff t us

/-- The boundaries next to one fill. -/
def cutAround (times : List Timestamp) (chosen : List Timestamp) (t : TradeRecord) : List Timestamp :=
  let k := (times.takeWhile (· < t.fillTs)).length
  let chosen := match times[k]? with
    | some c => insertCutoff c chosen
    | none => chosen
  match k with
  | 0 => chosen
  | k + 1 => insertCutoff (times.getD k 0) chosen

/-- The sampling loop. A draw is an index into the times; the loop may end before the draws do. -/
def drawCutoffs (times : List Timestamp) (cutoffs : Int) : List Nat → List Timestamp → List Timestamp
  | [], chosen => chosen
  | draw :: draws, chosen =>
      if (chosen.length : Int) < cutoffs then
        let chosen := insertCutoff (times.getD draw 0) chosen
        if times.length ≤ chosen.length then chosen else drawCutoffs times cutoffs draws chosen
      else chosen

/-! ## The detector -/

/-- One cutoff. -/
def checkCutoff (session : SessionData) (underlying : UnderlyingId) (spot : InstrumentId)
    (strategy : Strategy F) (config : RunConfig F) (full : RunResult) (r : LookaheadReport)
    (cutoff : Timestamp) : Except Error LookaheadReport := do
  let r := { r with cutoffsTested := r.cutoffsTested + 1 }
  let clipped := session.truncate cutoff
  if clipped.instruments.isEmpty then return r
  let truncated ← runSession clipped underlying spot strategy config
  return r.compare cutoff (full.tradeLog.filter (fun t => t.fillTs ≤ cutoff)) truncated.tradeLog

def checkLookahead (session : SessionData) (underlying : UnderlyingId) (spot : InstrumentId)
    (strategy : Strategy F) (config : RunConfig F) (cutoffs : Int) (draws : List Nat) :
    Except Error LookaheadReport := do
  let full ← runSession session underlying spot strategy config
  let times := SessionData.dropRepeats kNoTime session.events
  if times.length < 2 then return {}
  let chosen := drawCutoffs times cutoffs draws (full.tradeLog.foldl (cutAround times) [])
  chosen.foldlM (checkCutoff session underlying spot strategy config full) {}

end Volforge
