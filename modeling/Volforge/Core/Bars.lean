import Volforge.Core.Quotes

/-!
# `Core.Bars` — resampled bars

`BarSeries.build` folds the rows of one instrument into bars; the bar under construction is kept apart from
the finished ones until the end. Every accessor takes the instant it answers for and gates on the bar's
close time.
-/

namespace Volforge

/-- Which quote field drives a bar. -/
inductive BarPrice where
  | Last
  | Mid
deriving Repr, DecidableEq

structure Bar where
  openTime : Timestamp := 0
  closeTime : Timestamp := 0
  open_ : Price := 0
  high : Price := 0
  low : Price := 0
  close : Price := 0
  volume : Qty := 0
  observations : Nat := 0
deriving Repr, DecidableEq

namespace Bar

/-- A bar with its first observation. -/
def start (openTime closeTime : Timestamp) (px : Price) (qty : Qty) : Bar where
  openTime := openTime
  closeTime := closeTime
  open_ := px
  high := px
  low := px
  close := px
  volume := qty
  observations := 1

/-- A bar with one more observation. -/
def absorb (b : Bar) (px : Price) (qty : Qty) : Bar :=
  { b with
    high := max b.high px
    low := min b.low px
    close := px
    volume := b.volume + qty
    observations := b.observations + 1 }

end Bar

structure BarSeries where
  bars : List Bar := []
  /-- Retained so `forming` can aggregate as of an instant. -/
  cols : QuoteColumns := {}
  validUntil : Timestamp := 0
  anchor : Timestamp := 0
  source : BarPrice := .Last
  interval : Int := 0
deriving DecidableEq

namespace BarSeries

def priceOf (source : BarPrice) (q : Quote) : Price :=
  match source with
  | .Mid => if q.twoSided then q.mid else q.last
  | .Last => q.last

/-- Bucket index relative to the session anchor: floor division, also before the anchor. -/
def bucketOf (anchor : Timestamp) (interval : Int) (t : Timestamp) : Int :=
  let delta := t - anchor
  if 0 ≤ delta then delta.tdiv interval else -((-delta + interval - 1).tdiv interval)

/-- The loop state of `build`: the bars before the last one, and the last one with its bucket. -/
structure BuildState where
  done : List Bar := []
  current : Option (Int × Bar) := none

def BuildState.bars (st : BuildState) : List Bar :=
  match st.current with
  | none => st.done
  | some (_, bar) => st.done ++ [bar]

/-- The bar a first observation in bucket `b` opens. -/
def openBar (anchor : Timestamp) (interval : Int) (b : Int) (px : Price) (qty : Qty) : Bar :=
  let openTime := anchor + b * interval
  .start openTime (openTime + interval) px qty

/-- One turn of the loop of `build`. -/
def addRow (anchor : Timestamp) (interval : Int) (source : BarPrice) (st : BuildState) (q : Quote) :
    BuildState :=
  let px := priceOf source q
  if px ≤ 0 then st                     -- no usable print yet
  else
    let b := bucketOf anchor interval q.ts
    match st.current with
    | none => { st with current := some (b, openBar anchor interval b px q.lastQty) }
    | some (current, bar) =>
        if b ≠ current then
          { done := st.done ++ [bar], current := some (b, openBar anchor interval b px q.lastQty) }
        else { st with current := some (current, bar.absorb px q.lastQty) }

def build (cols : QuoteColumns) (interval : Int) (anchor : Timestamp) (source : BarPrice)
    (validUntil : Timestamp) : Except Error BarSeries :=
  if interval ≤ 0 then .error (.invalidArgument "BarSeries::build: interval must be > 0")
  else .ok { bars := (cols.rows.foldl (addRow anchor interval source) {}).bars,
             cols := cols, validUntil := validUntil, anchor := anchor, source := source,
             interval := interval }

/-- How many bars have closed at or before `now`; `std::upper_bound` over ascending close times. -/
def knownCount (s : BarSeries) (now : Timestamp) : Except Error Nat :=
  if s.validUntil ≠ 0 ∧ s.validUntil < now then
    .error (.logicError "bar series belongs to an earlier session; re-acquire it for the current one")
  else .ok (s.bars.takeWhile (fun b => b.closeTime ≤ now)).length

/-- The most recently completed bar at `now`, stepped `back` bars earlier. -/
def completed (s : BarSeries) (now : Timestamp) (back : Int) : Except Error (Option Bar) :=
  if back < 0 then
    .error (.invalidArgument "BarSeries::completed: negative offset reads forward")
  else do
    let k ← s.knownCount now
    if k = 0 then return none
    if k ≤ back.toNat then return none
    return s.bars[k - 1 - back.toNat]?

/-- One turn of the loop of `forming`. -/
def absorbRow (source : BarPrice) (stored : Bar) (bar : Option Bar) (q : Quote) : Option Bar :=
  if q.ts < stored.openTime then bar
  else
    let px := priceOf source q
    if px ≤ 0 then bar
    else match bar with
      | none => some (.start stored.openTime stored.closeTime px q.lastQty)
      | some bar => some (bar.absorb px q.lastQty)

/-- The bar currently building, aggregated as of `now`. -/
def forming (s : BarSeries) (now : Timestamp) : Except Error (Option Bar) := do
  let k ← s.knownCount now
  match s.bars[k]? with
  | none => return none
  | some stored =>
      if now < stored.openTime then return none   -- has not started
      match s.cols.indexAtOrBefore now with
      | none => return none
      | some upto => return (s.cols.rows.take (upto + 1)).foldl (absorbRow s.source stored) none

end BarSeries

end Volforge
