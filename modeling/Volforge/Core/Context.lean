import Volforge.Core.Indicators
import Volforge.Core.Margin
import Volforge.Core.Portfolio

/-!
# `Core.Context` — what a strategy sees

`Ctx` is the source's context as a record of what its accessors answer at one instant: the time-bounded
market view, the portfolio, and for each bar series the strategy holds a `SeriesView` with the answers of the
accessors that gate on a close time. The session behind it is not part of it.

Chain selection, the parity forward, Greeks and margin are functions of that record. The two caches of the
source (forwards, bar series) are in `Core.Caches`; `Correctness.Caches` shows that they only repeat answers.
-/

namespace Volforge

variable {F : Type} [Double F]

open Double

/-- What one bar series answers. `indicator` builds `sma`, `stdev` or `bollinger` and asks it. -/
structure SeriesView (F : Type) where
  knownCount : Timestamp → Except Error Nat
  completed : Timestamp → Int → Except Error (Option Bar)
  forming : Timestamp → Except Error (Option Bar)
  indicator : IndicatorKind F → Except Error (Timestamp → Int → Except Error (Option F))

def BarSeries.view (s : BarSeries) : SeriesView F where
  knownCount := s.knownCount
  completed := s.completed
  forming := s.forming
  indicator kind := BarIndicator.valueAt <$> kind.build s

structure Ctx (F : Type) where
  market : MarketView
  portfolio : Portfolio F
  underlying : UnderlyingId
  spot : InstrumentId
  date : Date
  utcOffset : Int
  anchor : Timestamp
  rate : F
  margin : MarginModel F
  /-- Null outside a multi-session run. -/
  calendar : Option (List Date)
  series : List (SeriesView F)

namespace Ctx

def now (c : Ctx F) : Timestamp := c.market.now
def registry (c : Ctx F) : InstrumentRegistry := c.market.registry
def spotPrice (c : Ctx F) : Option Price := (c.market.current c.spot).map (·.last)
def expiries (c : Ctx F) : List Date := c.registry.expiries c.underlying
def lotSize (c : Ctx F) (id : InstrumentId) : Except Error Int32 := (·.lotSize) <$> c.registry.spec id

end Ctx

/-! ## Chain -/

/-- The option chain of one expiry. The strikes are those that had quoted when the view was built. -/
structure ChainView where
  expiry : Date
  strikes : List Int32
deriving DecidableEq

/-- Insertion into an ascending list without repetition, as `sort` + `unique` leave it. -/
def insertStrike (k : Int32) : List Int32 → List Int32
  | [] => [k]
  | e :: es => if k < e then k :: e :: es else if k = e then e :: es else e :: insertStrike k es

namespace ChainView

/-- The constructor: only strikes that have quoted at or before now. -/
def new (c : Ctx F) (expiry : Date) : ChainView where
  expiry := expiry
  strikes := c.registry.specs.foldl (fun out s =>
    if !s.isOption then out
    else if s.underlying ≠ c.underlying then out
    else if s.expiry ≠ expiry then out
    else if !c.market.hasQuote s.id then out
    else insertStrike s.strike out) []

end ChainView

/-! ## Forward by put-call parity -/

namespace Parity

/-- Call mid minus put mid at one strike of the ladder, when both are two-sided. -/
def parityAt (c : Ctx F) (expiry : Date) (strikes : List Int32) (i : Nat) : Option F := do
  let strike ← strikes[i]?
  let call ← c.registry.findOption c.underlying expiry strike .Call
  let put ← c.registry.findOption c.underlying expiry strike .Put
  let cq ← c.market.current call
  let pq ← c.market.current put
  if !cq.twoSided || !pq.twoSided then none
  else return ofMinor cq.mid - ofMinor pq.mid

variable (parity : Nat → Option F)

/-- The usable strike nearest to `i`, looked for alternately above and below; given up after thirteen
    steps. -/
def usableNear (n i : Nat) : Option (Nat × F) :=
  (List.range (min n 14)).findSome? fun step =>
    (if i + step < n then (parity (i + step)).map (fun d => (i + step, d)) else none) <|>
    (if step ≠ 0 ∧ step ≤ i then (parity (i - step)).map (fun d => (i - step, d)) else none)

/-- The state of the search: the best strike so far, and the bracket of the crossing. -/
structure Search (F : Type) where
  best : Nat
  bestDiff : F
  lo : Nat
  hi : Nat

/-- Keeps the strike with the smaller difference. -/
def Search.improve (s : Search F) (at_ : Nat) (d : F) : Search F :=
  if lt (abs d) (abs s.bestDiff) then { s with best := at_, bestDiff := d } else s

/-- Brackets the crossing by probing at growing strides from the best strike. -/
def bracket (n : Nat) : List Nat → Search F → Search F
  | [], s => s
  | stride :: strides, s =>
      if lt zero s.bestDiff then            -- forward is above this strike
        let probeAt := s.best + stride
        if n ≤ probeAt then s
        else match parity probeAt with
          | none => s
          | some d =>
              let s := { s with lo := s.best, hi := probeAt }.improve probeAt d
              if le d zero then s else bracket n strides s
      else
        if s.best < stride then s
        else
          let probeAt := s.best - stride
          match parity probeAt with
          | none => s
          | some d =>
              let s := { s with hi := s.best, lo := probeAt }.improve probeAt d
              if le zero d then s else bracket n strides s

/-- Bisects the bracket. Each turn shrinks it, so `hi - lo` turns are enough. -/
def bisect : Nat → Search F → Search F
  | 0, s => s
  | turns + 1, s =>
      if s.hi ≤ s.lo + 1 then s
      else
        let mid := s.lo + (s.hi - s.lo) / 2
        match parity mid with
        | none => s
        | some d =>
            let s := s.improve mid d
            if lt zero d then bisect turns { s with lo := mid } else bisect turns { s with hi := mid }

/-- `1, 2, 4, …` below `n`. -/
def strides (n : Nat) : List Nat := ((List.range n).map (fun k => 2 ^ k)).filter (· < n)

end Parity

namespace Ctx

/-- Forward for an expiry, recovered from the chain. -/
def forward (c : Ctx F) (expiry : Date) : Option F := do
  let t : F := timeToExpiry c.now expiry c.utcOffset
  if !lt zero t then none
  else
    let ladder := (ChainView.new c expiry).strikes
    if ladder.isEmpty then none
    else
      let parity := Parity.parityAt c expiry ladder
      let (start, diff) ← Parity.usableNear parity ladder.length (ladder.length / 2)
      let s := Parity.bracket parity ladder.length (Parity.strides ladder.length)
        { best := start, bestDiff := diff, lo := start, hi := start }
      let s := Parity.bisect parity (s.hi - s.lo) s
      let fwd := ofMinor (ladder.getD s.best 0).toInt + exp (c.rate * t) * s.bestDiff
      if !lt zero fwd || !isFinite fwd then none else some fwd

/-- Implied volatility and Greeks of one option, solved from its current mid. -/
def greeks (c : Ctx F) (id : InstrumentId) : Except Error (Option (GreekSet F)) := do
  let spec ← c.registry.spec id
  if !spec.isOption then return none
  match c.market.current id with
  | none => return none
  | some q =>
      if !q.twoSided then return none
      match c.forward spec.expiry with
      | none => return none
      | some fwd =>
          let t : F := timeToExpiry c.now spec.expiry c.utcOffset
          if !lt zero t then return none
          return impliedGreeks (ofMinor q.mid) fwd (ofMinor spec.strike.toInt) t c.rate spec.right

/-! ## Margin -/

/-- One leg of the loop of `margin`, filed under its expiry. -/
def addMarginLeg (c : Ctx F) (acc : List (Date × MarginLeg F)) (leg : Leg) :
    Except Error (List (Date × MarginLeg F)) :=
  if !leg.live then .ok acc
  else do
    let spec ← c.registry.spec leg.instrument
    if !spec.isOption then return acc
    match ← c.greeks leg.instrument with
    | none => return acc                    -- unsolvable iv; cannot scenario-price this leg
    | some g => return acc ++ [(spec.expiry, ⟨spec.right, ofMinor spec.strike.toInt, leg.qty, g.iv⟩)]

/-- The legs of each expiry, ascending by expiry (`std::map`). -/
def byExpiry (legs : List (Date × MarginLeg F)) : List (Date × List (MarginLeg F)) :=
  (legs.foldl (fun out x => InstrumentRegistry.insertDate x.1 out) []).map
    (fun d => (d, (legs.filter (fun x => x.1 = d)).map (·.2)))

/-- Adds the requirement of one expiry. -/
def addRequirement (c : Ctx F) (total : MarginResult F) (group : Date × List (MarginLeg F)) :
    MarginResult F :=
  match c.forward group.1 with
  | none => total
  | some fwd =>
      let t : F := timeToExpiry c.now group.1 c.utcOffset
      if !lt zero t then total
      else
        let r := c.margin.requirement group.2 fwd t c.rate
        { total with
          span := total.span + r.span
          exposure := total.exposure + r.exposure
          total := total.total + r.total
          scanningRisk := total.scanningRisk + r.scanningRisk
          netOptionValue := total.netOptionValue + r.netOptionValue
          floorApplied := total.floorApplied || r.floorApplied }

/-- `Ctx::margin`: the requirement of every open position, grouped by expiry. -/
def marginNow (c : Ctx F) : Except Error (MarginResult F) := do
  let legs ← (c.portfolio.positions.flatMap (·.legs)).foldlM c.addMarginLeg []
  return (byExpiry legs).foldl c.addRequirement .empty

/-! ## Selection -/

def chainOf (c : Ctx F) (expiry : Date) : ChainView := .new c expiry

/-- `Ctx::chain()`: the nearest expiry from the session's date on, or the last one known. -/
def chain (c : Ctx F) : Except Error ChainView :=
  match c.expiries.find? (fun d => c.date ≤ d) with
  | some d => .ok (.new c d)
  | none =>
      match c.expiries.getLast? with
      | none => .error (.runtimeError "Ctx::chain: no expiries for underlying")
      | some d => .ok (.new c d)

def nextExpiry (c : Ctx F) (minDaysAhead : Int) : Option Date :=
  c.expiries.find? (fun d => addDays c.date minDaysAhead ≤ d)

end Ctx

namespace ChainView

/-- The first strike with the smallest distance from the reference. -/
def nearest (reference : Price) : List Int32 → Option Int32
  | [] => none
  | k :: ks => some (ks.foldl (fun best s =>
      if |s.toInt - reference| < |best.toInt - reference| then s else best) k)

def atmStrike (v : ChainView) (c : Ctx F) : Option Int32 :=
  if v.strikes.isEmpty then none
  else match c.spotPrice with
    | some spot => nearest spot v.strikes
    | none =>
        match c.forward v.expiry with
        | some fwd => nearest (toPrice fwd) v.strikes
        | none => none

def strikeAt (v : ChainView) (c : Ctx F) (offset : Int) : Option Int32 := do
  let atm ← v.atmStrike c
  let idx : Int := ((v.strikes.takeWhile (· < atm)).length : Int) + offset
  if idx < 0 then none else v.strikes[idx.toNat]?

def option (v : ChainView) (c : Ctx F) (strike : Int32) (right : Right) : Option InstrumentId := do
  let id ← c.registry.findOption c.underlying v.expiry strike right
  if !c.market.hasQuote id then none else some id      -- not tradeable yet

/-- Both instruments, or neither: a half-built pair is a different position. -/
def both (call put : Option InstrumentId) : List InstrumentId :=
  match call, put with
  | some call, some put => [call, put]
  | _, _ => []

def straddle (v : ChainView) (c : Ctx F) (offset : Int) : List InstrumentId :=
  match v.strikeAt c offset with
  | none => []
  | some k => both (v.option c k .Call) (v.option c k .Put)

def strangle (v : ChainView) (c : Ctx F) (width : Int) : List InstrumentId :=
  match v.strikeAt c width, v.strikeAt c (-width) with
  | some kc, some kp => both (v.option c kc .Call) (v.option c kp .Put)
  | _, _ => []

/-- One strike of the loop of `by_delta`; the accumulator holds the best option and its gap. -/
def closerDelta (v : ChainView) (c : Ctx F) (want : F) (right : Right) (best : Option (InstrumentId × F))
    (strike : Int32) : Except Error (Option (InstrumentId × F)) :=
  match v.option c strike right with
  | none => .ok best
  | some id => do
      match ← c.greeks id with
      | none => return best                             -- unsolvable iv: skipped, never guessed
      | some g =>
          let gap := abs (abs g.delta - want)
          match best with
          | none => return some (id, gap)
          | some (_, bestGap) => return (if lt gap bestGap then some (id, gap) else best)

def byDelta (v : ChainView) (c : Ctx F) (target : F) (right : Right) : Except Error (Option InstrumentId) :=
  do return (← v.strikes.foldlM (v.closerDelta c (abs target) right) none).map (·.1)

def strangleByDelta (v : ChainView) (c : Ctx F) (target : F) : Except Error (List InstrumentId) := do
  let call ← v.byDelta c target .Call
  let put ← v.byDelta c target .Put
  return both call put

end ChainView

end Volforge
