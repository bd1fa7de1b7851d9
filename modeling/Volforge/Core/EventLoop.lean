import Volforge.Core.Strategy

/-!
# `Core.EventLoop` — one strategy over one session

At each distinct timestamp the engine advances the clock, fills what has become eligible, evaluates the
attached rules, samples margin, and only then enters the strategy as long as the condition it waits for holds.

`Engine` holds everything a run changes; `Desk` what it was started with. A multi-session run replays each of
its sessions with the same step (`Core.Backtest`), except that it refreshes the carried marks too.
-/

namespace Volforge

structure RunConfig (F : Type) [Double F] where
  executionDelayNanos : Int := 0
  /-- Defaults to `crossSpreadFill`. -/
  fills : Option (FillModel F) := none
  maxResumesPerStep : Int := 64
  sessionOpenSec : Int := 9 * 3600 + 15 * 60
  rate : F := Double.lit 65 1000
  costs : Option CostPolicy := none
  margin : Option (MarginModel F) := none
  marginSampleSeconds : Int := 60

variable {F : Type} [Double F] {σ : Type}

/-- What a run is started with. -/
structure Desk (F : Type) [Double F] where
  underlying : UnderlyingId
  spot : InstrumentId
  config : RunConfig F
  calendar : Option (List Date) := none

/-- The portfolio of a new run. -/
def RunConfig.portfolio (config : RunConfig F) : Except Error (Portfolio F) :=
  Portfolio.new (config.fills.getD crossSpreadFill) config.executionDelayNanos
    (config.costs.getD (defaultCostPolicy F))

/-- `margin_interval`. -/
def RunConfig.marginInterval (config : RunConfig F) : Int := fromSeconds (max 1 config.marginSampleSeconds)

/-- The state of a run: data, clock, portfolio, the series the strategy holds, the strategy, counters. -/
structure Engine (F : Type) (σ : Type) where
  session : SessionData
  date : Date
  clock : Timestamp := 0
  portfolio : Portfolio F
  series : List BarSeries := []
  task : Task F σ := .done
  nextMargin : Timestamp := kNoTime
  peakMargin : Money := 0
  steps : Nat := 0
  conditionEvals : Nat := 0
  resumes : Nat := 0

namespace Engine

def market (e : Engine F σ) : MarketView := e.session.view e.clock

/-- `Ctx::session_anchor`. -/
def anchor (desk : Desk F) (e : Engine F σ) : Timestamp :=
  timestampOf e.date desk.config.sessionOpenSec kISTOffsetSeconds

/-- The context the strategy is handed. -/
def ctx (desk : Desk F) (e : Engine F σ) : Ctx F where
  market := e.market
  portfolio := e.portfolio
  underlying := desk.underlying
  spot := desk.spot
  date := e.date
  utcOffset := kISTOffsetSeconds
  anchor := e.anchor desk
  rate := desk.config.rate
  margin := desk.config.margin.getD defaultMarginModel
  calendar := desk.calendar
  series := e.series.map (·.view)

/-! ## Entering the strategy -/

/-- `Ctx::bars`: built from the whole session, valid for a day from the session's anchor. -/
def buildBars (desk : Desk F) (e : Engine F σ) (id : InstrumentId) (intervalSeconds : Int)
    (source : BarPrice) : Except Error BarSeries :=
  if intervalSeconds ≤ 0 then .error (.invalidArgument "Ctx::bars: interval must be positive")
  else BarSeries.build (e.session.quotes id) (fromSeconds intervalSeconds) (e.anchor desk) source
    (e.anchor desk + fromSeconds (24 * 3600))

/-- One command. One that throws changes nothing, and the strategy may catch what it throws. -/
def perform (desk : Desk F) (e : Engine F σ) : Command F → Engine F σ × Reply
  | .bars id intervalSeconds source =>
      match e.buildBars desk id intervalSeconds source with
      | .error err => (e, .error err)
      | .ok s => ({ e with series := e.series ++ [s] }, .ok (some e.series.length))
  | cmd =>
      match cmd.submit (e.ctx desk) with
      | .error err => (e, .error err)
      | .ok (p, r) => ({ e with portfolio := p }, .ok r)

end Engine

/-- Runs a stretch of strategy code up to its next suspension. -/
def Script.exec (desk : Desk F) : Script F σ → Engine F σ → Except Error (Engine F σ)
  | .look k, e => (k (e.ctx desk)).exec desk e
  | .order cmd k, e =>
      let (e', reply) := e.perform desk cmd
      (k reply).exec desk e'
  | .await cond s, e => .ok { e with task := .suspended cond s }
  | .finish, e => .ok { e with task := .done }
  | .throw_ err, _ => .error err

namespace Engine

/-- The error of a strategy that never stops asking to be resumed. -/
def spinning : Error := .runtimeError
  "strategy resumed repeatedly within one timestamp: a condition is always true, so it is spinning rather than waiting for the market"

/-- The loop that enters the strategy. `left` resumes are allowed before it counts as spinning. -/
def resumeLoop (desk : Desk F) (resume : σ → Script F σ) : Nat → Engine F σ → Except Error (Engine F σ)
  | left, e =>
      match e.task with
      | .done => .ok e
      | .suspended pending s =>
          -- an empty condition is never asked, so the strategy is not entered again
          if !pending.valid then .ok e
          else do
            let holds ← pending.eval (e.ctx desk)
            let e := { e with conditionEvals := e.conditionEvals + 1 }
            if !holds then return e
            let e ← (resume s).exec desk e
            let e := { e with resumes := e.resumes + 1 }
            match left with
            | 0 => throw spinning
            | left + 1 => resumeLoop desk resume left e

/-! ## One step -/

/-- `ReplayClock::advance_to`. -/
def advanceTo (e : Engine F σ) (t : Timestamp) : Except Error (Engine F σ) :=
  if t < e.clock then .error (.logicError "ReplayClock::advance_to moved backwards")
  else .ok { e with clock := t }

/-- Runs an operation of the portfolio. -/
def operate (e : Engine F σ) (op : Portfolio F → Except Error (Portfolio F)) :
    Except Error (Engine F σ) := do
  return { e with portfolio := ← op e.portfolio }

/-- Margin is sampled rather than recomputed every observation. -/
def sampleMargin (desk : Desk F) (e : Engine F σ) : Except Error (Engine F σ) :=
  if e.clock < e.nextMargin then .ok e
  else do
    let m ← (e.ctx desk).marginNow
    return { e with
      peakMargin := max e.peakMargin m.total
      nextMargin := e.clock + desk.config.marginInterval }

/-- What the engine does at one timestamp before the strategy is entered. `marks` says whether the carried
    marks are refreshed. -/
def settleStep (desk : Desk F) (marks : Bool) (e : Engine F σ) (t : Timestamp) :
    Except Error (Engine F σ) := do
  let e ← e.advanceTo t
  let e := { e with steps := e.steps + 1 }
  let e ← e.operate (fun p => p.processPending e.market)
  -- before anything reads a valuation
  let e ← e.operate (fun p => .ok (if marks then p.refreshMarks e.market else p))
  -- at every observation, whatever the strategy is waiting for
  let e ← e.operate (fun p => p.processRiskRules e.market)
  e.sampleMargin desk

/-- One turn of the loop over the session's timestamps. -/
def step (desk : Desk F) (resume : σ → Script F σ) (marks : Bool) (e : Engine F σ) (t : Timestamp) :
    Except Error (Engine F σ) := do
  let e ← e.settleStep desk marks t
  e.resumeLoop desk resume desk.config.maxResumesPerStep.toNat

end Engine

/-! ## A run over one session -/

structure RunResult where
  date : Date
  realized : Money
  costs : Money
  netRealized : Money
  unrealized : Money
  finalEquity : Money
  observations : Nat
  steps : Nat
  conditionEvals : Nat
  resumes : Nat
  trades : Nat
  illiquidFills : Nat
  oversizedFills : Nat
  cancelledOrders : Nat
  peakMargin : Money
  finalMargin : Money
  rulesFired : Nat
  unfilledOrders : Nat
  openPositions : Nat
  strategyFinished : Bool
  tradeLog : List TradeRecord

/-- Rows walked: counted event by event, or taken from the source that has a timeline. -/
def SessionData.observations (s : SessionData) : Nat :=
  if s.timeline.isEmpty then s.events.length else s.totalObservations

/-- Positions still live. -/
def Portfolio.openPositions (p : Portfolio F) : Nat := (p.positions.filter (·.isOpen)).length

namespace Engine

/-- The engine before the first timestamp: the strategy has run up to its first suspension. -/
def start (desk : Desk F) (strategy : Strategy F) (session : SessionData) (date : Date) :
    Except Error (Engine F strategy.State) := do
  let portfolio ← desk.config.portfolio
  strategy.start.exec desk { session := session, date := date, portfolio := portfolio }

/-- The report at the end of a session. -/
def result (desk : Desk F) (e : Engine F σ) : Except Error RunResult := do
  let finalMargin := (← (e.ctx desk).marginNow).total
  return {
    date := e.session.date
    realized := e.portfolio.realized
    costs := e.portfolio.totalCosts
    netRealized := e.portfolio.netRealized
    unrealized := e.portfolio.unrealized e.market
    finalEquity := e.portfolio.equity e.market
    observations := e.session.observations
    steps := e.steps
    conditionEvals := e.conditionEvals
    resumes := e.resumes
    trades := e.portfolio.trades.length
    illiquidFills := e.portfolio.illiquidFills
    oversizedFills := e.portfolio.oversizedFills
    cancelledOrders := e.portfolio.cancelledOrders
    peakMargin := max e.peakMargin finalMargin
    finalMargin := finalMargin
    rulesFired := e.portfolio.rulesFired
    unfilledOrders := e.portfolio.pending.length
    openPositions := e.portfolio.openPositions
    strategyFinished := e.task.isDone
    tradeLog := e.portfolio.trades }

end Engine

/-- The engine at the end of `run_session`. -/
def replaySession (desk : Desk F) (strategy : Strategy F) (session : SessionData) :
    Except Error (Engine F strategy.State) := do
  let e ← Engine.start desk strategy session session.date
  session.steps.foldlM (Engine.step desk strategy.resume false) e

def runSession (session : SessionData) (underlying : UnderlyingId) (spot : InstrumentId)
    (strategy : Strategy F) (config : RunConfig F) : Except Error RunResult := do
  let desk : Desk F := { underlying := underlying, spot := spot, config := config }
  let e ← replaySession desk strategy session
  e.result desk

end Volforge
