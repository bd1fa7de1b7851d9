import Volforge.Core.EventLoop

/-!
# `Core.Backtest` — one strategy over many sessions

The strategy and the portfolio outlive a session; only the data is swapped. At the end of a session expired
options are settled in cash and the working orders are cancelled.
-/

namespace Volforge

variable {F : Type} [Double F] {σ : Type}

/-- What happens to options that reach their expiry still open. -/
inductive ExpiryHandling where
  | Settle
  | Forbid
deriving Repr, DecidableEq

structure BacktestConfig (F : Type) [Double F] extends RunConfig F where
  expiry : ExpiryHandling := .Settle
  settlementSecondOfDay : Int := 15 * 3600 + 30 * 60

/-- One session's contribution. -/
structure SessionSummary where
  date : Date
  realizedToDate : Money
  costsToDate : Money
  equity : Money
  peakMargin : Money
  trades : Nat
  settledLegs : Nat
  openPositions : Nat
deriving Repr, DecidableEq

structure BacktestResult where
  sessions : List Date := []
  realized : Money := 0
  costs : Money := 0
  netRealized : Money := 0
  unrealized : Money := 0
  finalEquity : Money := 0
  peakMargin : Money := 0
  observations : Nat := 0
  steps : Nat := 0
  resumes : Nat := 0
  trades : Nat := 0
  settledLegs : Nat := 0
  illiquidFills : Nat := 0
  oversizedFills : Nat := 0
  cancelledOrders : Nat := 0
  openPositions : Nat := 0
  strategyFinished : Bool := false
  tradeLog : List TradeRecord := []
  daily : List SessionSummary := []
deriving Repr, DecidableEq

/-! ## End of a session -/

/-- The level options settle against: the last print of the spot, or a forward. -/
def settlementLevel (c : Ctx F) (spot : InstrumentId) (expiry : Date) : Option F :=
  let print : Option F :=
    if validId spot then
      (c.market.current spot).bind (fun q => if 0 < q.last then some (Double.ofMinor q.last) else none)
    else none
  -- at the bell the expiring series has no time left; a later one still has a forward
  print <|> c.forward expiry <|> (c.expiries.filter (fun d => ¬ d ≤ expiry)).findSome? c.forward

/-- One leg of the loop of `due_expiries`. -/
def addDue (registry : InstrumentRegistry) (today : Date) (due : List Date) (leg : Leg) :
    Except Error (List Date) :=
  if !leg.live then .ok due
  else do
    let spec ← registry.spec leg.instrument
    if !spec.isOption || !spec.expiry.valid then return due
    if spec.expiry ≤ today then return InstrumentRegistry.insertDate spec.expiry due
    return due

/-- Expiries that have arrived and still have something open against them, ascending. -/
def dueExpiries (p : Portfolio F) (registry : InstrumentRegistry) (today : Date) :
    Except Error (List Date) :=
  (p.positions.flatMap (·.legs)).foldlM (addDue registry today) []

namespace Engine

/-- `market.emplace` and `Ctx::bind_session`: new data, and a new session's margin samples. -/
def bindSession (e : Engine F σ) (session : SessionData) (date : Date) : Engine F σ :=
  { e with session := session, date := date, nextMargin := kNoTime, peakMargin := 0 }

/-- One due expiry; the number is `settled_today`. -/
def settleDue (desk : Desk F) (handling : ExpiryHandling) (acc : Engine F σ × Nat) (expiry : Date) :
    Except Error (Engine F σ × Nat) :=
  let (e, settledToday) := acc
  if handling = .Forbid then
    .error (.runtimeError "a position was still open at expiry and ExpiryHandling::Forbid is set")
  else match settlementLevel (e.ctx desk) desk.spot expiry with
    -- no level is made up
    | none => .error (.runtimeError
        "cannot settle expiry: no underlying level and no parity forward available")
    | some level => do
        let (p, settled) ← e.portfolio.settleExpiry e.market expiry level e.clock
        return ({ e with portfolio := p }, settledToday + settled)

/-- The clock moves to the settlement time unless the session ran past it. -/
def toSettlement (config : BacktestConfig F) (e : Engine F σ) : Engine F σ :=
  let settleAt := timestampOf e.date config.settlementSecondOfDay kISTOffsetSeconds
  if e.clock < settleAt then { e with clock := settleAt } else e

/-- Settlement and cancellation at the end of a session. -/
def endSession (desk : Desk F) (config : BacktestConfig F) (e : Engine F σ) :
    Except Error (Engine F σ × Nat) := do
  let e := e.toSettlement config
  let due ← dueExpiries e.portfolio e.session.registry e.date
  let (e, settledToday) ← due.foldlM (settleDue desk config.expiry) (e, 0)
  -- day orders: what is unfilled expires with the session
  let e ← e.operate (fun p => (·.1) <$> p.cancelWorkingOrders)
  return (e, settledToday)

/-- One session: bound, replayed and closed. -/
def runDay (desk : Desk F) (config : BacktestConfig F) (resume : σ → Script F σ) (e : Engine F σ)
    (session : SessionData) (date : Date) : Except Error (Engine F σ × Nat) := do
  let e ← session.steps.foldlM (Engine.step desk resume true) (e.bindSession session date)
  e.endSession desk config

end Engine

/-! ## The run -/

/-- The state between two sessions. -/
structure Campaign (F : Type) (σ : Type) where
  engine : Engine F σ
  sessions : List Date := []
  daily : List SessionSummary := []
  observations : Nat := 0
  peakMargin : Money := 0
  tradesSeen : Nat := 0

namespace Campaign

/-- The summary of a session that ends with engine `e`. -/
def summary (c : Campaign F σ) (e : Engine F σ) (settledToday : Nat) : SessionSummary where
  date := e.date
  realizedToDate := e.portfolio.realized
  costsToDate := e.portfolio.totalCosts
  equity := e.portfolio.equity e.market
  peakMargin := e.peakMargin
  trades := e.portfolio.trades.length - c.tradesSeen
  settledLegs := settledToday
  openPositions := e.portfolio.openPositions

/-- One turn of the loop over the dates. A gap in the data is not an error. -/
def nextDate (desk : Desk F) (config : BacktestConfig F) (source : DataSource) (resume : σ → Script F σ)
    (c : Campaign F σ) (date : Date) : Except Error (Campaign F σ) := do
  match ← source.load date with
  | none => return c
  | some session =>
      let (e, settledToday) ← c.engine.runDay desk config resume session date
      return {
        engine := e
        sessions := c.sessions ++ [date]
        daily := c.daily ++ [c.summary e settledToday]
        observations := c.observations + session.observations
        peakMargin := max c.peakMargin e.peakMargin
        tradesSeen := e.portfolio.trades.length }

def result (c : Campaign F σ) : BacktestResult :=
  let p := c.engine.portfolio
  let unrealized := match c.daily.getLast? with
    | none => 0
    | some s => s.equity - p.netRealized
  { sessions := c.sessions
    realized := p.realized
    costs := p.totalCosts
    netRealized := p.netRealized
    unrealized := unrealized
    finalEquity := p.netRealized + unrealized
    peakMargin := c.peakMargin
    observations := c.observations
    steps := c.engine.steps
    resumes := c.engine.resumes
    trades := p.trades.length
    settledLegs := p.settledLegs
    illiquidFills := p.illiquidFills
    oversizedFills := p.oversizedFills
    cancelledOrders := p.cancelledOrders
    openPositions := p.openPositions
    strategyFinished := c.engine.task.isDone
    tradeLog := p.trades
    daily := c.daily }

end Campaign

/-- The desk of a multi-session run: the strategy may ask for the run's calendar. -/
def backtestDesk (underlying : UnderlyingId) (spot : InstrumentId) (config : BacktestConfig F)
    (dates : List Date) : Desk F where
  underlying := underlying
  spot := spot
  config := config.toRunConfig
  calendar := some dates

/-- Before the first session: the strategy is entered with the first session bound. -/
def startCampaign (desk : Desk F) (source : DataSource) (strategy : Strategy F) (front : Date) :
    Except Error (Campaign F strategy.State) := do
  match ← source.load front with
  | none => .error (.runtimeError "run_backtest: first session failed to load")
  | some session => return { engine := ← Engine.start desk strategy session front }

/-- The run up to the end of the last of `dates`. -/
def replayDates (desk : Desk F) (config : BacktestConfig F) (source : DataSource) (strategy : Strategy F)
    (dates : List Date) (c : Campaign F strategy.State) : Except Error (Campaign F strategy.State) :=
  dates.foldlM (Campaign.nextDate desk config source strategy.resume) c

/-- Dates in ascending order (`std::is_sorted`). -/
def datesSorted : List Date → Bool
  | [] => true
  | [_] => true
  | a :: b :: rest => !(b < a) && datesSorted (b :: rest)

def runBacktest (source : DataSource) (underlying : UnderlyingId) (spot : InstrumentId)
    (strategy : Strategy F) (config : BacktestConfig F) (dates : List Date) :
    Except Error BacktestResult := do
  let dates := if dates.isEmpty then source.sessions else dates
  if !datesSorted dates then
    .error (.invalidArgument "run_backtest: sessions must be in ascending date order")
  else
    -- the portfolio is constructed before the dates are looked at, and may throw
    let _ ← config.portfolio
    match dates with
    | [] => return {}
    | front :: _ =>
        let desk := backtestDesk underlying spot config dates
        let c ← startCampaign desk source strategy front
        let c ← replayDates desk config source strategy dates c
        return c.result

end Volforge
