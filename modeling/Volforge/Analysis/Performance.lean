import Volforge.Core.Backtest
import Volforge.Lib.Falls

/-!
# `Analysis.Performance` — statistics of a backtest result

`analyze` reads a finished backtest. Its numbers are those of an ordered field, so nothing is rounded; the square root
of `math` is a parameter.
-/

namespace Volforge

namespace Analysis

variable {K D : Type} [Field K] [LinearOrder K]

/-- NSE trades about 250 sessions a year. -/
def sessionsPerYear : Nat := 250

/-- What `analyze` reads of one session. -/
structure Session (K D : Type) where
  date : D
  equity : K
  trades : Nat := 0

/-- What `analyze` reads of a backtest. -/
structure Result (K D : Type) [Zero K] where
  daily : List (Session K D) := []
  trades : Nat := 0
  realized : K := 0
  costs : K := 0
  netRealized : K := 0
  unrealized : K := 0
  finalEquity : K := 0
  peakMargin : K := 0
  settledLegs : Nat := 0
  illiquidFills : Nat := 0
  oversizedFills : Nat := 0

/-- `Money::to_double`. -/
def toDouble (m : Money) : K := (m : K) / 100

/-- The attributes of a `SessionSummary` that `analyze` reads. -/
def session (s : SessionSummary) : Session K Date where
  date := s.date
  equity := toDouble s.equity
  trades := s.trades

/-- The attributes of a `BacktestResult` that `analyze` reads. -/
def report (r : BacktestResult) : Result K Date where
  daily := r.daily.map session
  trades := r.trades
  realized := toDouble r.realized
  costs := toDouble r.costs
  netRealized := toDouble r.netRealized
  unrealized := toDouble r.unrealized
  finalEquity := toDouble r.finalEquity
  peakMargin := toDouble r.peakMargin
  settledLegs := r.settledLegs
  illiquidFills := r.illiquidFills
  oversizedFills := r.oversizedFills

/-- The worst peak-to-trough fall in net equity. -/
structure Drawdown (K D : Type) [Zero K] where
  depth : K := 0
  peakEquity : K := 0
  troughEquity : K := 0
  peakDate : Option D := none
  troughDate : Option D := none
  recoveredDate : Option D := none
  sessionsUnderWater : Nat := 0

structure Performance (K D : Type) [Zero K] where
  sessions : Nat := 0
  trades : Nat := 0
  tradedSessions : Nat := 0
  gross : K := 0
  costs : K := 0
  net : K := 0
  unrealized : K := 0
  finalEquity : K := 0
  peakMargin : K := 0
  returnOnPeak : K := 0
  costRatio : K := 0
  dailyPnl : List K := []
  equityCurve : List K := []
  dates : List D := []
  winningSessions : Nat := 0
  losingSessions : Nat := 0
  flatSessions : Int := 0
  winRate : K := 0
  averageWin : K := 0
  averageLoss : K := 0
  /-- `⊤` is the infinite factor of a run that never lost. -/
  profitFactor : WithTop K := some 0
  bestSession : K := 0
  worstSession : K := 0
  longestLosingStreak : Nat := 0
  volatility : K := 0
  sharpe : K := 0
  drawdown : Drawdown K D := {}
  settledLegs : Nat := 0
  illiquidFills : Nat := 0
  oversizedFills : Nat := 0

/-! ## Drawdown -/

/-- The variables of the pass over the curve. -/
structure Pass (K : Type) where
  peak : K
  peakI : Nat := 0
  worstI : Nat := 0
  worstPeakI : Nat := 0
  worst : K

/-- One turn of the pass. -/
def Pass.turn (st : Pass K) (x : K × Nat) : Pass K :=
  let st := if st.peak < x.1 then { st with peak := x.1, peakI := x.2 } else st
  let fall := x.1 - st.peak
  if fall < st.worst then { st with worst := fall, worstI := x.2, worstPeakI := st.peakI } else st

def Pass.start (first : K) : Pass K where
  peak := first
  worst := 0

/-- `_drawdown`. -/
def drawdown (equity : List K) (dates : List D) : Drawdown K D :=
  match equity with
  | [] => {}
  | first :: _ =>
      let st := equity.zipIdx.foldl Pass.turn (.start first)
      if 0 ≤ st.worst then {}
      else
        let peakEquity := equity.getD st.worstPeakI 0
        let later := List.range' (st.worstI + 1) (equity.length - (st.worstI + 1))
        let back := later.find? (fun j => equity[j]?.any (peakEquity ≤ ·))
        { depth := st.worst
          peakEquity := peakEquity
          troughEquity := equity.getD st.worstI 0
          peakDate := dates[st.worstPeakI]?
          troughDate := dates[st.worstI]?
          recoveredDate := back.bind (dates[·]?)
          sessionsUnderWater := back.getD equity.length - st.worstPeakI }

/-! ## The whole report -/

/-- `longest_losing_streak`: the streak that ends at the session, and the longest one so far. -/
def losingStreak (st : Nat × Nat) (x : K) : Nat × Nat :=
  let streak := if x < 0 then st.1 + 1 else 0
  (streak, max st.2 streak)

/-- What `analyze` fills in before it looks at the sessions one by one. -/
def totals (result : Result K D) : Performance K D :=
  let curve := result.daily.map Session.equity
  { sessions := result.daily.length
    trades := result.trades
    tradedSessions := result.daily.countP (fun s => s.trades ≠ 0)
    gross := result.realized
    costs := result.costs
    net := result.netRealized
    unrealized := result.unrealized
    finalEquity := result.finalEquity
    peakMargin := result.peakMargin
    settledLegs := result.settledLegs
    illiquidFills := result.illiquidFills
    oversizedFills := result.oversizedFills
    costRatio := if 0 < result.realized then result.costs / result.realized else 0
    returnOnPeak := if 0 < result.peakMargin then 100 * result.finalEquity / result.peakMargin else 0
    dates := result.daily.map Session.date
    equityCurve := curve
    dailyPnl := Falls.differences 0 curve }

/-- Annualised volatility and Sharpe ratio, on peak margin. -/
def ratios (sqrt : K → K) (p : Performance K D) : K × K :=
  if 0 < p.peakMargin ∧ 1 < p.dailyPnl.length then
    let returns := p.dailyPnl.map (· / p.peakMargin)
    let mean : K := returns.sum / returns.length
    let squares : List K := returns.map (fun r => (r - mean) ^ 2)
    let variance := squares.sum / (returns.length - 1)
    let sd := sqrt variance
    (sd * sqrt sessionsPerYear, if 0 < sd then mean / sd * sqrt sessionsPerYear else 0)
  else (0, 0)

def analyze (sqrt : K → K) (result : Result K D) : Performance K D :=
  let p := totals result
  if p.dailyPnl.isEmpty then p
  else
    let wins := p.dailyPnl.filter (0 < ·)
    let losses := p.dailyPnl.filter (· < 0)
    let decided := wins.length + losses.length
    let totalLoss := -losses.sum
    { p with
      winningSessions := wins.length
      losingSessions := losses.length
      flatSessions := (p.sessions : Int) - wins.length - losses.length
      winRate := if decided = 0 then 0 else wins.length / decided
      averageWin := if wins.isEmpty then 0 else wins.sum / wins.length
      bestSession := wins.max?.getD 0
      averageLoss := if losses.isEmpty then 0 else losses.sum / losses.length
      worstSession := losses.min?.getD 0
      profitFactor := if 0 < totalLoss then some (wins.sum / totalLoss) else ⊤
      longestLosingStreak := (p.dailyPnl.foldl losingStreak (0, 0)).2
      drawdown := drawdown p.equityCurve p.dates
      volatility := (ratios sqrt p).1
      sharpe := (ratios sqrt p).2 }

end Analysis

end Volforge
