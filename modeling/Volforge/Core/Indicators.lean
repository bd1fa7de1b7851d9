import Volforge.Core.Bars

/-!
# `Core.Indicators` — indicators over bars

A value per bar, gated on that bar's close time. `sma` keeps a running sum; `stdev` and the bands compute the
statistics of each window anew, in loops of their own.
-/

namespace Volforge

variable {F : Type} [Double F]

/-- `BarIndicator`: one value per bar. -/
structure BarIndicator (F : Type) where
  bars : BarSeries
  values : List F

/-- `BarIndicator::at`. -/
def BarIndicator.valueAt (ind : BarIndicator F) (now : Timestamp) (back : Int) : Except Error (Option F) :=
  if back < 0 then
    .error (.invalidArgument "BarIndicator::at: negative offset reads the future")
  else do
    let k ← ind.bars.knownCount now
    if k = 0 then return none
    if k ≤ back.toNat then return none
    match ind.values[k - 1 - back.toNat]? with
    | none => return none
    | some v => if Double.isNaN v then return none else return some v   -- still warming up

def closesOf (s : BarSeries) : List F := s.bars.map (fun b => Double.ofMinor b.close)

/-- The loop of `sma`: a running sum over the last `period` closes, in the order the source adds. -/
def smaLoop (period : Nat) (closes : List F) : Nat → F → List F → List F
  | _, _, [] => []
  | i, running, c :: rest =>
      let added := running + c
      let running :=
        if period ≤ i then added - closes.getD (i - period) Double.zero else added
      let value := if period ≤ i + 1 then running / Double.ofInt period else Double.nan
      value :: smaLoop period closes (i + 1) running rest

def smaValues (period : Nat) (closes : List F) : List F := smaLoop period closes 0 Double.zero closes

/-- The mean of a window. -/
def windowMean (period : Nat) (window : List F) : F :=
  window.foldl (· + ·) Double.zero / Double.ofInt period

/-- The population standard deviation of a window. -/
def windowDeviation (period : Nat) (window : List F) : F :=
  let mean := windowMean period window
  let acc := window.foldl (fun acc c => let d := c - mean; acc + d * d) Double.zero
  Double.sqrt (acc / Double.ofInt period)

/-- A statistic of the last `period` closes up to each bar, NaN before there are as many. -/
def windowValues (period : Nat) (stat : List F → F) (closes : List F) : List F :=
  (List.range closes.length).map (fun i =>
    if i + 1 < period then Double.nan
    else stat ((closes.take (i + 1)).drop (i + 1 - period)))

/-- The loop of `stdev`. Its condition asks for `period` closes up to the bar, so it ends at the first bar that
    has fewer, and the bars from there on keep their NaN. -/
def stdevLoop (period : Nat) (closes : List F) : Nat → List F → List F
  | _, [] => []
  | i, c :: rest =>
      if i + 1 < period then (c :: rest).map (fun _ => Double.nan)
      else windowDeviation period ((closes.take (i + 1)).drop (i + 1 - period)) ::
        stdevLoop period closes (i + 1) rest

def stdevValues (period : Nat) (closes : List F) : List F := stdevLoop period closes 0 closes

/-- The indicators of the source, with their parameters. -/
inductive IndicatorKind (F : Type) where
  | sma (period : Int)
  | stdev (period : Int)
  | bollingerMiddle (period : Int)
  | bollingerUpper (period : Int) (k : F)
  | bollingerLower (period : Int) (k : F)

namespace IndicatorKind

def period : IndicatorKind F → Int
  | .sma p => p
  | .stdev p => p
  | .bollingerMiddle p => p
  | .bollingerUpper p _ => p
  | .bollingerLower p _ => p

def name : IndicatorKind F → String
  | .sma _ => "sma"
  | .stdev _ => "stdev"
  | _ => "bollinger"

/-- One value for each close. -/
def values : IndicatorKind F → List F → List F
  | .sma p => smaValues p.toNat
  | .stdev p => stdevValues p.toNat
  | .bollingerMiddle p => windowValues p.toNat (windowMean p.toNat)
  | .bollingerUpper p k =>
      windowValues p.toNat (fun w => windowMean p.toNat w + k * windowDeviation p.toNat w)
  | .bollingerLower p k =>
      windowValues p.toNat (fun w => windowMean p.toNat w - k * windowDeviation p.toNat w)

/-- `sma`, `stdev` and `bollinger`. -/
def build (kind : IndicatorKind F) (s : BarSeries) : Except Error (BarIndicator F) :=
  if kind.period ≤ 0 then .error (.invalidArgument (kind.name ++ ": period must be positive"))
  else .ok { bars := s, values := kind.values (closesOf s) }

end IndicatorKind

end Volforge
