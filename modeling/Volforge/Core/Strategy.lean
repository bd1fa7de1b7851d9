import Volforge.Core.Context

/-!
# `Core.Strategy` — conditions, orders and the strategy coroutine

A strategy is straight-line code that suspends on conditions. One stretch of it, from a resumption to the next
suspension, is a `Script`: a tree that looks at the context, issues commands and goes on with their replies,
until it awaits a condition, returns or throws. What it remembers over a suspension is its `State`. Any
deterministic function of what the context answers can be written this way.

The portfolio is changed through the commands only; scripts read it through the context.
-/

namespace Volforge

variable {F : Type} [Double F]

/-! ## Conditions -/

/-- A predicate over what the context answers. A default-constructed one has no function. -/
structure Cond (F : Type) where
  fn : Option (Ctx F → Except Error Bool) := none

namespace Cond

def when_ (fn : Ctx F → Except Error Bool) : Cond F := ⟨some fn⟩

def valid (c : Cond F) : Bool := c.fn.isSome

def eval (c : Cond F) (ctx : Ctx F) : Except Error Bool :=
  match c.fn with
  | none => .ok false
  | some fn => fn ctx

def or (a b : Cond F) : Cond F :=
  when_ fun c => do if ← a.eval c then return true else b.eval c

def and (a b : Cond F) : Cond F :=
  when_ fun c => do if ← a.eval c then b.eval c else return false

def not (a : Cond F) : Cond F := when_ fun c => do return !(← a.eval c)

end Cond

/-- True from `t` onward: the feed is irregular, so never "equals". -/
def atOrAfter (t : Timestamp) : Cond F := .when_ fun c => .ok (t ≤ c.now)

/-- `std::from_chars` on two characters: an optional minus sign, then at least one digit. -/
def fromChars2 (a b : UInt8) : Option Int :=
  let digit (c : UInt8) : Option Int := if 48 ≤ c ∧ c ≤ 57 then some ((c.toNat : Int) - 48) else none
  match digit a with
  | some x => some (match digit b with
      | some y => 10 * x + y
      | none => x)
  | none => if a = 45 then (digit b).map (fun y => -y) else none

/-- Seconds since midnight of "HH:MM" or "HH:MM:SS". -/
def parseTimeOfDay (s : Bytes) : Except Error Int := do
  let field (offset : Nat) : Except Error Int :=
    match fromChars2 (s.getD offset 0) (s.getD (offset + 1) 0) with
    | none => .error (.invalidArgument "bad time of day")
    | some v => .ok v
  if s.length ≠ 5 ∧ s.length ≠ 8 then
    .error (.invalidArgument "time of day must be HH:MM or HH:MM:SS")
  else
    let h ← field 0
    let m ← field 3
    let sec ← if s.length = 8 then field 6 else .ok 0
    if h < 0 ∨ 23 < h ∨ m < 0 ∨ 59 < m ∨ sec < 0 ∨ 59 < sec then
      .error (.invalidArgument "time of day out of range")
    else return h * 3600 + m * 60 + sec

/-- An indicator a strategy holds: which series it is built on, and how. -/
structure IndicatorRef (F : Type) where
  series : Nat
  kind : IndicatorKind F

/-- "Enter when price crosses the band" has two readings, and the strategy states which it means. -/
inductive Confirm where
  | Instant
  | BarClose
deriving Repr, DecidableEq

namespace Ctx

/-- The next occurrence of a time of day, on the next trading session when it has passed today. -/
def at_ (c : Ctx F) (hhmm : Bytes) : Except Error (Cond F) := do
  let sod ← parseTimeOfDay hhmm
  let today := timestampOf c.date sod c.utcOffset
  if c.now < today then return atOrAfter today
  match c.calendar with
  | some calendar =>
      match calendar.find? (fun d => c.date < d) with
      | some d => return atOrAfter (timestampOf d sod c.utcOffset)
      | none => return .when_ fun _ => .ok false     -- no session left
  | none => return atOrAfter today

def atOn (c : Ctx F) (date : Date) (hhmm : Bytes) : Except Error (Cond F) := do
  return atOrAfter (timestampOf date (← parseTimeOfDay hhmm) c.utcOffset)

/-- A relative deadline, measured from now. -/
def after (c : Ctx F) (seconds : Int) : Cond F := atOrAfter (c.now + fromSeconds seconds)

def pnlPctAtMost (id : PositionId) (pct : F) : Cond F :=
  .when_ fun c => do
    let p ← c.portfolio.atId id
    return p.established && Double.le (p.pnlPct c.market) pct

def pnlPctAtLeast (id : PositionId) (pct : F) : Cond F :=
  .when_ fun c => do
    let p ← c.portfolio.atId id
    return p.established && Double.le pct (p.pnlPct c.market)

def positionClosed (id : PositionId) : Cond F :=
  .when_ fun c => do return (← c.portfolio.atId id).isClosed

/-! ### Crossings -/

def seriesOf (c : Ctx F) (level : IndicatorRef F) : Except Error (SeriesView F) :=
  match c.series[level.series]? with
  | none => .error (.invalidArgument "null indicator")
  | some s => .ok s

def indicatorAt (c : Ctx F) (level : IndicatorRef F) (now : Timestamp) (back : Int) :
    Except Error (Option F) := do
  let s ← c.seriesOf level
  let valueAt ← s.indicator level.kind
  valueAt now back

/-- `prev` on one side of its level and `cur` beyond its own. -/
def crosses (above : Bool) (prev lvlPrev cur lvlCur : F) : Bool :=
  if above then Double.le prev lvlPrev && Double.lt lvlCur cur
  else Double.le lvlPrev prev && Double.lt cur lvlCur

/-- Two adjacent observations, each against the level knowable at that observation. -/
def instantCross (inst : InstrumentId) (level : IndicatorRef F) (above : Bool) : Cond F :=
  .when_ fun c =>
    match c.market.quote inst 0, c.market.quote inst 1 with
    | some nowQ, some prevQ => do
        match ← c.indicatorAt level c.now 0, ← c.indicatorAt level prevQ.ts 0 with
        | some lvlNow, some lvlPrev =>
            return crosses above (Double.ofMinor prevQ.last) lvlPrev (Double.ofMinor nowQ.last) lvlNow
        | _, _ => return false
    | _, _ => .ok false

/-- The last completed bar closed beyond the level while the one before it did not. -/
def barCloseCross (level : IndicatorRef F) (above : Bool) : Cond F :=
  .when_ fun c => do
    let s ← c.seriesOf level
    match ← s.completed c.now 0, ← s.completed c.now 1 with
    | some b0, some b1 =>
        match ← c.indicatorAt level c.now 0, ← c.indicatorAt level c.now 1 with
        | some l0, some l1 =>
            return crosses above (Double.ofMinor b1.close) l1 (Double.ofMinor b0.close) l0
        | _, _ => return false
    | _, _ => return false

def cross (c : Ctx F) (level : IndicatorRef F) (confirm : Confirm) (above : Bool) (name : String) :
    Except Error (Cond F) :=
  match c.series[level.series]? with
  | none => .error (.invalidArgument (name ++ ": null indicator"))
  | some _ =>
      .ok (if confirm = .Instant then instantCross c.spot level above else barCloseCross level above)

def crossAbove (c : Ctx F) (level : IndicatorRef F) (confirm : Confirm) : Except Error (Cond F) :=
  c.cross level confirm true "cross_above"

def crossBelow (c : Ctx F) (level : IndicatorRef F) (confirm : Confirm) : Except Error (Cond F) :=
  c.cross level confirm false "cross_below"

/-! ## Orders -/

def contractsFor (reg : InstrumentRegistry) (legs : List InstrumentId) (lots : Int) : Except Error Qty :=
  match legs with
  | [] => .error (.invalidArgument "order has no legs")
  | front :: _ =>
      if lots ≤ 0 then .error (.invalidArgument "lots must be positive")
      else do
        let lot := (← reg.spec front).lotSize
        legs.forM fun id => do
          if (← reg.spec id).lotSize ≠ lot then
            throw (.invalidArgument "legs have differing lot sizes; size them explicitly")
        return lot.toInt * lots

/-- `Ctx::sell` and `Ctx::buy`: the portfolio afterwards and the new position, if there is one. -/
def openPosition (c : Ctx F) (side : Side) (legs : List InstrumentId) (lots : Int) (label : String) :
    Except Error (Portfolio F × Option PositionId) :=
  if legs.isEmpty then .ok (c.portfolio, none)
  else do
    let qty ← contractsFor c.registry legs lots
    let (p, id) ← c.portfolio.submitOpen label legs side qty c.now
    return (p, some id)

end Ctx

/-- What a strategy can ask the engine to do. -/
inductive Command (F : Type) where
  | sell (legs : List InstrumentId) (lots : Int) (label : String)
  | buy (legs : List InstrumentId) (lots : Int) (label : String)
  | close (id : PositionId)
  | closeLeg (id : PositionId) (legIndex : Nat)
  | stopLoss (id : PositionId) (leg : Option Nat) (pct : F)
  | takeProfit (id : PositionId) (leg : Option Nat) (pct : F)
  | exitAtOn (id : PositionId) (date : Date) (hhmm : Bytes)
  | bars (id : InstrumentId) (intervalSeconds : Int) (source : BarPrice)

/-- What a command answers: the new position of an order, the series of `bars`. -/
abbrev Reply := Except Error (Option Nat)

/-- The commands that go to the portfolio. -/
def Command.submit (c : Ctx F) : Command F → Except Error (Portfolio F × Option Nat)
  | .sell legs lots label => c.openPosition .Sell legs lots label
  | .buy legs lots label => c.openPosition .Buy legs lots label
  | .close id => do return (← c.portfolio.submitClose id c.now, none)
  | .closeLeg id i => do return (← c.portfolio.submitCloseLeg id i c.now, none)
  | .stopLoss id leg pct => do return (← c.portfolio.attachStopLoss id leg pct, none)
  | .takeProfit id leg pct => do return (← c.portfolio.attachTakeProfit id leg pct, none)
  | .exitAtOn id date hhmm => do
      let sod ← parseTimeOfDay hhmm
      return (← c.portfolio.attachExitAt id none (timestampOf date sod kISTOffsetSeconds), none)
  | .bars _ _ _ => .ok (c.portfolio, none)

/-! ## The coroutine -/

/-- One stretch of strategy code. -/
inductive Script (F : Type) (σ : Type) where
  | look (k : Ctx F → Script F σ)
  | order (cmd : Command F) (k : Reply → Script F σ)
  | await (cond : Cond F) (s : σ)
  | finish
  | throw_ (e : Error)

/-- `StrategyFn`: its first stretch, and how it goes on from a suspension. -/
structure Strategy (F : Type) where
  State : Type
  start : Script F State
  resume : State → Script F State

/-- `StrategyTask`: suspended on a condition, or done. -/
inductive Task (F : Type) (σ : Type) where
  | suspended (pending : Cond F) (s : σ)
  | done

namespace Task

def isDone {σ : Type} : Task F σ → Bool
  | .suspended _ _ => false
  | .done => true

end Task

end Volforge
