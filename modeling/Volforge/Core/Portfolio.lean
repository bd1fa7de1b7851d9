import Volforge.Core.Costs
import Volforge.Core.DataSource

/-!
# `Core.Portfolio` — positions, legs, orders and fills

The state machine of the source's `Portfolio`: every operation is a function of the same name from one
portfolio to the next, in `Except Error` where the source can throw.

* A loop that moves the orders it keeps into a second vector and swaps the two at the end is a fold that
  starts from an empty queue and pushes the kept orders back.
* `Journal` and `PendingOrder.serial` are history variables: they record which order was submitted, filled,
  cancelled and which leg was settled, at the points where the source does it. No operation reads them.
-/

namespace Volforge

variable {F : Type} [Double F]

/-! ## Fills -/

/-- How an order becomes a price; `none` when there is no market to trade against. -/
structure FillModel (F : Type) where
  fill : Quote → Side → Qty → Option Price
  illiquidSpreadRatio : F

/-- `CrossSpreadFill`. -/
def crossSpreadFill : FillModel F where
  fill q side _ :=
    if !q.twoSided then none
    else if q.ask < q.bid then none   -- crossed book, treated as untradeable
    else some (if side = .Buy then q.ask else q.bid)
  illiquidSpreadRatio := Double.lit 2 100

/-! ## Legs and positions -/

inductive LegState where
  | PendingOpen
  | Open
  | PendingClose
  | Closed
  | Cancelled
deriving Repr, DecidableEq

structure Leg where
  instrument : InstrumentId := -1
  qty : Qty := 0
  state : LegState := .PendingOpen
  entry : Price := 0
  entryTs : Timestamp := 0
  exit : Price := 0
  exitTs : Timestamp := 0
  lastMark : Price := 0
  lastMarkTs : Timestamp := 0
  settled : Bool := false
deriving Repr, DecidableEq

namespace Leg

def filled (l : Leg) : Bool := l.state = .Open || l.state = .PendingClose || l.state = .Closed
def live (l : Leg) : Bool := l.state = .Open || l.state = .PendingClose
def cancelled (l : Leg) : Bool := l.state = .Cancelled
def closingSide (l : Leg) : Side := if l.qty < 0 then .Buy else .Sell

/-- The mark to fall back on when nothing is quoting, or a negative sentinel. -/
def carriedMark (l : Leg) : Price :=
  if l.lastMarkTs ≠ 0 ∧ 0 ≤ l.lastMark then l.lastMark
  else if l.filled then l.entry
  else -1

/-- `Position::mark_for`: the price the leg would close at right now. -/
def markFor (l : Leg) (market : MarketView) : Price :=
  match market.current l.instrument with
  | some q =>
      let side := if l.qty < 0 then q.ask else q.bid
      if 0 < side then side
      else if 0 < l.qty then 0          -- a long with no bid is worthless
      else if 0 < q.last then q.last    -- a short with no offer
      else l.carriedMark
  | none => l.carriedMark

/-- `Position::pnl_of`, for a leg that exists. -/
def pnl (l : Leg) (market : MarketView) : Money :=
  if !l.filled then 0
  else if l.state = .Closed then notional l.exit l.qty - notional l.entry l.qty
  else
    let mark := l.markFor market
    if mark < 0 then 0 else notional mark l.qty - notional l.entry l.qty

/-- `Position::pnl_pct_of`, for a leg that exists. -/
def pnlPct (l : Leg) (market : MarketView) : F :=
  if !l.filled then Double.zero
  else
    let risk := |notional l.entry l.qty|
    if risk = 0 then Double.zero else Double.ofInt (l.pnl market) / Double.ofInt risk

end Leg

/-- Negative ids behave as unknown ones do in the source, so ids are natural numbers. -/
abbrev PositionId := Nat

structure Position where
  id : PositionId
  label : String
  legs : List Leg := []
deriving Repr, DecidableEq

namespace Position

/-- Every leg that is not cancelled has filled, and there is one. -/
def established (p : Position) : Bool :=
  p.legs.all (fun l => l.cancelled || l.filled) && p.legs.any (fun l => !l.cancelled)

def isOpen (p : Position) : Bool := p.legs.any (fun l => l.live || l.state = .PendingOpen)

def isClosed (p : Position) : Bool := p.established && !p.isOpen

def entryNotional (p : Position) : Money :=
  (p.legs.map (fun l => if l.filled then notional l.entry l.qty else 0)).sum

def pnl (p : Position) (market : MarketView) : Money := (p.legs.map (fun l => l.pnl market)).sum

def pnlPct (p : Position) (market : MarketView) : F :=
  if !p.established then Double.zero
  else
    let risk := |p.entryNotional|
    if risk = 0 then Double.zero else Double.ofInt (p.pnl market) / Double.ofInt risk

end Position

/-! ## Orders, rules and trades -/

structure PendingOrder where
  position : PositionId
  legIndex : Nat
  instrument : InstrumentId
  side : Side
  qty : Qty
  submittedAt : Timestamp
  /-- Cannot fill before this. -/
  eligibleAt : Timestamp
  closing : Bool
  fromRule : Bool := false
  /-- History variable: the number of orders submitted before this one. -/
  serial : Nat := 0
deriving Repr, DecidableEq

inductive RiskRuleKind where
  | StopLossPct
  | TakeProfitPct
  | ExitAt
deriving Repr, DecidableEq

/-- A standing exit condition attached to a position, or to one of its legs. -/
structure RiskRule (F : Type) where
  kind : RiskRuleKind
  position : PositionId
  leg : Option Nat
  threshold : F
  deadline : Timestamp := 0
  fired : Bool := false

structure TradeRecord where
  signalTs : Timestamp
  fillTs : Timestamp
  position : PositionId
  instrument : InstrumentId
  side : Side
  qty : Qty
  price : Price
  cost : Money
  illiquid : Bool := false
  fromRule : Bool := false
  oversized : Bool := false
  settled : Bool := false
deriving Repr, DecidableEq

/-- History: one execution of an order, with the quote it was executed against. -/
structure Fill where
  order : PendingOrder
  quote : Quote
  price : Price
  time : Timestamp
deriving Repr, DecidableEq

/-- History variables of a portfolio. -/
structure Journal where
  submitted : List PendingOrder := []
  fills : List Fill := []
  cancelled : List PendingOrder := []
  /-- Position and leg index of every leg closed by cash settlement. -/
  settled : List (PositionId × Nat) := []
deriving Repr, DecidableEq

/-! ## Portfolio -/

structure Portfolio (F : Type) where
  fills : FillModel F
  delay : Int
  costPolicy : CostPolicy
  positions : List Position := []
  pending : List PendingOrder := []
  rules : List (RiskRule F) := []
  trades : List TradeRecord := []
  realized : Money := 0
  totalCosts : Money := 0
  illiquidFills : Nat := 0
  oversizedFills : Nat := 0
  cancelledOrders : Nat := 0
  settledLegs : Nat := 0
  rulesFired : Nat := 0
  closingFromRule : Bool := false
  journal : Journal := {}

namespace Portfolio

/-- A portfolio as the constructor leaves it. -/
def empty (fills : FillModel F) (delay : Int) (costs : CostPolicy) : Portfolio F where
  fills := fills
  delay := delay
  costPolicy := costs

/-- The constructor. -/
def new (fills : FillModel F) (delay : Int) (costs : CostPolicy) : Except Error (Portfolio F) :=
  if delay < 0 then .error (.invalidArgument "Portfolio: negative execution delay")
  else .ok (empty fills delay costs)

/-- `Portfolio::at`. -/
def atId (p : Portfolio F) (id : PositionId) : Except Error Position :=
  match p.positions[id]? with
  | some pos => .ok pos
  | none => .error (.outOfRange "Portfolio::at: unknown position")

/-- `positions_[id].legs()[i]`. -/
def leg? (p : Portfolio F) (id : PositionId) (i : Nat) : Option Leg :=
  p.positions[id]?.bind (fun pos => pos.legs[i]?)

/-- Writes through a leg reference. -/
def modifyLeg (p : Portfolio F) (id : PositionId) (i : Nat) (f : Leg → Leg) : Portfolio F :=
  { p with positions := p.positions.modify id (fun pos => { pos with legs := pos.legs.modify i f }) }

def setState (p : Portfolio F) (id : PositionId) (i : Nat) (st : LegState) : Portfolio F :=
  p.modifyLeg id i (fun l => { l with state := st })

def submit (p : Portfolio F) (o : PendingOrder) : Portfolio F :=
  let order := { o with fromRule := p.closingFromRule, serial := p.journal.submitted.length }
  { p with
    pending := p.pending ++ [order]
    journal := { p.journal with submitted := p.journal.submitted ++ [order] } }

/-- `++cancelled_orders_`, for an order that is not kept. -/
def countCancelled (p : Portfolio F) (o : PendingOrder) : Portfolio F :=
  { p with
    cancelledOrders := p.cancelledOrders + 1
    journal := { p.journal with cancelled := p.journal.cancelled ++ [o] } }

/-- Keeps an order in the queue. -/
def keep (p : Portfolio F) (o : PendingOrder) : Portfolio F := { p with pending := p.pending ++ [o] }

/-! ### Opening -/

/-- One turn of the loop of `submit_open`: a leg and the order that opens it. -/
def openLeg (id : PositionId) (side : Side) (qtyPerLeg : Qty) (now : Timestamp) (p : Portfolio F)
    (inst : InstrumentId) : Portfolio F :=
  let signedQty := if side = .Sell then -qtyPerLeg else qtyPerLeg
  let index := ((p.positions[id]?).map (fun pos => pos.legs.length)).getD 0
  let leg : Leg := { instrument := inst, qty := signedQty, state := .PendingOpen }
  let p := { p with positions := p.positions.modify id (fun pos => { pos with legs := pos.legs ++ [leg] }) }
  p.submit { position := id, legIndex := index, instrument := inst, side := side, qty := qtyPerLeg,
             submittedAt := now, eligibleAt := now + p.delay, closing := false }

def submitOpen (p : Portfolio F) (label : String) (instruments : List InstrumentId) (side : Side)
    (qtyPerLeg : Qty) (now : Timestamp) : Except Error (Portfolio F × PositionId) :=
  if instruments.isEmpty then .error (.invalidArgument "submit_open: no legs")
  else if qtyPerLeg ≤ 0 then .error (.invalidArgument "submit_open: quantity must be positive")
  else
    let id := p.positions.length
    let p := { p with positions := p.positions ++ [{ id := id, label := label }] }
    .ok (instruments.foldl (openLeg id side qtyPerLeg now) p, id)

/-! ### Closing -/

def submitCloseLeg (p : Portfolio F) (id : PositionId) (legIndex : Nat) (now : Timestamp) :
    Except Error (Portfolio F) := do
  let pos ← p.atId id
  match pos.legs[legIndex]? with
  | none => .error (.outOfRange "vector::at")
  | some leg =>
      if leg.state ≠ .Open then return p
      let p := p.setState id legIndex .PendingClose
      return p.submit { position := id, legIndex := legIndex, instrument := leg.instrument,
                        side := leg.closingSide, qty := |leg.qty|, submittedAt := now,
                        eligibleAt := now + p.delay, closing := true }

/-- One turn of the first loop of `submit_close`: opening orders that have not filled are withdrawn. -/
def cancelOpening (id : PositionId) (p : Portfolio F) (o : PendingOrder) : Portfolio F :=
  if o.position = id ∧ o.closing = false then (p.setState id o.legIndex .Cancelled).countCancelled o
  else p.keep o

/-- One turn of the second loop of `submit_close`. -/
def closeIfOpen (id : PositionId) (now : Timestamp) (p : Portfolio F) (i : Nat) :
    Except Error (Portfolio F) :=
  match p.leg? id i with
  | some leg => if leg.state = .Open then p.submitCloseLeg id i now else .ok p
  | none => .ok p

def submitClose (p : Portfolio F) (id : PositionId) (now : Timestamp) : Except Error (Portfolio F) := do
  let pos ← p.atId id
  let p := p.pending.foldl (cancelOpening id) { p with pending := [] }
  (List.range pos.legs.length).foldlM (closeIfOpen id now) p

/-! ### Fills -/

/-- What an executed order does to its leg and to realised P&L. -/
def execute (p : Portfolio F) (o : PendingOrder) (price : Price) (now : Timestamp) : Portfolio F :=
  if o.closing then
    let gain := ((p.leg? o.position o.legIndex).map
      (fun leg => notional price leg.qty - notional leg.entry leg.qty)).getD 0
    { p.modifyLeg o.position o.legIndex
        (fun leg => { leg with exit := price, exitTs := now, state := .Closed }) with
      realized := p.realized + gain }
  else
    p.modifyLeg o.position o.legIndex
      (fun leg => { leg with entry := price, entryTs := now, state := .Open })

/-- The record of an executed order. -/
def tradeOf (p : Portfolio F) (spec : InstrumentSpec) (o : PendingOrder) (q : Quote) (price : Price)
    (now : Timestamp) : TradeRecord :=
  let mid : F := Double.ofMinor q.mid
  let displayed := if o.side = .Buy then q.askQty else q.bidQty
  { signalTs := o.submittedAt, fillTs := now, position := o.position, instrument := o.instrument,
    side := o.side, qty := o.qty, price := price,
    cost := p.costPolicy.costOf { instrument := spec, price := price, qty := o.qty, side := o.side },
    illiquid := Double.lt Double.zero mid &&
      Double.lt p.fills.illiquidSpreadRatio (Double.ofMinor q.spread / mid),
    fromRule := o.fromRule,
    oversized := 0 < displayed && displayed < o.qty }

/-- Books an executed order: leg, counters, costs and trade log. -/
def fillOrder (p : Portfolio F) (spec : InstrumentSpec) (o : PendingOrder) (q : Quote) (price : Price)
    (now : Timestamp) : Portfolio F :=
  let trade := p.tradeOf spec o q price now
  { p.execute o price now with
    illiquidFills := p.illiquidFills + (if trade.illiquid then 1 else 0)
    oversizedFills := p.oversizedFills + (if trade.oversized then 1 else 0)
    totalCosts := p.totalCosts + trade.cost
    trades := p.trades ++ [trade]
    journal := { p.journal with
      fills := p.journal.fills ++ [{ order := o, quote := q, price := price, time := now }] } }

/-- The quote and the price an order executes at now, if it does. -/
def executable (fills : FillModel F) (market : MarketView) (o : PendingOrder) :
    Option (Quote × Price) :=
  if market.now < o.eligibleAt then none          -- not yet executable
  else match market.current o.instrument with
    | none => none                                -- instrument has not printed
    | some q =>
        match fills.fill q o.side o.qty with
        | none => none                            -- no tradeable market; rest
        | some price => some (q, price)

/-- One turn of the loop of `process_pending`. -/
def processOrder (market : MarketView) (p : Portfolio F) (o : PendingOrder) :
    Except Error (Portfolio F) :=
  match executable p.fills market o with
  | none => .ok (p.keep o)
  | some (q, price) => do
      let spec ← market.registry.spec o.instrument
      return p.fillOrder spec o q price market.now

def processPending (p : Portfolio F) (market : MarketView) : Except Error (Portfolio F) :=
  p.pending.foldlM (processOrder market) { p with pending := [] }

/-! ### Marks, settlement and end of day -/

/-- One turn of the loop of `refresh_marks`. -/
def refreshMark (market : MarketView) (leg : Leg) : Leg :=
  if !leg.live then leg
  else match market.current leg.instrument with
    | none => leg
    | some q =>
        let side := if leg.qty < 0 then q.ask else q.bid
        if 0 < side then { leg with lastMark := side, lastMarkTs := market.now }
        else if 0 < leg.qty then { leg with lastMark := 0, lastMarkTs := market.now }
        else if 0 < q.last then { leg with lastMark := q.last, lastMarkTs := market.now }
        else leg                                   -- nothing usable; keep the old mark

def refreshMarks (p : Portfolio F) (market : MarketView) : Portfolio F :=
  { p with positions :=
      p.positions.map fun pos => { pos with legs := pos.legs.map (refreshMark market) } }

/-- An option that expires on `expiry`. -/
def expiresOn (spec : InstrumentSpec) (expiry : Date) : Bool := spec.isOption && spec.expiry = expiry

/-- What an option is worth at settlement. -/
def intrinsicValue (spec : InstrumentSpec) (level : F) : F :=
  let strike : F := Double.ofMinor spec.strike.toInt
  if spec.right = .Call then Double.max Double.zero (level - strike)
  else Double.max Double.zero (strike - level)

/-- Closes one leg at its settlement value. The levy falls on the buyer of an in-the-money option. -/
def settleLeg (p : Portfolio F) (id : PositionId) (i : Nat) (leg : Leg) (spec : InstrumentSpec) (level : F)
    (at_ : Timestamp) : Portfolio F :=
  let value : F := intrinsicValue spec level
  let px : Price := Double.toPrice value
  let cost : Money :=
    if 0 < leg.qty ∧ Double.lt Double.zero value = true then
      p.costPolicy.costOf { instrument := spec, price := px, qty := leg.qty, side := .Sell,
                            exercise := true, intrinsic := px }
    else 0
  let position := ((p.positions[id]?).map (fun pos => pos.id)).getD 0
  { p.modifyLeg id i (fun l => { l with exit := px, exitTs := at_, state := .Closed, settled := true }) with
    realized := p.realized + (notional px leg.qty - notional leg.entry leg.qty)
    totalCosts := p.totalCosts + cost
    trades := p.trades ++ [{ signalTs := at_, fillTs := at_, position := position,
                             instrument := leg.instrument, side := leg.closingSide, qty := |leg.qty|,
                             price := px, cost := cost, settled := true }]
    settledLegs := p.settledLegs + 1
    journal := { p.journal with settled := p.journal.settled ++ [(id, i)] } }

/-- One turn of the first loop of `settle_expiry`. -/
def settleIfDue (market : MarketView) (expiry : Date) (level : F) (at_ : Timestamp) (p : Portfolio F)
    (slot : PositionId × Nat) : Except Error (Portfolio F) :=
  match p.leg? slot.1 slot.2 with
  | none => .ok p
  | some leg =>
      if !leg.live then .ok p
      else do
        let spec ← market.registry.spec leg.instrument
        if !expiresOn spec expiry then return p
        return p.settleLeg slot.1 slot.2 leg spec level at_

/-- One turn of the second loop of `settle_expiry`: orders of an expired instrument can never fill. -/
def dropIfExpired (market : MarketView) (expiry : Date) (p : Portfolio F) (o : PendingOrder) :
    Except Error (Portfolio F) := do
  let spec ← market.registry.spec o.instrument
  if expiresOn spec expiry then
    match p.leg? o.position o.legIndex with
    | some leg =>
        if o.closing = false ∧ leg.state = .PendingOpen then
          return (p.setState o.position o.legIndex .Cancelled).countCancelled o
        else return p.countCancelled o
    | none => return p.countCancelled o
  else return p.keep o

/-- Positions and their legs, in the order the nested loops visit them. -/
def slots (p : Portfolio F) : List (PositionId × Nat) :=
  (p.positions.zipIdx).flatMap (fun x => (List.range x.1.legs.length).map (fun i => (x.2, i)))

/-- Also returns the number of legs it settled. -/
def settleExpiry (p : Portfolio F) (market : MarketView) (expiry : Date) (level : F) (at_ : Timestamp) :
    Except Error (Portfolio F × Nat) := do
  let p' ← p.slots.foldlM (settleIfDue market expiry level at_) p
  let p'' ← p'.pending.foldlM (dropIfExpired market expiry) { p' with pending := [] }
  return (p'', p'.settledLegs - p.settledLegs)

/-- One turn of the first loop of `cancel_working_orders`; the set collects abandoned exits. -/
def abandonOrder (acc : Portfolio F × List PositionId) (o : PendingOrder) :
    Portfolio F × List PositionId :=
  let (p, abandoned) := acc
  match p.leg? o.position o.legIndex with
  | none => (p.countCancelled o, abandoned)
  | some leg =>
      if o.closing then
        -- the exit did not get done: the leg is still held
        if leg.state = .PendingClose then
          ((p.setState o.position o.legIndex .Open).countCancelled o, o.position :: abandoned)
        else (p.countCancelled o, abandoned)
      else if leg.state = .PendingOpen then
        ((p.setState o.position o.legIndex .Cancelled).countCancelled o, abandoned)
      else (p.countCancelled o, abandoned)

/-- Re-arms a rule whose exit was abandoned. -/
def rearm (p : Portfolio F) (abandoned : List PositionId) (rule : RiskRule F) :
    Except Error (RiskRule F) :=
  if rule.fired = false then .ok rule
  else if rule.position ∉ abandoned then .ok rule
  else do
    let pos ← p.atId rule.position
    if !pos.isOpen then return rule
    return { rule with fired := false }

/-- Also returns the number of orders it cancelled. -/
def cancelWorkingOrders (p : Portfolio F) : Except Error (Portfolio F × Nat) := do
  let (p', abandoned) := p.pending.foldl abandonOrder ({ p with pending := [] }, [])
  let rules ← p'.rules.mapM (rearm p' abandoned)
  return ({ p' with rules := rules }, p.pending.length)

/-! ### Risk rules -/

def attachStopLoss (p : Portfolio F) (id : PositionId) (leg : Option Nat) (pct : F) :
    Except Error (Portfolio F) := do
  if Double.le pct Double.zero then
    .error (.invalidArgument "stop_loss: pct must be positive magnitude")
  else
    let _ ← p.atId id   -- validates the id
    return { p with rules := p.rules ++ [{ kind := .StopLossPct, position := id, leg, threshold := pct }] }

def attachTakeProfit (p : Portfolio F) (id : PositionId) (leg : Option Nat) (pct : F) :
    Except Error (Portfolio F) := do
  if Double.le pct Double.zero then
    .error (.invalidArgument "take_profit: pct must be positive magnitude")
  else
    let _ ← p.atId id
    return { p with rules := p.rules ++ [{ kind := .TakeProfitPct, position := id, leg, threshold := pct }] }

def attachExitAt (p : Portfolio F) (id : PositionId) (leg : Option Nat) (when_ : Timestamp) :
    Except Error (Portfolio F) := do
  let _ ← p.atId id
  return { p with rules := p.rules ++
    [{ kind := .ExitAt, position := id, leg, threshold := Double.zero, deadline := when_ }] }

/-- Marks rule `k` as spent. -/
def setFired (p : Portfolio F) (k : Nat) : Portfolio F :=
  { p with rules := p.rules.modify k (fun r => { r with fired := true }) }

/-- Whether a rule that may fire does. -/
def triggered (rule : RiskRule F) (pos : Position) (market : MarketView) : Bool :=
  let pnl : F := match rule.leg with
    | some i => ((pos.legs[i]?).map (fun l => l.pnlPct market)).getD Double.zero
    | none => pos.pnlPct market
  match rule.kind with
  | .StopLossPct => Double.le pnl (-rule.threshold)
  | .TakeProfitPct => Double.le rule.threshold pnl
  | .ExitAt => rule.deadline ≤ market.now

/-- A rule that fires is spent, and the orders that follow are its own. -/
def startRule (p : Portfolio F) (k : Nat) : Portfolio F :=
  { p.setFired k with rulesFired := p.rulesFired + 1, closingFromRule := true }

/-- The closing orders of a rule go through the ordinary path. -/
def closeScope (p : Portfolio F) (rule : RiskRule F) (now : Timestamp) : Except Error (Portfolio F) :=
  match rule.leg with
  | some i => p.submitCloseLeg rule.position i now
  | none => p.submitClose rule.position now

def fireRule (p : Portfolio F) (k : Nat) (rule : RiskRule F) (now : Timestamp) :
    Except Error (Portfolio F) := do
  let q ← (p.startRule k).closeScope rule now
  return { q with closingFromRule := false }

/-- One turn of the loop of `process_risk_rules`, for the rule at index `k`. -/
def processRule (market : MarketView) (p : Portfolio F) (k : Nat) : Except Error (Portfolio F) :=
  match p.rules[k]? with
  | none => .ok p
  | some rule =>
      if rule.fired then .ok p
      else do
        let pos ← p.atId rule.position
        if !pos.isOpen then return p.setFired k
        match rule.leg with
        | some i =>
            match pos.legs[i]? with
            | none => return p.setFired k
            | some leg =>
                if leg.state ≠ .Open then return p
                if !triggered rule pos market then return p
                p.fireRule k rule market.now
        | none =>
            if !pos.established then return p
            if !triggered rule pos market then return p
            p.fireRule k rule market.now

def processRiskRules (p : Portfolio F) (market : MarketView) : Except Error (Portfolio F) :=
  (List.range p.rules.length).foldlM (processRule market) p

/-! ### Valuation -/

def netRealized (p : Portfolio F) : Money := p.realized - p.totalCosts

def unrealized (p : Portfolio F) (market : MarketView) : Money :=
  (p.positions.map (fun pos =>
    (pos.legs.map (fun l => if l.state = .Closed then 0 else l.pnl market)).sum)).sum

/-- Net of costs. -/
def equity (p : Portfolio F) (market : MarketView) : Money :=
  p.realized - p.totalCosts + p.unrealized market

/-! ## Operations -/

/-- The mutating operations of the public interface, with their arguments. -/
inductive Op (F : Type) where
  | submitOpen (label : String) (instruments : List InstrumentId) (side : Side) (qtyPerLeg : Qty)
      (now : Timestamp)
  | submitClose (id : PositionId) (now : Timestamp)
  | submitCloseLeg (id : PositionId) (legIndex : Nat) (now : Timestamp)
  | attachStopLoss (id : PositionId) (leg : Option Nat) (pct : F)
  | attachTakeProfit (id : PositionId) (leg : Option Nat) (pct : F)
  | attachExitAt (id : PositionId) (leg : Option Nat) (when_ : Timestamp)
  | processRiskRules (market : MarketView)
  | processPending (market : MarketView)
  | refreshMarks (market : MarketView)
  | settleExpiry (market : MarketView) (expiry : Date) (level : F) (at_ : Timestamp)
  | cancelWorkingOrders

/-- One operation. An operation that throws leaves no state to continue from: the argument checks throw
    before anything is written, and the rest propagates out of the run that owns the portfolio. -/
def apply (p : Portfolio F) : Op F → Except Error (Portfolio F)
  | .submitOpen label instruments side qty now => (·.1) <$> p.submitOpen label instruments side qty now
  | .submitClose id now => p.submitClose id now
  | .submitCloseLeg id i now => p.submitCloseLeg id i now
  | .attachStopLoss id leg pct => p.attachStopLoss id leg pct
  | .attachTakeProfit id leg pct => p.attachTakeProfit id leg pct
  | .attachExitAt id leg when_ => p.attachExitAt id leg when_
  | .processRiskRules market => p.processRiskRules market
  | .processPending market => p.processPending market
  | .refreshMarks market => .ok (p.refreshMarks market)
  | .settleExpiry market expiry level at_ => (·.1) <$> p.settleExpiry market expiry level at_
  | .cancelWorkingOrders => (·.1) <$> p.cancelWorkingOrders

end Portfolio

end Volforge
