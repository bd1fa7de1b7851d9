import Volforge.Core.Correctness.Orders
import Volforge.Lib.Tally

/-!
# `Core.Correctness.Books` — the books balance

Money is booked when an order fills, when an expiry settles and when a mark is taken. `Balanced` relates the
three to the legs and to the trade log, and every move keeps it.

## Contents
- **Sums over legs.** `legSum`, `positionSum`, and what a write to one leg adds to them.
- **The trade log.** Signed cash and signed quantity of a trade.
- **`Balanced`.** Its preservation, `Balanced.apply`, and the valuation identity `equity_eq`.
-/

namespace Volforge

variable {F : Type}

/-! ## The trade log -/

namespace TradeRecord

/-- Bought quantity counts up, sold quantity down. -/
def signedQty (t : TradeRecord) : Qty :=
  match t.side with
  | .Buy => t.qty
  | .Sell => -t.qty

/-- What a trade adds to the cash account, before costs. -/
def cash (t : TradeRecord) : Money :=
  match t.side with
  | .Buy => -(t.price * t.qty)
  | .Sell => t.price * t.qty

theorem cash_eq (t : TradeRecord) : t.cash = -(t.price * t.signedQty) := by
  unfold cash signedQty
  cases t.side with
  | Buy => rfl
  | Sell => ring

end TradeRecord

/-- Closing a leg trades its quantity back. -/
theorem signedQty_of_closing {t : TradeRecord} (leg : Leg) (hside : t.side = leg.closingSide)
    (hqty : t.qty = |leg.qty|) : t.signedQty = -leg.qty := by
  unfold TradeRecord.signedQty
  rw [hside, hqty]
  unfold Leg.closingSide
  by_cases hneg : leg.qty < 0
  · simp only [if_pos hneg]
    exact abs_of_neg hneg
  · simp only [if_neg hneg]
    rw [abs_of_nonneg (not_lt.mp hneg)]

namespace Portfolio

theorem signedQty_of_opening {t : TradeRecord} {o : PendingOrder} {leg : Leg} (hside : t.side = o.side)
    (hqty : t.qty = o.qty) (ho : Opens o leg) : t.signedQty = leg.qty := by
  unfold TradeRecord.signedQty
  rw [hside, hqty, ho.qty]
  cases o.side with
  | Buy => simp
  | Sell => simp

/-- Cash of the trade log. -/
def tradeCash (p : Portfolio F) : Money := (p.trades.map TradeRecord.cash).sum

/-- Net traded quantity of an instrument in a position. -/
def netTraded (p : Portfolio F) (id : PositionId) (inst : InstrumentId) : Qty :=
  ((p.trades.filter (fun t => t.position = id ∧ t.instrument = inst)).map TradeRecord.signedQty).sum

/-! ## Sums over legs -/

/-- Sum over the legs of one position. -/
def positionSum (f : Leg → Int) (p : Portfolio F) (id : PositionId) : Int :=
  ((p.positions[id]?).map (fun pos => (pos.legs.map f).sum)).getD 0

/-- Sum over all legs. -/
def legSum (f : Leg → Int) (p : Portfolio F) : Int :=
  (p.positions.map (fun pos => (pos.legs.map f).sum)).sum

theorem legSum_congr_positions {p q : Portfolio F} (f : Leg → Int) (h : q.positions = p.positions) :
    legSum f q = legSum f p := by
  simp only [legSum, h]

theorem positionSum_congr_positions {p q : Portfolio F} (f : Leg → Int) (h : q.positions = p.positions)
    (id : PositionId) : positionSum f q id = positionSum f p id := by
  simp only [positionSum, h]

theorem legSum_modifyLeg (f : Leg → Int) (g : Leg → Leg) {p : Portfolio F} {id : PositionId} {i : Nat}
    {leg : Leg} (h : p.leg? id i = some leg) :
    legSum f (p.modifyLeg id i g) = legSum f p + (f (g leg) - f leg) := by
  obtain ⟨pos, hpos, hleg⟩ := leg?_eq_some.mp h
  simp only [legSum, modifyLeg]
  rw [Tally.sum_map_modify _ _ hpos, Tally.sum_map_modify f g hleg]
  ring

theorem positionSum_modifyLeg (f : Leg → Int) (g : Leg → Leg) {p : Portfolio F} {id : PositionId} {i : Nat}
    {leg : Leg} (h : p.leg? id i = some leg) (id' : PositionId) :
    positionSum f (p.modifyLeg id i g) id' =
      positionSum f p id' + if id = id' then f (g leg) - f leg else 0 := by
  obtain ⟨pos, hpos, hleg⟩ := leg?_eq_some.mp h
  simp only [positionSum, modifyLeg, List.getElem?_modify]
  by_cases hid : id = id'
  · subst hid
    simp only [hpos, if_true, Option.map_eq_map, Option.map_some, Option.getD_some]
    rw [Tally.sum_map_modify f g hleg]
  · simp [hid]

theorem legSum_marks (f : Leg → Int) (g : Leg → Leg) (hfg : ∀ l, f (g l) = f l) (p : Portfolio F) :
    legSum f { p with positions := p.positions.map fun pos => { pos with legs := pos.legs.map g } } =
      legSum f p := by
  simp only [legSum, List.map_map]
  congr 1
  refine List.map_congr_left (fun pos _ => ?_)
  simp [Function.comp_def, hfg]

theorem positionSum_marks (f : Leg → Int) (g : Leg → Leg) (hfg : ∀ l, f (g l) = f l) (p : Portfolio F)
    (id : PositionId) :
    positionSum f { p with positions := p.positions.map fun pos => { pos with legs := pos.legs.map g } } id =
      positionSum f p id := by
  simp only [positionSum, List.getElem?_map]
  cases p.positions[id]? with
  | none => rfl
  | some pos => simp [Function.comp_def, hfg]

theorem legSum_addPosition (f : Leg → Int) (p : Portfolio F) (label : String) :
    legSum f { p with positions := p.positions ++ [{ id := p.positions.length, label := label }] } =
      legSum f p := by
  simp [legSum]

theorem positionSum_addPosition (f : Leg → Int) (p : Portfolio F) (label : String) (id : PositionId) :
    positionSum f { p with positions := p.positions ++ [{ id := p.positions.length, label := label }] } id =
      positionSum f p id := by
  simp only [positionSum]
  by_cases hlt : id < p.positions.length
  · rw [List.getElem?_append_left hlt]
  · have hge : p.positions.length ≤ id := not_lt.mp hlt
    rw [List.getElem?_append_right hge, List.getElem?_eq_none hge]
    cases id - p.positions.length with
    | zero => simp
    | succ n => simp

/-- A leg that has not opened adds nothing to a sum that ignores such legs. -/
theorem legSum_openLeg (f : Leg → Int) (hf : ∀ l, l.state = .PendingOpen → f l = 0) (id : PositionId)
    (side : Side) (qty : Qty) (now : Timestamp) (p : Portfolio F) (inst : InstrumentId) :
    legSum f (openLeg id side qty now p inst) = legSum f p := by
  simp only [legSum, openLeg, submit]
  cases hpos : p.positions[id]? with
  | none => rw [List.modify_eq_self (List.getElem?_eq_none_iff.mp hpos)]
  | some pos =>
      rw [Tally.sum_map_modify _ _ hpos]
      simp [hf]

theorem positionSum_openLeg (f : Leg → Int) (hf : ∀ l, l.state = .PendingOpen → f l = 0) (id : PositionId)
    (side : Side) (qty : Qty) (now : Timestamp) (p : Portfolio F) (inst : InstrumentId)
    (id' : PositionId) : positionSum f (openLeg id side qty now p inst) id' = positionSum f p id' := by
  simp only [positionSum, openLeg, submit, List.getElem?_modify]
  by_cases hid : id = id'
  · subst hid
    cases p.positions[id]? with
    | none => rfl
    | some pos => simp [hf]
  · simp [hid]

theorem legSum_congr {f g : Leg → Int} {p : Portfolio F}
    (h : ∀ id i leg, p.leg? id i = some leg → f leg = g leg) : legSum f p = legSum g p := by
  simp only [legSum]
  congr 1
  refine List.map_congr_left (fun pos hpos => ?_)
  obtain ⟨id, hid⟩ := List.mem_iff_getElem?.mp hpos
  congr 1
  refine List.map_congr_left (fun leg hleg => ?_)
  obtain ⟨i, hi⟩ := List.mem_iff_getElem?.mp hleg
  exact h id i leg (leg?_eq_some.mpr ⟨pos, hid, hi⟩)

theorem legSum_sub (f g : Leg → Int) (p : Portfolio F) :
    legSum (fun l => f l - g l) p = legSum f p - legSum g p := by
  simp only [legSum, Tally.sum_map_sub]

end Portfolio

/-! ## What a leg contributes -/

namespace Leg

/-- Realised by a closed leg. -/
def gain (l : Leg) : Money := if l.state = .Closed then (l.exit - l.entry) * l.qty else 0

/-- Paid for a leg that is still held. -/
def cost (l : Leg) : Money := if l.live then l.entry * l.qty else 0

/-- What a held leg would bring at its mark. -/
def value (market : MarketView) (l : Leg) : Money := if l.live then l.markFor market * l.qty else 0

/-- Quantity held of an instrument. -/
def held (inst : InstrumentId) (l : Leg) : Qty := if l.live ∧ l.instrument = inst then l.qty else 0

theorem gain_of_not_closed {l : Leg} (h : l.state ≠ .Closed) : l.gain = 0 := by simp [gain, h]
theorem cost_of_not_live {l : Leg} (h : l.live = false) : l.cost = 0 := by simp [cost, h]
theorem held_of_not_live {l : Leg} (h : l.live = false) (inst : InstrumentId) : l.held inst = 0 := by
  simp [held, h]

theorem gain_pendingOpen (l : Leg) (h : l.state = .PendingOpen) : l.gain = 0 :=
  gain_of_not_closed (by simp [h])
theorem cost_pendingOpen (l : Leg) (h : l.state = .PendingOpen) : l.cost = 0 :=
  cost_of_not_live (by simp [live, h])
theorem held_pendingOpen (inst : InstrumentId) (l : Leg) (h : l.state = .PendingOpen) : l.held inst = 0 :=
  held_of_not_live (by simp [live, h]) inst

/-- A leg with a sensible entry always has a mark. -/
theorem markFor_nonneg {l : Leg} {market : MarketView} (hfilled : l.filled = true) (hentry : 0 ≤ l.entry) :
    0 ≤ l.markFor market := by
  have hcarried : 0 ≤ l.carriedMark := by
    unfold carriedMark
    by_cases hmark : l.lastMarkTs ≠ 0 ∧ 0 ≤ l.lastMark
    · rw [if_pos hmark]
      exact hmark.2
    · rw [if_neg hmark, if_pos hfilled]
      exact hentry
  unfold markFor
  cases market.current l.instrument with
  | none => exact hcarried
  | some q =>
      dsimp only
      generalize (if l.qty < 0 then q.ask else q.bid) = side
      split_ifs with hside _ hlast
      · exact le_of_lt hside
      · exact le_refl _
      · exact le_of_lt hlast
      · exact hcarried

end Leg

namespace Portfolio

/-! ## `Balanced` -/

/-- A fill model that returns only non-negative prices. -/
def NonNegative (fills : FillModel F) : Prop :=
  ∀ q side qty price, fills.fill q side qty = some price → 0 ≤ price

/-- Crossing the spread trades at a price of a two-sided market, which is positive. -/
theorem crossSpreadFill_nonNegative [Double F] : NonNegative (crossSpreadFill : FillModel F) := by
  intro q side qty price h
  simp only [crossSpreadFill] at h
  by_cases htwo : q.twoSided = true
  · have hbid : 0 < q.bid ∧ 0 < q.ask := by simpa [Quote.twoSided] using htwo
    simp only [htwo, Bool.not_true, Bool.false_eq_true, if_false, Option.ite_none_left_eq_some,
      Option.some.injEq] at h
    obtain ⟨_, rfl⟩ := h
    split_ifs
    · exact le_of_lt hbid.2
    · exact le_of_lt hbid.1
  · simp [htwo] at h

/-- **The books balance**: legs, trade log and running totals agree. -/
structure Balanced (p : Portfolio F) : Prop where
  model : NonNegative p.fills
  ids : ∀ id (pos : Position), p.positions[id]? = some pos → pos.id = id
  entries : ∀ id i leg, p.leg? id i = some leg → leg.live = true → 0 ≤ leg.entry
  realized : p.realized = legSum Leg.gain p
  costs : p.totalCosts = (p.trades.map (·.cost)).sum
  cash : p.tradeCash = p.realized - legSum Leg.cost p
  net : ∀ id inst, p.netTraded id inst = positionSum (Leg.held inst) p id
  settled : p.settledLegs = (p.trades.filter (·.settled)).length

/-- Nothing but the queue, the rules or the marks of legs changed. -/
theorem Balanced.congr {p q : Portfolio F} (h : Balanced p) (hpos : q.positions = p.positions)
    (hfills : q.fills = p.fills) (hreal : q.realized = p.realized) (hcosts : q.totalCosts = p.totalCosts)
    (htrades : q.trades = p.trades) (hset : q.settledLegs = p.settledLegs) : Balanced q where
  model := by rw [hfills]; exact h.model
  ids := by rw [hpos]; exact h.ids
  entries := fun id i leg hleg => h.entries id i leg (by rw [← leg?_congr hpos]; exact hleg)
  realized := by rw [hreal, legSum_congr_positions _ hpos]; exact h.realized
  costs := by rw [hcosts, htrades]; exact h.costs
  cash := by rw [tradeCash, htrades, hreal, legSum_congr_positions _ hpos]; exact h.cash
  net := fun id inst => by
    rw [netTraded, htrades, positionSum_congr_positions _ hpos]
    exact h.net id inst
  settled := by rw [hset, htrades]; exact h.settled

theorem modifyLeg_ids {p : Portfolio F} {id : PositionId} {i : Nat} {g : Leg → Leg}
    (h : ∀ id (pos : Position), p.positions[id]? = some pos → pos.id = id) :
    ∀ id' (pos : Position), (p.modifyLeg id i g).positions[id']? = some pos → pos.id = id' := by
  intro id' pos hpos
  simp only [modifyLeg, List.getElem?_modify] at hpos
  obtain ⟨pos', hpos', rfl⟩ := Option.map_eq_some_iff.mp hpos
  rw [← h id' pos' hpos']
  split_ifs <;> rfl

/-- A change of state between two states in which the leg is equally held. -/
theorem Balanced.setState {p : Portfolio F} (h : Balanced p) {id : PositionId} {i : Nat} {leg : Leg}
    (st : LegState) (hleg : p.leg? id i = some leg) (hnot : leg.state ≠ .Closed) (hst : st ≠ .Closed)
    (hlive : ({ leg with state := st } : Leg).live = leg.live) : Balanced (p.setState id i st) where
  model := h.model
  ids := modifyLeg_ids h.ids
  entries := by
    intro id' i' leg' hleg' hlive'
    rw [leg?_setState] at hleg'
    by_cases hs : id' = id ∧ i' = i
    · rw [if_pos hs, hleg, Option.map_some, Option.some.injEq] at hleg'
      subst hleg'
      rw [hlive] at hlive'
      exact h.entries id i leg hleg hlive'
    · rw [if_neg hs] at hleg'
      exact h.entries id' i' leg' hleg' hlive'
  realized := by
    rw [Portfolio.setState, legSum_modifyLeg _ _ hleg, Leg.gain_of_not_closed hst, Leg.gain_of_not_closed hnot,
      sub_self, add_zero]
    exact h.realized
  costs := h.costs
  cash := by
    have hcost : ({ leg with state := st } : Leg).cost = leg.cost := by simp [Leg.cost, hlive]
    rw [Portfolio.setState, legSum_modifyLeg _ _ hleg, hcost, sub_self, add_zero]
    exact h.cash
  net := fun id' inst => by
    have hheld : ({ leg with state := st } : Leg).held inst = leg.held inst := by simp [Leg.held, hlive]
    rw [Portfolio.setState, positionSum_modifyLeg _ _ hleg, hheld, sub_self, ite_self, add_zero]
    exact h.net id' inst
  settled := h.settled

/-- **A trade is booked right** when the leg it belongs to changes by as much as the trade says: signed
    quantity, realised gain and cash. Fills and settlements are both of this kind. -/
theorem Balanced.trade {p q : Portfolio F} (h : Balanced p) {id : PositionId} {i : Nat} {leg : Leg}
    (g : Leg → Leg) (t : TradeRecord) (hleg : p.leg? id i = some leg) (hfills : q.fills = p.fills)
    (hpos : q.positions = (p.modifyLeg id i g).positions) (htrades : q.trades = p.trades ++ [t])
    (hcosts : q.totalCosts = p.totalCosts + t.cost)
    (hset : q.settledLegs = p.settledLegs + if t.settled then 1 else 0)
    (hinst : (g leg).instrument = leg.instrument) (hid : t.position = id)
    (htinst : t.instrument = leg.instrument)
    (hentry : (g leg).live = true → 0 ≤ (g leg).entry)
    (hreal : q.realized = p.realized + ((g leg).gain - leg.gain))
    (hqty : ∀ inst, leg.instrument = inst → t.signedQty = (g leg).held inst - leg.held inst)
    (hcash : t.cash = ((g leg).gain - leg.gain) - ((g leg).cost - leg.cost)) : Balanced q where
  model := by rw [hfills]; exact h.model
  ids := by rw [hpos]; exact modifyLeg_ids h.ids
  entries := by
    intro id' i' leg' hleg' hlive'
    rw [leg?_congr hpos, leg?_modifyLeg] at hleg'
    by_cases hs : id' = id ∧ i' = i
    · rw [if_pos hs, hleg, Option.map_some, Option.some.injEq] at hleg'
      subst hleg'
      exact hentry hlive'
    · rw [if_neg hs] at hleg'
      exact h.entries id' i' leg' hleg' hlive'
  realized := by
    rw [hreal, legSum_congr_positions _ hpos, legSum_modifyLeg _ _ hleg, h.realized]
  costs := by
    rw [hcosts, htrades, List.map_append, List.sum_append, h.costs]
    simp
  cash := by
    have hold : (p.trades.map TradeRecord.cash).sum = p.realized - legSum Leg.cost p := h.cash
    rw [tradeCash, htrades, List.map_append, List.sum_append, hold, hreal, legSum_congr_positions _ hpos,
      legSum_modifyLeg _ _ hleg]
    simp only [List.map_cons, List.map_nil, List.sum_cons, List.sum_nil, hcash]
    ring
  net := by
    -- the trade counts for its own position and instrument, where the leg changed by as much
    intro id' inst
    have hold : ((p.trades.filter (fun t => t.position = id' ∧ t.instrument = inst)).map
        TradeRecord.signedQty).sum = _ := h.net id' inst
    rw [netTraded, htrades, Tally.sum_filter_concat, hold, positionSum_congr_positions _ hpos,
      positionSum_modifyLeg _ _ hleg, hid, htinst]
    by_cases hi : id = id'
    · by_cases hin : leg.instrument = inst
      · simp [hi, hin, hqty inst hin]
      · have hg : (g leg).held inst = 0 := by simp [Leg.held, hinst, hin]
        have hl : leg.held inst = 0 := by simp [Leg.held, hin]
        simp [hi, hin, hg, hl]
    · simp [hi]
  settled := by
    rw [hset, htrades, List.filter_append, List.length_append, h.settled]
    cases hts : t.settled with
    | true => simp [hts]
    | false => simp [hts]

/-! ### One move at a time -/

theorem Balanced.addPosition {p : Portfolio F} (h : Balanced p) (label : String) :
    Balanced { p with positions := p.positions ++ [{ id := p.positions.length, label := label }] } := by
  refine ⟨h.model, ?_, ?_, ?_, h.costs, ?_, ?_, h.settled⟩
  · intro id pos hpos
    by_cases hlt : id < p.positions.length
    · rw [List.getElem?_append_left hlt] at hpos
      exact h.ids id pos hpos
    · have hge : p.positions.length ≤ id := not_lt.mp hlt
      rw [List.getElem?_append_right hge] at hpos
      obtain ⟨hzero, heq⟩ := List.getElem?_eq_some_iff.mp hpos
      simp only [List.length_cons, List.length_nil] at hzero
      have hid : id = p.positions.length := Nat.le_antisymm (Nat.sub_eq_zero_iff_le.mp (by omega)) hge
      simp only [List.getElem_singleton] at heq
      rw [← heq, hid]
  · intro id i leg hleg
    rw [leg?_addPosition] at hleg
    exact h.entries id i leg hleg
  · rw [legSum_addPosition]
    exact h.realized
  · rw [legSum_addPosition]
    exact h.cash
  · intro id inst
    rw [positionSum_addPosition]
    exact h.net id inst

/-- A leg that waits for its opening fill counts for nothing. -/
theorem Balanced.openLeg {p : Portfolio F} (h : Balanced p) {id : PositionId} (side : Side) (qty : Qty) (now : Timestamp)
    (inst : InstrumentId) (hid : id < p.positions.length) : Balanced (Portfolio.openLeg id side qty now p inst) := by
  have hpos : p.positions[id]? = some p.positions[id] := List.getElem?_eq_getElem hid
  refine ⟨h.model, ?_, ?_, ?_, h.costs, ?_, ?_, h.settled⟩
  · intro id' pos hpos'
    simp only [Portfolio.openLeg, Portfolio.submit, List.getElem?_modify] at hpos'
    obtain ⟨pos', hpos'', rfl⟩ := Option.map_eq_some_iff.mp hpos'
    rw [← h.ids id' pos' hpos'']
    split_ifs <;> rfl
  · intro id' i' leg hleg hlive
    rw [leg?_openLeg side qty now inst hpos] at hleg
    by_cases hs : id' = id ∧ i' = p.positions[id].legs.length
    · rw [if_pos hs, Option.some.injEq] at hleg
      subst hleg
      simp [Leg.live] at hlive
    · rw [if_neg hs] at hleg
      exact h.entries id' i' leg hleg hlive
  · rw [legSum_openLeg _ Leg.gain_pendingOpen]
    exact h.realized
  · rw [legSum_openLeg _ Leg.cost_pendingOpen]
    exact h.cash
  · intro id' inst'
    rw [positionSum_openLeg _ (Leg.held_pendingOpen inst')]
    exact h.net id' inst'

/-- Marks are not booked. -/
theorem Balanced.mark {p : Portfolio F} (h : Balanced p) {f : Leg → Leg}
    (hf : ∀ l, ∃ m t, f l = { l with lastMark := m, lastMarkTs := t }) :
    Balanced { p with positions := p.positions.map fun pos => { pos with legs := pos.legs.map f } } := by
  have hmark : ∀ {α : Type} (k : Leg → α), (∀ l m t, k { l with lastMark := m, lastMarkTs := t } = k l) →
      ∀ l, k (f l) = k l := by
    intro α k hk l
    obtain ⟨m, t, heq⟩ := hf l
    rw [heq]
    exact hk l m t
  refine ⟨h.model, ?_, ?_, ?_, h.costs, ?_, ?_, h.settled⟩
  · intro id pos hpos
    rw [List.getElem?_map] at hpos
    obtain ⟨pos', hpos', rfl⟩ := Option.map_eq_some_iff.mp hpos
    exact h.ids id pos' hpos'
  · intro id i leg hleg hlive
    rw [leg?_marks] at hleg
    obtain ⟨leg', hleg', rfl⟩ := Option.map_eq_some_iff.mp hleg
    rw [hmark Leg.live (fun _ _ _ => rfl)] at hlive
    rw [hmark Leg.entry (fun _ _ _ => rfl)]
    exact h.entries id i leg' hleg' hlive
  · rw [legSum_marks _ _ (hmark Leg.gain (fun _ _ _ => rfl))]
    exact h.realized
  · rw [legSum_marks _ _ (hmark Leg.cost (fun _ _ _ => rfl))]
    exact h.cash
  · intro id inst
    rw [positionSum_marks _ _ (hmark (Leg.held inst) (fun _ _ _ => rfl))]
    exact h.net id inst

variable [Double F]

/-- An opening fill books the quantity of the leg, and what it costs. -/
theorem Balanced.fillOpening {p : Portfolio F} (h : Balanced p) {orders : List PendingOrder} {o : PendingOrder} {leg : Leg}
    (spec : InstrumentSpec) (q : Quote) (price : Price) (now : Timestamp) (hcl : o.closing = false)
    (hleg : p.leg? o.position o.legIndex = some leg) (hst : leg.state = .PendingOpen) (hopens : Opens o leg)
    (hnonneg : 0 ≤ price) : Balanced ((p.withPending orders).fillOrder spec o q price now) := by
  have hlive : leg.live = false := by simp [Leg.live, hst]
  have hqty : ((p.withPending orders).tradeOf spec o q price now).signedQty = leg.qty :=
    signedQty_of_opening rfl rfl hopens
  refine h.trade (executed o price now) _ hleg (fillOrder_fills _ spec o q price now)
    (fillOrder_positions _ spec o q price now) rfl rfl (fillOrder_settledLegs _ spec o q price now)
    ?_ rfl hopens.instrument ?_ ?_ ?_ ?_
  · simp [executed, hcl]
  · intro _
    simpa [executed, hcl] using hnonneg
  · rw [fillOrder_realized_opening _ spec o q price now hcl]
    simp [executed, hcl, Leg.gain, hst, withPending]
  · intro inst hinst
    rw [hqty]
    simp [executed, hcl, Leg.held, Leg.live, hst, hinst]
  · rw [TradeRecord.cash_eq, hqty]
    simp [executed, hcl, Leg.gain, Leg.cost, Leg.live, hst, tradeOf]

/-- A closing fill takes the quantity out again, and books the gain. -/
theorem Balanced.fillClosing {p : Portfolio F} (h : Balanced p) {orders : List PendingOrder} {o : PendingOrder} {leg : Leg}
    (spec : InstrumentSpec) (q : Quote) (price : Price) (now : Timestamp) (hcl : o.closing = true)
    (hleg : p.leg? o.position o.legIndex = some leg) (hst : leg.state = .PendingClose) (hcloses : Closes o leg) :
    Balanced ((p.withPending orders).fillOrder spec o q price now) := by
  have hqty : ((p.withPending orders).tradeOf spec o q price now).signedQty = -leg.qty :=
    signedQty_of_closing leg hcloses.side hcloses.qty
  refine h.trade (executed o price now) _ hleg (fillOrder_fills _ spec o q price now)
    (fillOrder_positions _ spec o q price now) rfl rfl (fillOrder_settledLegs _ spec o q price now)
    ?_ rfl hcloses.instrument ?_ ?_ ?_ ?_
  · simp [executed, hcl]
  · simp [executed, hcl, Leg.live]
  · rw [fillOrder_realized_closing (p.withPending orders) spec o q price now hcl hleg]
    simp only [executed, hcl, if_true, Leg.gain, hst, notional, reduceCtorEq, if_false, withPending]
    ring
  · intro inst hinst
    rw [hqty]
    simp [executed, hcl, Leg.held, Leg.live, hst, hinst]
  · rw [TradeRecord.cash_eq, hqty]
    simp [executed, hcl, Leg.gain, Leg.cost, Leg.live, hst, tradeOf]
    ring

/-- A settlement is booked as a closing trade at the level, without costs. -/
theorem Balanced.settle {p : Portfolio F} (h : Balanced p) {id : PositionId} {i : Nat} {leg : Leg}
    (spec : InstrumentSpec) (level : F) (now : Timestamp) (hleg : p.leg? id i = some leg) (hlive : leg.live = true) :
    Balanced (p.settleLeg id i leg spec level now) := by
  obtain ⟨pos, hpos, _⟩ := leg?_eq_some.mp hleg
  have hnot : leg.state ≠ .Closed := by
    intro hst
    simp [Leg.live, hst] at hlive
  refine h.trade (settledLeg spec level now) _ hleg rfl rfl rfl rfl rfl rfl ?_ rfl ?_ ?_ ?_ ?_
  · simp [hpos, h.ids id pos hpos]
  · simp [settledLeg, Leg.live]
  · simp only [settleLeg, settledLeg, Leg.gain, hnot, if_true, if_false, notional]
    ring
  · intro inst hinst
    rw [signedQty_of_closing leg rfl rfl]
    have hheld : leg.held inst = leg.qty := by simp [Leg.held, hlive, hinst]
    rw [hheld]
    simp [settledLeg, Leg.held, Leg.live]
  · rw [TradeRecord.cash_eq, signedQty_of_closing leg rfl rfl]
    have hcost : leg.cost = leg.entry * leg.qty := by simp [Leg.cost, hlive]
    rw [hcost]
    simp [settledLeg, Leg.gain, Leg.cost, Leg.live, hnot]
    ring

/-- The step lemma: every move keeps the books balanced. -/
theorem Balanced.move {c : Scope} {p p' : Portfolio F} (h : Balanced p) (hmat : Matched c.expired p)
    (hm : Move c p p') : Balanced p' := by
  cases hm with
  | position label => exact h.addPosition label
  | @opens id side qty inst _ hid _ => exact h.openLeg side qty c.now inst hid
  | @exits id i leg hleg hopen =>
      refine (h.setState .PendingClose hleg (by simp [hopen]) (by simp) ?_).congr rfl rfl rfl rfl rfl rfl
      simp [Leg.live, hopen]
  | @fills before after o q price spec hidle hpend hdue hquote hprice =>
      have ho : o ∈ p.pending := by simp [hpend]
      cases hcl : o.closing with
      | false =>
          obtain ⟨leg, hleg, _, hst, hopens⟩ := hmat.opening ho hcl
          exact h.fillOpening spec q price c.now hcl hleg hst hopens (h.model _ _ _ _ hprice)
      | true =>
          obtain ⟨leg, hleg, _, hst, hcloses⟩ := hmat.closing hidle ho hcl
          exact h.fillClosing spec q price c.now hcl hleg hst hcloses
  | @withdraws before after o hpend hopening =>
      obtain ⟨leg, hleg, _, hst, _⟩ := hmat.opening (o := o) (by simp [hpend]) hopening
      refine (h.setState .Cancelled hleg (by simp [hst]) (by simp) ?_).congr rfl rfl rfl rfl rfl rfl
      simp [Leg.live, hst]
  | @abandons before after o hidle _ hpend hclosing =>
      obtain ⟨leg, hleg, _, hst, _⟩ := hmat.closing hidle (o := o) (by simp [hpend]) hclosing
      refine (h.setState .Open hleg (by simp [hst]) (by simp) ?_).congr rfl rfl rfl rfl rfl rfl
      simp [Leg.live, hst]
  | @settles id i leg spec level hleg hlive _ => exact h.settle spec level c.now hleg hlive
  | drops => exact h.congr rfl rfl rfl rfl rfl rfl
  | marks f hf => exact h.mark hf
  | rules => exact h.congr rfl rfl rfl rfl rfl rfl

/-- **Every operation keeps the books balanced.** -/
theorem Balanced.apply {p p' : Portfolio F} {op : Op F} (h : Balanced p) (hmat : Matched noneExpired p)
    (hop : p.apply op = .ok p') : Balanced p' := by
  have hinv := (apply_moves hmat hop).1.inv (fun q => Matched (op.scope p).expired q ∧ Balanced q)
    (fun q q' hq hm => ⟨hq.1.move hm, hq.2.move hq.1 hm⟩) ⟨hmat.mono, h⟩
  exact hinv.2

omit [Double F] in
theorem balanced_empty {fills : FillModel F} (hfills : NonNegative fills) (delay : Int)
    (costs : CostPolicy) : Balanced (empty fills delay costs) where
  model := hfills
  ids := by simp [empty]
  entries := by simp [empty, leg?]
  realized := rfl
  costs := rfl
  cash := rfl
  net := fun _ _ => rfl
  settled := rfl

theorem Reachable.balanced {fills : FillModel F} {delay : Int} {costs : CostPolicy} {p : Portfolio F}
    (hfills : NonNegative fills) (h : Reachable fills delay costs p) : Balanced p := by
  have hinv := h.inv (fun q => Matched noneExpired q ∧ Balanced q)
    ⟨matched_empty fills delay costs, balanced_empty hfills delay costs⟩
    (fun q op q' hq hop => ⟨(apply_moves hq.1 hop).2, hq.2.apply hq.1 hop⟩)
  exact hinv.2

/-! ## Valuation -/

omit [Double F] in
/-- What a leg adds to the unrealised total: its value at the mark, less what was paid for it. -/
theorem unrealized_leg {l : Leg} {market : MarketView} (hentry : l.live = true → 0 ≤ l.entry) :
    (if l.state = .Closed then 0 else l.pnl market) = l.value market - l.cost := by
  unfold Leg.value Leg.cost Leg.pnl
  cases hst : l.state with
  | Closed => simp [Leg.live, hst]
  | PendingOpen => simp [Leg.live, Leg.filled, hst]
  | Cancelled => simp [Leg.live, Leg.filled, hst]
  | Open =>
      have hmark : 0 ≤ l.markFor market :=
        Leg.markFor_nonneg (by simp [Leg.filled, hst]) (hentry (by simp [Leg.live, hst]))
      have hnot : ¬ l.markFor market < 0 := not_lt.mpr hmark
      simp [Leg.live, Leg.filled, hst, hnot, notional]
  | PendingClose =>
      have hmark : 0 ≤ l.markFor market :=
        Leg.markFor_nonneg (by simp [Leg.filled, hst]) (hentry (by simp [Leg.live, hst]))
      have hnot : ¬ l.markFor market < 0 := not_lt.mpr hmark
      simp [Leg.live, Leg.filled, hst, hnot, notional]

omit [Double F] in
theorem Balanced.unrealized_eq {p : Portfolio F} (h : Balanced p) (market : MarketView) :
    p.unrealized market = legSum (Leg.value market) p - legSum Leg.cost p := by
  rw [← legSum_sub]
  show legSum (fun l => if l.state = .Closed then 0 else l.pnl market) p = _
  exact legSum_congr (fun id i leg hleg => unrealized_leg (h.entries id i leg hleg))

omit [Double F] in
/-- **Equity is the cash of the trade log, less costs, plus the held legs at their marks.** -/
theorem Balanced.equity_eq {p : Portfolio F} (h : Balanced p) (market : MarketView) :
    p.equity market = p.tradeCash - p.totalCosts + legSum (Leg.value market) p := by
  rw [equity, h.unrealized_eq, h.cash]
  ring

/-! ## Main result -/

/-- **The books balance in every reachable state**, whatever the markets, for a fill model that returns only
    non-negative prices. -/
theorem books_balance {fills : FillModel F} (hfills : NonNegative fills) {delay : Int} {costs : CostPolicy}
    {p : Portfolio F} (h : Reachable fills delay costs p) :
    p.realized = legSum (fun l => if l.state = .Closed then (l.exit - l.entry) * l.qty else 0) p ∧
    p.totalCosts = (p.trades.map (·.cost)).sum ∧
    (p.trades.map (fun t => if t.side = .Sell then t.price * t.qty else -(t.price * t.qty))).sum =
      p.realized - legSum (fun l => if l.live then l.entry * l.qty else 0) p ∧
    (∀ id inst,
      ((p.trades.filter (fun t => t.position = id ∧ t.instrument = inst)).map
        (fun t => if t.side = .Sell then -t.qty else t.qty)).sum =
      positionSum (fun l => if l.live ∧ l.instrument = inst then l.qty else 0) p id) ∧
    p.settledLegs = (p.trades.filter (·.settled)).length ∧
    ∀ market, p.equity market =
      (p.trades.map (fun t => if t.side = .Sell then t.price * t.qty else -(t.price * t.qty))).sum -
        p.totalCosts + legSum (fun l => if l.live then l.markFor market * l.qty else 0) p := by
  have hbal := h.balanced hfills
  have hcash : (fun t : TradeRecord => if t.side = .Sell then t.price * t.qty else -(t.price * t.qty)) =
      TradeRecord.cash := by
    funext t
    unfold TradeRecord.cash
    cases t.side <;> rfl
  have hqty : (fun t : TradeRecord => if t.side = .Sell then -t.qty else t.qty) = TradeRecord.signedQty := by
    funext t
    unfold TradeRecord.signedQty
    cases t.side <;> rfl
  rw [hcash, hqty]
  exact ⟨hbal.realized, hbal.costs, hbal.cash, hbal.net, hbal.settled, hbal.equity_eq⟩

/-- A market in which instrument 0 is offered at 105 and bid at 100. -/
def quotedMarket : MarketView where
  now := 10
  registry := { specs := [{ id := 0 }] }
  quote := fun id _ => if id = 0 then some { ts := 9, last := 102, bid := 100, ask := 105 } else none
  hasQuote := fun id => id = 0

theorem books_balance_bought :
    ∃ p : Portfolio ℚ,
      [Op.submitOpen "long" [0] .Buy 2 5, .processPending quotedMarket].foldlM apply
        (empty crossSpreadFill 1 noCosts) = .ok p ∧
      p.equity quotedMarket =
        (p.trades.map (fun t => if t.side = .Sell then t.price * t.qty else -(t.price * t.qty))).sum -
          p.totalCosts + legSum (fun l => if l.live then l.markFor quotedMarket * l.qty else 0) p :=
  have hreach : Reachable (crossSpreadFill (F := ℚ)) 1 noCosts _ :=
    .step (e := .processPending quotedMarket) (.step (e := .submitOpen "long" [0] .Buy 2 5) .init rfl) rfl
  ⟨_, rfl, (books_balance crossSpreadFill_nonNegative hreach).2.2.2.2.2 quotedMarket⟩

end Portfolio

end Volforge
