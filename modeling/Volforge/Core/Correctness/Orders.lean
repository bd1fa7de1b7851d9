import Volforge.Core.Correctness.Moves

/-!
# `Core.Correctness.Orders` — legs and working orders correspond

`Matched` says what the queue holds for each slot: one opening order for a `PendingOpen` leg, one closing
order for a `PendingClose` leg, nothing otherwise. Only while an expiry is being settled may the closing
order of a leg settled a moment ago still be queued; `Matched` takes the instruments being settled as a
parameter, and at every other time that set is empty.

## Contents
- **The correspondence.** `Matched`, and `Matched.order_cases`, what a queued order says about its leg.
- **One move.** `Matched.move`; `Move.leg_next`, the life of a leg.
- **Operations that need it.** The end of a session and settlement as moves.
- **Every operation.** `Op.scope`, `apply_moves`, `Matched.apply`.
-/

namespace Volforge

variable {F : Type}

namespace Portfolio

/-! ## The correspondence -/

/-- An order that opens the leg: its instrument, and its signed quantity. -/
structure Opens (o : PendingOrder) (leg : Leg) : Prop where
  opening : o.closing = false
  instrument : o.instrument = leg.instrument
  qty_pos : 0 < o.qty
  qty : leg.qty = if o.side = .Sell then -o.qty else o.qty

/-- An order that closes the leg: its instrument, from the other side, in full. -/
structure Closes (o : PendingOrder) (leg : Leg) : Prop where
  closing : o.closing = true
  instrument : o.instrument = leg.instrument
  side : o.side = leg.closingSide
  qty : o.qty = |leg.qty|

/-- A closing order outlived by its leg, which is being settled. -/
structure Outlived (expired : InstrumentId → Prop) (o : PendingOrder) (leg : Leg) : Prop where
  closing : o.closing = true
  instrument : o.instrument = leg.instrument
  settled : leg.settled = true
  expired : expired leg.instrument

/-- What the queue holds for a leg. -/
def LegMatched (expired : InstrumentId → Prop) (leg : Leg) (orders : List PendingOrder) : Prop :=
  match leg.state with
  | .PendingOpen => ∃ o, orders = [o] ∧ Opens o leg
  | .PendingClose => ∃ o, orders = [o] ∧ Closes o leg
  | .Closed => orders = [] ∨ ∃ o, orders = [o] ∧ Outlived expired o leg
  | .Open => orders = []
  | .Cancelled => orders = []

/-- What the queue holds for a slot: nothing where there is no leg. -/
def SlotMatched (expired : InstrumentId → Prop) : Option Leg → List PendingOrder → Prop
  | none, orders => orders = []
  | some leg, orders => LegMatched expired leg orders

/-- **Legs and working orders correspond**, slot by slot. -/
def Matched (expired : InstrumentId → Prop) (p : Portfolio F) : Prop :=
  ∀ id i, SlotMatched expired (p.leg? id i) (p.ordersFor id i)

/-- Nothing is being settled. -/
def noneExpired : InstrumentId → Prop := fun _ => False

theorem Matched.mono {expired : InstrumentId → Prop} {p : Portfolio F} (h : Matched noneExpired p) :
    Matched expired p := by
  intro id i
  have hslot := h id i
  cases hleg : p.leg? id i with
  | none =>
      rw [hleg] at hslot
      exact hslot
  | some leg =>
      rw [hleg] at hslot
      simp only [SlotMatched, LegMatched] at hslot ⊢
      cases hst : leg.state with
      | Closed =>
          simp only [hst] at hslot
          obtain hnil | ⟨_, _, hout⟩ := hslot
          · exact .inl hnil
          · exact hout.expired.elim
      | PendingOpen => simpa [hst] using hslot
      | Open => simpa [hst] using hslot
      | PendingClose => simpa [hst] using hslot
      | Cancelled => simpa [hst] using hslot

/-- **What a queued order says about its leg**: the leg exists, the order is the only one queued for it,
    and the leg is waiting for exactly this order or is being settled. -/
theorem Matched.order_cases {expired : InstrumentId → Prop} {p : Portfolio F} (h : Matched expired p)
    {o : PendingOrder} (ho : o ∈ p.pending) :
    ∃ leg, p.leg? o.position o.legIndex = some leg ∧ p.ordersFor o.position o.legIndex = [o] ∧
      ((leg.state = .PendingOpen ∧ Opens o leg) ∨ (leg.state = .PendingClose ∧ Closes o leg) ∨
        (leg.state = .Closed ∧ Outlived expired o leg)) := by
  have hmem := mem_ordersFor_self ho
  have hslot := h o.position o.legIndex
  cases hleg : p.leg? o.position o.legIndex with
  | none =>
      rw [hleg] at hslot
      simp only [SlotMatched] at hslot
      rw [hslot] at hmem
      simp at hmem
  | some leg =>
      rw [hleg] at hslot
      refine ⟨leg, rfl, ?_⟩
      simp only [SlotMatched, LegMatched] at hslot
      cases hst : leg.state with
      | PendingOpen =>
          simp only [hst] at hslot
          obtain ⟨o', hone, hopens⟩ := hslot
          have : o = o' := by simpa [hone] using hmem
          subst this
          exact ⟨hone, .inl ⟨rfl, hopens⟩⟩
      | PendingClose =>
          simp only [hst] at hslot
          obtain ⟨o', hone, hcloses⟩ := hslot
          have : o = o' := by simpa [hone] using hmem
          subst this
          exact ⟨hone, .inr (.inl ⟨rfl, hcloses⟩)⟩
      | Closed =>
          simp only [hst] at hslot
          obtain hnil | ⟨o', hone, hout⟩ := hslot
          · simp [hnil] at hmem
          · have : o = o' := by simpa [hone] using hmem
            subst this
            exact ⟨hone, .inr (.inr ⟨rfl, hout⟩)⟩
      | Open =>
          simp only [hst] at hslot
          simp [hslot] at hmem
      | Cancelled =>
          simp only [hst] at hslot
          simp [hslot] at hmem

/-- An opening order's leg has not opened yet. -/
theorem Matched.opening {expired : InstrumentId → Prop} {p : Portfolio F} (h : Matched expired p)
    {o : PendingOrder} (ho : o ∈ p.pending) (hopening : o.closing = false) :
    ∃ leg, p.leg? o.position o.legIndex = some leg ∧ p.ordersFor o.position o.legIndex = [o] ∧
      leg.state = .PendingOpen ∧ Opens o leg := by
  obtain ⟨leg, hleg, hone, ⟨hst, ho⟩ | ⟨_, hc⟩ | ⟨_, hc⟩⟩ := h.order_cases ho
  · exact ⟨leg, hleg, hone, hst, ho⟩
  · simp [hc.closing] at hopening
  · simp [hc.closing] at hopening

/-- A closing order's leg is being exited, unless something is being settled. -/
theorem Matched.closing {expired : InstrumentId → Prop} {p : Portfolio F} (h : Matched expired p)
    (hidle : ∀ id, ¬ expired id) {o : PendingOrder} (ho : o ∈ p.pending) (hclosing : o.closing = true) :
    ∃ leg, p.leg? o.position o.legIndex = some leg ∧ p.ordersFor o.position o.legIndex = [o] ∧
      leg.state = .PendingClose ∧ Closes o leg := by
  obtain ⟨leg, hleg, hone, ⟨_, hc⟩ | ⟨hst, hc⟩ | ⟨_, hc⟩⟩ := h.order_cases ho
  · simp [hc.opening] at hclosing
  · exact ⟨leg, hleg, hone, hst, hc⟩
  · exact absurd hc.expired (hidle _)

/-- A portfolio that differs in one slot only is matched when that slot is. -/
theorem Matched.update {expired : InstrumentId → Prop} {p q : Portfolio F} (h : Matched expired p)
    (id : PositionId) (i : Nat)
    (hother : ∀ id' i', ¬ (id' = id ∧ i' = i) →
      q.leg? id' i' = p.leg? id' i' ∧ q.ordersFor id' i' = p.ordersFor id' i')
    (hself : SlotMatched expired (q.leg? id i) (q.ordersFor id i)) : Matched expired q := by
  intro id' i'
  by_cases hs : id' = id ∧ i' = i
  · obtain ⟨rfl, rfl⟩ := hs
    exact hself
  · obtain ⟨hleg, hord⟩ := hother id' i' hs
    rw [hleg, hord]
    exact h id' i'

/-- Legs that keep instrument, quantity, state and settlement keep their orders. -/
theorem LegMatched.congr {expired : InstrumentId → Prop} {leg leg' : Leg} {orders : List PendingOrder}
    (h : LegMatched expired leg orders) (hinst : leg'.instrument = leg.instrument)
    (hqty : leg'.qty = leg.qty) (hst : leg'.state = leg.state) (hset : leg'.settled = leg.settled) :
    LegMatched expired leg' orders := by
  obtain ⟨inst, qty, st, entry, ets, exit, xts, mark, mts, settled⟩ := leg
  obtain ⟨inst', qty', st', entry', ets', exit', xts', mark', mts', settled'⟩ := leg'
  simp only at hinst hqty hst hset
  subst hinst hqty hst hset
  cases st' with
  | PendingOpen =>
      obtain ⟨o, hone, ho⟩ := h
      exact ⟨o, hone, ⟨ho.opening, ho.instrument, ho.qty_pos, ho.qty⟩⟩
  | PendingClose =>
      obtain ⟨o, hone, ho⟩ := h
      exact ⟨o, hone, ⟨ho.closing, ho.instrument, ho.side, ho.qty⟩⟩
  | Closed =>
      obtain hnil | ⟨o, hone, ho⟩ := h
      · exact .inl hnil
      · exact .inr ⟨o, hone, ⟨ho.closing, ho.instrument, ho.settled, ho.expired⟩⟩
  | Open => exact h
  | Cancelled => exact h

/-! ## Slots after each move -/

theorem leg?_addPosition (p : Portfolio F) (label : String) (id : PositionId) (i : Nat) :
    ({ p with positions := p.positions ++ [{ id := p.positions.length, label := label }] } :
      Portfolio F).leg? id i = p.leg? id i := by
  simp only [leg?]
  by_cases hlt : id < p.positions.length
  · rw [List.getElem?_append_left hlt]
  · have hge : p.positions.length ≤ id := not_lt.mp hlt
    rw [List.getElem?_append_right hge, List.getElem?_eq_none hge]
    cases id - p.positions.length with
    | zero => simp
    | succ n => simp

/-- The leg and the order that one turn of the loop of `submit_open` adds. -/
theorem leg?_openLeg {p : Portfolio F} {id : PositionId} {pos : Position} (side : Side) (qty : Qty)
    (now : Timestamp) (inst : InstrumentId) (hpos : p.positions[id]? = some pos) (id' : PositionId)
    (i' : Nat) :
    (openLeg id side qty now p inst).leg? id' i' =
      if id' = id ∧ i' = pos.legs.length then
        some { instrument := inst, qty := if side = .Sell then -qty else qty, state := .PendingOpen }
      else p.leg? id' i' := by
  simp only [leg?, openLeg, submit, List.getElem?_modify]
  by_cases hid : id' = id
  · subst hid
    simp only [hpos, if_true, Option.map_eq_map, Option.map_some, Option.bind_some, true_and]
    by_cases hi : i' = pos.legs.length
    · simp [hi]
    · rw [if_neg hi]
      by_cases hlt : i' < pos.legs.length
      · rw [List.getElem?_append_left hlt]
      · rw [List.getElem?_eq_none (by simp; omega), List.getElem?_eq_none (by omega)]
  · have hid' : ¬ id = id' := fun h => hid h.symm
    simp [hid, hid']

theorem openLeg_pending {p : Portfolio F} {id : PositionId} {pos : Position} (side : Side) (qty : Qty)
    (now : Timestamp) (inst : InstrumentId) (hpos : p.positions[id]? = some pos) :
    (openLeg id side qty now p inst).pending = p.pending ++
      [{ position := id, legIndex := pos.legs.length, instrument := inst, side := side, qty := qty,
         submittedAt := now, eligibleAt := now + p.delay, closing := false,
         fromRule := p.closingFromRule, serial := p.journal.submitted.length }] := by
  simp [openLeg, submit, hpos]

/-- What an executed order makes of its leg. -/
def executed (o : PendingOrder) (price : Price) (now : Timestamp) (leg : Leg) : Leg :=
  if o.closing then { leg with exit := price, exitTs := now, state := .Closed }
  else { leg with entry := price, entryTs := now, state := .Open }

section FillOrder

variable [Double F] (p : Portfolio F) (spec : InstrumentSpec) (o : PendingOrder) (q : Quote) (price : Price)
  (now : Timestamp)

theorem fillOrder_positions :
    (p.fillOrder spec o q price now).positions =
      (p.modifyLeg o.position o.legIndex (executed o price now)).positions := by
  unfold fillOrder execute executed
  cases o.closing <;> rfl

@[simp] theorem fillOrder_pending : (p.fillOrder spec o q price now).pending = p.pending := by
  unfold fillOrder execute
  cases o.closing <;> rfl

@[simp] theorem fillOrder_fills : (p.fillOrder spec o q price now).fills = p.fills := by
  unfold fillOrder execute
  cases o.closing <;> rfl

@[simp] theorem fillOrder_delay : (p.fillOrder spec o q price now).delay = p.delay := by
  unfold fillOrder execute
  cases o.closing <;> rfl

@[simp] theorem fillOrder_settledLegs : (p.fillOrder spec o q price now).settledLegs = p.settledLegs := by
  unfold fillOrder execute
  cases o.closing <;> rfl

@[simp] theorem fillOrder_cancelledOrders :
    (p.fillOrder spec o q price now).cancelledOrders = p.cancelledOrders := by
  unfold fillOrder execute
  cases o.closing <;> rfl

theorem fillOrder_trades :
    (p.fillOrder spec o q price now).trades = p.trades ++ [p.tradeOf spec o q price now] := rfl

theorem fillOrder_journal :
    (p.fillOrder spec o q price now).journal =
      { p.journal with fills := p.journal.fills ++ [{ order := o, quote := q, price, time := now }] } := rfl

theorem fillOrder_realized_opening (hopening : o.closing = false) :
    (p.fillOrder spec o q price now).realized = p.realized := by
  unfold fillOrder execute
  rw [hopening]
  rfl

theorem fillOrder_realized_closing (hclosing : o.closing = true) {leg : Leg}
    (hleg : p.leg? o.position o.legIndex = some leg) :
    (p.fillOrder spec o q price now).realized =
      p.realized + (notional price leg.qty - notional leg.entry leg.qty) := by
  unfold fillOrder execute
  simp only [hclosing, if_true, hleg, Option.map_some, Option.getD_some]

theorem leg?_fillOrder (id : PositionId) (i : Nat) :
    (p.fillOrder spec o q price now).leg? id i =
      if id = o.position ∧ i = o.legIndex then
        (p.leg? o.position o.legIndex).map (executed o price now)
      else p.leg? id i := by
  rw [leg?_congr (fillOrder_positions p spec o q price now), leg?_modifyLeg]

end FillOrder

/-- What settlement makes of a leg. -/
def settledLeg [Double F] (spec : InstrumentSpec) (level : F) (now : Timestamp) (leg : Leg) : Leg :=
  { leg with exit := Double.toPrice (intrinsicValue spec level), exitTs := now, state := .Closed,
             settled := true }

theorem leg?_settleLeg [Double F] (p : Portfolio F) (id : PositionId) (i : Nat) (leg : Leg)
    (spec : InstrumentSpec) (level : F) (now : Timestamp) (id' : PositionId) (i' : Nat) :
    (p.settleLeg id i leg spec level now).leg? id' i' =
      if id' = id ∧ i' = i then (p.leg? id i).map (settledLeg spec level now) else p.leg? id' i' :=
  leg?_modifyLeg p id i _ id' i'

theorem leg?_marks (p : Portfolio F) (f : Leg → Leg) (id : PositionId) (i : Nat) :
    ({ p with positions := p.positions.map fun pos => { pos with legs := pos.legs.map f } } :
      Portfolio F).leg? id i = (p.leg? id i).map f := by
  simp only [leg?, List.getElem?_map]
  cases p.positions[id]? with
  | none => rfl
  | some pos => simp

theorem leg?_setState (p : Portfolio F) (id : PositionId) (i : Nat) (st : LegState) (id' : PositionId)
    (i' : Nat) :
    (p.setState id i st).leg? id' i' =
      if id' = id ∧ i' = i then (p.leg? id i).map (fun l => { l with state := st })
      else p.leg? id' i' :=
  leg?_modifyLeg p id i _ id' i'

/-! ## One move -/

variable [Double F]

/-- **One move keeps the correspondence.** -/
theorem Matched.move {c : Scope} {p p' : Portfolio F} (h : Matched c.expired p) (hm : Move c p p') :
    Matched c.expired p' := by
  cases hm with
  | position label =>
      intro id i
      rw [leg?_addPosition]
      exact h id i
  | @opens id side qty inst _ hid hqty =>
      have hpos : p.positions[id]? = some p.positions[id] := List.getElem?_eq_getElem hid
      have hpend := openLeg_pending side qty c.now inst hpos
      -- the new slot held no leg, so no order was queued for it
      have hfree := h id p.positions[id].legs.length
      rw [leg?_of_position hpos, List.getElem?_eq_none (Nat.le_refl _)] at hfree
      refine h.update id p.positions[id].legs.length (fun id' i' hne => ⟨?_, ?_⟩) ?_
      · rw [leg?_openLeg side qty c.now inst hpos, if_neg hne]
      · rw [ordersFor_append hpend, if_neg (fun hs => hne ⟨hs.1.symm, hs.2.symm⟩)]
      · have hord := ordersFor_append hpend id p.positions[id].legs.length
        rw [if_pos ⟨rfl, rfl⟩, show p.ordersFor id p.positions[id].legs.length = [] from hfree] at hord
        rw [leg?_openLeg side qty c.now inst hpos, if_pos ⟨rfl, rfl⟩, hord]
        exact ⟨_, rfl, ⟨rfl, rfl, hqty, rfl⟩⟩
  | @exits id i leg hleg hopen =>
      have hslot := h id i
      rw [hleg] at hslot
      simp only [SlotMatched, LegMatched, hopen] at hslot
      have hleg' : ∀ id' i', ((p.setState id i .PendingClose).submit
          (closingOrder id i leg p.delay c.now)).leg? id' i' = _ := leg?_setState p id i .PendingClose
      have hpend : ((p.setState id i .PendingClose).submit
          (closingOrder id i leg p.delay c.now)).pending = p.pending ++ [_] := rfl
      refine h.update id i (fun id' i' hne => ⟨?_, ?_⟩) ?_
      · rw [hleg', if_neg hne]
      · rw [ordersFor_append hpend, if_neg (fun hs => hne ⟨hs.1.symm, hs.2.symm⟩)]
      · rw [hleg', if_pos ⟨rfl, rfl⟩, ordersFor_append hpend, if_pos ⟨rfl, rfl⟩, hslot, hleg]
        exact ⟨_, rfl, ⟨rfl, rfl, rfl, rfl⟩⟩
  | @fills before after o q price spec hidle hpend hdue hquote hprice =>
      have ho : o ∈ p.pending := by simp [hpend]
      obtain ⟨leg, hleg, hone, hst⟩ := h.order_cases ho
      have hpend' : ((p.withPending (before ++ after)).fillOrder spec o q price c.now).pending =
          before ++ after := fillOrder_pending _ spec o q price c.now
      have hnone := (ordersFor_remove_self hpend hpend' hone).2
      refine h.update o.position o.legIndex (fun id' i' hne => ⟨?_, ?_⟩) ?_
      · rw [leg?_fillOrder, if_neg hne, withPending_leg?]
      · exact ordersFor_remove_of_ne hpend hpend' (fun hs => hne ⟨hs.1.symm, hs.2.symm⟩)
      · rw [hnone, leg?_fillOrder, if_pos ⟨rfl, rfl⟩, withPending_leg?, hleg]
        unfold executed
        cases o.closing with
        | true => exact .inl rfl
        | false => rfl
  | @withdraws before after o hpend hopening =>
      have ho : o ∈ p.pending := by simp [hpend]
      obtain ⟨leg, hleg, hone, hst, _⟩ := h.opening ho hopening
      have hnone := (ordersFor_remove_self (q := ((p.withPending (before ++ after)).setState o.position
        o.legIndex .Cancelled).countCancelled o) hpend rfl hone).2
      have hleg' : ∀ id' i', (((p.withPending (before ++ after)).setState o.position o.legIndex
          .Cancelled).countCancelled o).leg? id' i' = _ :=
        leg?_setState (p.withPending (before ++ after)) o.position o.legIndex .Cancelled
      refine h.update o.position o.legIndex (fun id' i' hne => ⟨?_, ?_⟩) ?_
      · rw [hleg', if_neg hne, withPending_leg?]
      · exact ordersFor_remove_of_ne hpend rfl (fun hs => hne ⟨hs.1.symm, hs.2.symm⟩)
      · rw [hnone, hleg', if_pos ⟨rfl, rfl⟩, withPending_leg?, hleg]
        rfl
  | @abandons before after o hidle _ hpend hclosing =>
      have ho : o ∈ p.pending := by simp [hpend]
      obtain ⟨leg, hleg, hone, hst, _⟩ := h.closing hidle ho hclosing
      have hnone := (ordersFor_remove_self (q := ((p.withPending (before ++ after)).setState o.position
        o.legIndex .Open).countCancelled o) hpend rfl hone).2
      have hleg' : ∀ id' i', (((p.withPending (before ++ after)).setState o.position o.legIndex
          .Open).countCancelled o).leg? id' i' = _ :=
        leg?_setState (p.withPending (before ++ after)) o.position o.legIndex .Open
      refine h.update o.position o.legIndex (fun id' i' hne => ⟨?_, ?_⟩) ?_
      · rw [hleg', if_neg hne, withPending_leg?]
      · exact ordersFor_remove_of_ne hpend rfl (fun hs => hne ⟨hs.1.symm, hs.2.symm⟩)
      · rw [hnone, hleg', if_pos ⟨rfl, rfl⟩, withPending_leg?, hleg]
        rfl
  | @settles id i leg spec level hleg hlive hexp =>
      have hslot := h id i
      rw [hleg] at hslot
      refine h.update id i (fun id' i' hne => ⟨?_, rfl⟩) ?_
      · rw [leg?_settleLeg, if_neg hne]
      · rw [leg?_settleLeg, if_pos ⟨rfl, rfl⟩, hleg]
        -- the leg closes; an exit that was on its way is outlived
        simp only [SlotMatched, LegMatched] at hslot
        cases hst : leg.state with
        | Open =>
            simp only [hst] at hslot
            exact .inl hslot
        | PendingClose =>
            simp only [hst] at hslot
            obtain ⟨o, hone, hcloses⟩ := hslot
            exact .inr ⟨o, hone, ⟨hcloses.closing, hcloses.instrument, rfl, hexp⟩⟩
        | PendingOpen => simp [Leg.live, hst] at hlive
        | Closed => simp [Leg.live, hst] at hlive
        | Cancelled => simp [Leg.live, hst] at hlive
  | @drops before after o leg hpend hclosing hleg hclosed =>
      have ho : o ∈ p.pending := by simp [hpend]
      obtain ⟨leg', hleg', hone, _⟩ := h.order_cases ho
      have hnone := (ordersFor_remove_self (q := (p.withPending (before ++ after)).countCancelled o) hpend rfl
        hone).2
      refine h.update o.position o.legIndex (fun id' i' hne => ⟨rfl, ?_⟩) ?_
      · exact ordersFor_remove_of_ne hpend rfl (fun hs => hne ⟨hs.1.symm, hs.2.symm⟩)
      · rw [hnone, show ((p.withPending (before ++ after)).countCancelled o).leg? o.position o.legIndex =
          some leg from hleg]
        simp [SlotMatched, LegMatched, hclosed]
  | marks f hf =>
      intro id i
      have hslot := h id i
      rw [leg?_marks]
      cases hleg : p.leg? id i with
      | none =>
          rw [hleg] at hslot
          exact hslot
      | some leg =>
          rw [hleg] at hslot
          obtain ⟨m, t, heq⟩ := hf leg
          rw [Option.map_some, heq]
          exact LegMatched.congr hslot rfl rfl rfl rfl
  | rules => exact h

theorem Matched.moves {c : Scope} {p p' : Portfolio F} (h : Matched c.expired p) (hm : Moves c p p') :
    Matched c.expired p' :=
  hm.inv (Matched c.expired) (fun _ _ => Matched.move) h

/-! ## The life of a leg -/

/-- One leg before and after a move. -/
structure LegStep (c : Scope) (leg leg' : Leg) : Prop where
  instrument : leg'.instrument = leg.instrument
  qty : leg'.qty = leg.qty
  next : LegState.Next (c.traded leg.instrument) c.bell leg.state leg'.state

omit [Double F] in
theorem LegStep.refl (c : Scope) (leg : Leg) : LegStep c leg leg := ⟨rfl, rfl, .stay _⟩

omit [Double F] in
/-- A write to one leg that is a transition of that leg, and leaves the others as they are. -/
theorem LegStep.write {c : Scope} {p q : Portfolio F} {id₀ : PositionId} {i₀ : Nat} {leg₀ : Leg} {g : Leg → Leg}
    (hpos : q.positions = (p.modifyLeg id₀ i₀ g).positions) (hleg₀ : p.leg? id₀ i₀ = some leg₀)
    (hstep : LegStep c leg₀ (g leg₀)) {id : PositionId} {i : Nat} {leg : Leg} (hleg : p.leg? id i = some leg) :
    ∃ leg', q.leg? id i = some leg' ∧ LegStep c leg leg' := by
  rw [leg?_congr hpos]
  by_cases hs : id = id₀ ∧ i = i₀
  · obtain ⟨rfl, rfl⟩ := hs
    rw [hleg, Option.some.injEq] at hleg₀
    subst hleg₀
    exact ⟨g leg, leg?_modifyLeg_self g hleg, hstep⟩
  · exact ⟨leg, (leg?_modifyLeg_of_ne g hs).trans hleg, .refl c leg⟩

omit [Double F] in
/-- A fill is the transition its order asked for. -/
theorem LegStep.executed {c : Scope} {p : Portfolio F} (h : Matched c.expired p) {o : PendingOrder} {q : Quote} (price : Price)
    (hidle : ∀ id, ¬ c.expired id) (ho : o ∈ p.pending) (hquote : c.quote o.instrument = some q) :
    ∃ leg, p.leg? o.position o.legIndex = some leg ∧ LegStep c leg (executed o price c.now leg) := by
  unfold Portfolio.executed
  cases hcl : o.closing with
  | true =>
      obtain ⟨leg, hleg, _, hst, _⟩ := h.closing hidle ho hcl
      refine ⟨leg, hleg, rfl, rfl, ?_⟩
      rw [hst]
      exact .closed
  | false =>
      obtain ⟨leg, hleg, _, hst, hopens⟩ := h.opening ho hcl
      refine ⟨leg, hleg, rfl, rfl, ?_⟩
      rw [hst]
      exact .filled ⟨q, by rw [← hopens.instrument]; exact hquote⟩

/-- A settlement closes whatever is held, working order or not. -/
theorem LegStep.settled (c : Scope) {leg : Leg} (spec : InstrumentSpec) (level : F) (hlive : leg.live = true) :
    LegStep c leg (settledLeg spec level c.now leg) := by
  refine ⟨rfl, rfl, ?_⟩
  simp only [settledLeg]
  cases hst : leg.state with
  | Open => exact .settled
  | PendingClose => exact .closed
  | PendingOpen => simp [Leg.live, hst] at hlive
  | Closed => simp [Leg.live, hst] at hlive
  | Cancelled => simp [Leg.live, hst] at hlive

/-- **No move removes a leg**, and each leg takes at most one transition. -/
theorem Move.leg_step {c : Scope} {p p' : Portfolio F} (h : Matched c.expired p) (hm : Move c p p')
    {id : PositionId} {i : Nat} {leg : Leg} (hleg : p.leg? id i = some leg) :
    ∃ leg', p'.leg? id i = some leg' ∧ LegStep c leg leg' := by
  cases hm with
  | position label =>
      rw [leg?_addPosition]
      exact ⟨leg, hleg, .refl _ leg⟩
  | @opens id' side qty inst _ hid _ =>
      -- the slot of the new leg was empty
      have hpos : p.positions[id']? = some p.positions[id'] := List.getElem?_eq_getElem hid
      rw [leg?_openLeg side qty c.now inst hpos, if_neg]
      · exact ⟨leg, hleg, .refl _ leg⟩
      · rintro ⟨rfl, rfl⟩
        rw [leg?_of_position hpos, List.getElem?_eq_none (Nat.le_refl _)] at hleg
        cases hleg
  | @exits id' i' leg₀ hleg₀ hopen =>
      refine LegStep.write rfl hleg₀ ⟨rfl, rfl, ?_⟩ hleg
      rw [hopen]
      exact .exiting
  | @fills before after o q price spec hidle hpend hdue hquote hprice =>
      have ho : o ∈ p.pending := by simp [hpend]
      obtain ⟨leg₀, hleg₀, hstep⟩ := LegStep.executed h price hidle ho hquote
      exact LegStep.write (fillOrder_positions (p.withPending (before ++ after)) spec o q price c.now) hleg₀ hstep hleg
  | @withdraws before after o hpend hopening =>
      have ho : o ∈ p.pending := by simp [hpend]
      obtain ⟨leg₀, hleg₀, _, hst, _⟩ := h.opening ho hopening
      refine LegStep.write rfl hleg₀ ⟨rfl, rfl, ?_⟩ hleg
      rw [hst]
      exact .withdrawn
  | @abandons before after o hidle hbell hpend hclosing =>
      have ho : o ∈ p.pending := by simp [hpend]
      obtain ⟨leg₀, hleg₀, _, hst, _⟩ := h.closing hidle ho hclosing
      refine LegStep.write rfl hleg₀ ⟨rfl, rfl, ?_⟩ hleg
      rw [hst]
      exact .abandoned hbell
  | @settles id' i' leg₀ spec level hleg₀ hlive _ => exact LegStep.write rfl hleg₀ (.settled c spec level hlive) hleg
  | drops => exact ⟨leg, hleg, .refl _ leg⟩
  | marks f hf =>
      obtain ⟨m, t, heq⟩ := hf leg
      rw [leg?_marks, hleg, Option.map_some, heq]
      exact ⟨_, rfl, rfl, rfl, .stay _⟩
  | rules => exact ⟨leg, hleg, .refl _ leg⟩

/-- **Invariant rule for a leg.** What every transition of a leg preserves, an operation preserves. -/
theorem Moves.leg_inv {c : Scope} {p p' : Portfolio F} (Q : Leg → Prop)
    (hQ : ∀ l l', Q l → LegStep c l l' → Q l') (h : Matched c.expired p) (hm : Moves c p p')
    {id : PositionId} {i : Nat} {leg : Leg} (hleg : p.leg? id i = some leg) (hq : Q leg) :
    ∃ leg', p'.leg? id i = some leg' ∧ Q leg' := by
  have hinv := hm.inv (fun q => Matched c.expired q ∧ ∃ l, q.leg? id i = some l ∧ Q l) ?_ ⟨h, leg, hleg, hq⟩
  · exact hinv.2
  · rintro q q' ⟨hmat, l, hl, hql⟩ hmove
    obtain ⟨l', hl', hstep⟩ := hmove.leg_step hmat hl
    exact ⟨hmat.move hmove, l', hl', hQ l l' hql hstep⟩

/-! ## Operations that rely on the correspondence -/

/-- The instruments that expire on a date. -/
def settling (market : MarketView) (expiry : Date) (id : InstrumentId) : Prop :=
  ∃ spec, market.registry.spec id = .ok spec ∧ expiresOn spec expiry = true

omit [Double F] in
theorem mem_slots {p : Portfolio F} {id : PositionId} {i : Nat} {leg : Leg}
    (h : p.leg? id i = some leg) : (id, i) ∈ p.slots := by
  obtain ⟨pos, hpos, hleg⟩ := leg?_eq_some.mp h
  simp only [slots, List.mem_flatMap, List.mem_map, List.mem_range]
  refine ⟨(pos, id), ?_, i, (List.getElem?_eq_some_iff.mp hleg).1, rfl⟩
  rw [List.mem_zipIdx_iff_getElem?]
  exact hpos

/-- One turn of the first loop of `settle_expiry`. -/
theorem settleIfDue_cases {market : MarketView} {expiry : Date} {level : F} {at_ : Timestamp}
    {p p' : Portfolio F} {slot : PositionId × Nat}
    (h : settleIfDue market expiry level at_ p slot = .ok p') :
    (p' = p ∧ ∀ leg, p.leg? slot.1 slot.2 = some leg → leg.live = true →
        ¬ settling market expiry leg.instrument) ∨
      ∃ leg spec, p.leg? slot.1 slot.2 = some leg ∧ leg.live = true ∧
        market.registry.spec leg.instrument = .ok spec ∧ expiresOn spec expiry = true ∧
        p' = p.settleLeg slot.1 slot.2 leg spec level at_ := by
  unfold settleIfDue at h
  cases hleg : p.leg? slot.1 slot.2 with
  | none =>
      simp only [hleg, Except.ok.injEq] at h
      exact .inl ⟨h.symm, by simp⟩
  | some leg =>
      simp only [hleg] at h
      cases hlive : leg.live with
      | false =>
          simp only [hlive, Bool.not_false, if_true, Except.ok.injEq] at h
          refine .inl ⟨h.symm, ?_⟩
          rintro leg' ⟨⟩ hlive'
          simp [hlive] at hlive'
      | true =>
          simp only [hlive, Bool.not_true, Bool.false_eq_true, if_false] at h
          obtain ⟨spec, hspec, h⟩ := Run.bind_eq_ok.mp h
          cases hexp : expiresOn spec expiry with
          | false =>
              simp only [hexp, Bool.not_false, if_true, Run.pure_eq_ok, Except.ok.injEq] at h
              refine .inl ⟨h.symm, ?_⟩
              rintro leg' ⟨⟩ _ ⟨spec', hspec', hexp'⟩
              rw [hspec] at hspec'
              cases hspec'
              simp [hexp] at hexp'
          | true =>
              simp only [hexp, Bool.not_true, Bool.false_eq_true, if_false, Run.pure_eq_ok,
                Except.ok.injEq] at h
              exact .inr ⟨leg, spec, rfl, hlive, hspec, hexp, h.symm⟩

/-- After its first loop, `settle_expiry` has left no live leg of the expiring instruments. -/
theorem settleLegs_moves {c : Scope} {market : MarketView} {expiry : Date} {level : F}
    (hc : c.expired = settling market expiry) {p p' : Portfolio F}
    (h : p.slots.foldlM (settleIfDue market expiry level c.now) p = .ok p') :
    Moves c p p' ∧ ∀ id i leg, p'.leg? id i = some leg → leg.live = true → ¬ c.expired leg.instrument := by
  have hloop := Run.foldlM_inv_rest
    (I := fun rest q => Moves c p q ∧ ∀ id i leg, (id, i) ∉ rest → q.leg? id i = some leg →
      leg.live = true → ¬ c.expired leg.instrument)
    ?_ ⟨.refl, fun id i leg hrest hleg => absurd (mem_slots hleg) hrest⟩ h
  · exact ⟨hloop.1, fun id i leg => hloop.2 id i leg (by simp)⟩
  · rintro q slot rest q' ⟨hq, hdone⟩ hstep
    obtain ⟨rfl, hnone⟩ | ⟨leg, spec, hleg, hlive, hspec, hexp, rfl⟩ := settleIfDue_cases hstep
    · refine ⟨hq, fun id i leg hrest hleg hlive => ?_⟩
      by_cases hs : (id, i) = slot
      · subst hs
        rw [hc]
        exact hnone leg hleg hlive
      · exact hdone id i leg (by simp [hs, hrest]) hleg hlive
    · refine ⟨hq.tail (.settles hleg hlive (by rw [hc]; exact ⟨spec, hspec, hexp⟩)), ?_⟩
      intro id i leg' hrest hleg' hlive'
      rw [leg?_settleLeg] at hleg'
      by_cases hs : id = slot.1 ∧ i = slot.2
      · -- the leg just settled is not live any more
        rw [if_pos hs, hleg, Option.map_some, Option.some.injEq] at hleg'
        subst hleg'
        simp [Leg.live, settledLeg] at hlive'
      · rw [if_neg hs] at hleg'
        have hne : (id, i) ≠ slot := fun heq => hs (by rw [← heq]; exact ⟨rfl, rfl⟩)
        exact hdone id i leg' (by simp [hne, hrest]) hleg' hlive'

omit [Double F] in
/-- One turn of the second loop of `settle_expiry`. -/
theorem dropIfExpired_cases {market : MarketView} {expiry : Date} {p p' : Portfolio F} {o : PendingOrder}
    (h : dropIfExpired market expiry p o = .ok p') :
    (p' = p.keep o ∧ ¬ settling market expiry o.instrument) ∨
      (settling market expiry o.instrument ∧
        ∀ leg, p.leg? o.position o.legIndex = some leg →
          (o.closing = false → leg.state = .PendingOpen →
            p' = (p.setState o.position o.legIndex .Cancelled).countCancelled o) ∧
          (o.closing = true → p' = p.countCancelled o)) := by
  unfold dropIfExpired at h
  obtain ⟨spec, hspec, h⟩ := Run.bind_eq_ok.mp h
  cases hexp : expiresOn spec expiry with
  | false =>
      simp only [hexp, Bool.false_eq_true, if_false, Run.pure_eq_ok, Except.ok.injEq] at h
      refine .inl ⟨h.symm, ?_⟩
      rintro ⟨spec', hspec', hexp'⟩
      rw [hspec] at hspec'
      cases hspec'
      simp [hexp] at hexp'
  | true =>
      simp only [hexp, if_true] at h
      refine .inr ⟨⟨spec, hspec, hexp⟩, fun leg hleg => ?_⟩
      simp only [hleg] at h
      constructor
      · intro hopening hst
        simp only [hopening, hst, and_self, if_true, Run.pure_eq_ok, Except.ok.injEq] at h
        exact h.symm
      · intro hclosing
        simp only [hclosing, Bool.true_eq_false, false_and, if_false, Run.pure_eq_ok,
          Except.ok.injEq] at h
        exact h.symm

/-- The second loop drops the orders of the instruments just settled and keeps the others. -/
theorem dropExpired_moves {c : Scope} {market : MarketView} {expiry : Date}
    (hc : c.expired = settling market expiry) {p p' : Portfolio F} (hmat : Matched c.expired p)
    (hlive : ∀ id i leg, p.leg? id i = some leg → leg.live = true → ¬ c.expired leg.instrument)
    (h : p.pending.foldlM (dropIfExpired market expiry) { p with pending := [] } = .ok p') :
    Moves c p p' ∧ (∀ o ∈ p'.pending, ¬ c.expired o.instrument) ∧
      ∀ id i leg, p'.leg? id i = some leg → leg.live = true → ¬ c.expired leg.instrument := by
  have hloop := Run.foldlM_inv_rest
    (I := fun rest q => Moves c p (q.withRest rest) ∧ (∀ o ∈ q.pending, ¬ c.expired o.instrument) ∧
      ∀ id i leg, q.leg? id i = some leg → leg.live = true → ¬ c.expired leg.instrument)
    ?_ ⟨by rw [withRest_start], by simp, hlive⟩ h
  · rw [withRest_nil] at hloop
    exact hloop
  · rintro q o rest q' ⟨hq, hkept, hnone⟩ hstep
    obtain ⟨rfl, hexp⟩ | ⟨hexp, hdrop⟩ := dropIfExpired_cases hstep
    · refine ⟨by rw [withRest_keep]; exact hq, ?_, hnone⟩
      intro o' ho'
      simp only [keep, List.mem_append, List.mem_singleton] at ho'
      obtain ho' | rfl := ho'
      · exact hkept o' ho'
      · rw [hc]
        exact hexp
    · -- the order's leg has not opened, or was settled by the first loop
      have hmat' : Matched c.expired (q.withRest (o :: rest)) := hmat.moves hq
      have hmem : o ∈ (q.withRest (o :: rest)).pending := by simp [withRest_pending]
      obtain ⟨leg, hleg, _, ⟨hst, hop⟩ | ⟨hst, hcl⟩ | ⟨hst, hout⟩⟩ := hmat'.order_cases hmem
      · have hq' := (hdrop leg hleg).1 hop.opening hst
        subst hq'
        refine ⟨hq.tail (.withdraws (withRest_pending q o rest) hop.opening), hkept, ?_⟩
        intro id i leg' hleg' hlive'
        have hmod : ((q.setState o.position o.legIndex .Cancelled).countCancelled o).leg? id i = _ :=
          leg?_setState q o.position o.legIndex .Cancelled id i
        rw [hmod] at hleg'
        by_cases hs : id = o.position ∧ i = o.legIndex
        · rw [if_pos hs, show q.leg? o.position o.legIndex = some leg from hleg, Option.map_some,
            Option.some.injEq] at hleg'
          subst hleg'
          simp [Leg.live] at hlive'
        · rw [if_neg hs] at hleg'
          exact hnone id i leg' hleg' hlive'
      · refine absurd ?_ (hnone _ _ leg hleg (by simp [Leg.live, hst]))
        rw [← hcl.instrument, hc]
        exact hexp
      · have hq' := (hdrop leg hleg).2 hout.closing
        subst hq'
        exact ⟨hq.tail (.drops (withRest_pending q o rest) hout.closing hleg hst), hkept, hnone⟩

omit [Double F] in
/-- Without orders of the instruments being settled, nothing is outlived. -/
theorem Matched.settled {expired : InstrumentId → Prop} {p : Portfolio F} (h : Matched expired p)
    (hnone : ∀ o ∈ p.pending, ¬ expired o.instrument) : Matched noneExpired p := by
  intro id i
  have hslot := h id i
  cases hleg : p.leg? id i with
  | none =>
      rw [hleg] at hslot
      exact hslot
  | some leg =>
      rw [hleg] at hslot
      simp only [SlotMatched, LegMatched] at hslot ⊢
      cases hst : leg.state with
      | Closed =>
          simp only [hst] at hslot
          obtain hnil | ⟨o, hone, hout⟩ := hslot
          · exact .inl hnil
          · have ho : o ∈ p.ordersFor id i := by simp [hone]
            have hexp := hnone o (mem_ordersFor.mp ho).1
            rw [hout.instrument] at hexp
            exact absurd hout.expired hexp
      | PendingOpen => simpa [hst] using hslot
      | Open => simpa [hst] using hslot
      | PendingClose => simpa [hst] using hslot
      | Cancelled => simpa [hst] using hslot

theorem settleExpiry_moves {c : Scope} {market : MarketView} {expiry : Date} {level : F}
    (hc : c.expired = settling market expiry) {p p' : Portfolio F} {n : Nat}
    (hmat : Matched noneExpired p) (h : p.settleExpiry market expiry level c.now = .ok (p', n)) :
    Moves c p p' ∧ Matched noneExpired p' ∧
      ∀ id i leg, p'.leg? id i = some leg → leg.live = true → ¬ c.expired leg.instrument := by
  simp only [settleExpiry] at h
  obtain ⟨p₁, hsettle, h⟩ := Run.bind_eq_ok.mp h
  obtain ⟨p₂, hdrop, h⟩ := Run.bind_eq_ok.mp h
  simp only [Run.pure_eq_ok, Except.ok.injEq, Prod.mk.injEq] at h
  obtain ⟨rfl, _⟩ := h
  obtain ⟨hmoves₁, hlive⟩ := settleLegs_moves hc hsettle
  have hmat₁ : Matched c.expired p₁ := hmat.mono.moves hmoves₁
  obtain ⟨hmoves₂, hpend, hlive'⟩ := dropExpired_moves hc hmat₁ hlive hdrop
  exact ⟨hmoves₁.trans hmoves₂, (hmat₁.moves hmoves₂).settled hpend, hlive'⟩

omit [Double F] in
/-- One turn of the first loop of `cancel_working_orders`: a leg on its way out is held again, a leg that did
    not open never will. -/
theorem abandonOrder_cases {expired : InstrumentId → Prop} (hidle : ∀ id, ¬ expired id) {p : Portfolio F}
    (abandoned : List PositionId) {o : PendingOrder} {rest : List PendingOrder}
    (hmat : Matched expired (p.withRest (o :: rest))) :
    ∃ leg, p.leg? o.position o.legIndex = some leg ∧
      ((o.closing = true ∧ leg.state = .PendingClose ∧ abandonOrder (p, abandoned) o =
          ((p.setState o.position o.legIndex .Open).countCancelled o, o.position :: abandoned)) ∨
        (o.closing = false ∧ leg.state = .PendingOpen ∧ abandonOrder (p, abandoned) o =
          ((p.setState o.position o.legIndex .Cancelled).countCancelled o, abandoned))) := by
  have hmem : o ∈ (p.withRest (o :: rest)).pending := by simp [withRest_pending]
  unfold abandonOrder
  cases hcl : o.closing with
  | true =>
      obtain ⟨leg, hleg, _, hst, _⟩ := hmat.closing hidle hmem hcl
      have hleg : p.leg? o.position o.legIndex = some leg := hleg
      exact ⟨leg, hleg, .inl ⟨rfl, hst, by simp only [hleg, hst, if_true]⟩⟩
  | false =>
      obtain ⟨leg, hleg, _, hst, _⟩ := hmat.opening hmem hcl
      have hleg : p.leg? o.position o.legIndex = some leg := hleg
      exact ⟨leg, hleg, .inr ⟨rfl, hst, by simp only [hleg, hst, if_true, Bool.false_eq_true, if_false]⟩⟩

theorem abandonOrder_move {c : Scope} (hidle : ∀ id, ¬ c.expired id) (hbell : c.bell) (p : Portfolio F)
    (abandoned : List PositionId) (o : PendingOrder) (rest : List PendingOrder)
    (hmat : Matched c.expired (p.withRest (o :: rest))) :
    Move c (p.withRest (o :: rest)) ((abandonOrder (p, abandoned) o).1.withRest rest) := by
  obtain ⟨leg, _, ⟨hcl, _, heq⟩ | ⟨hcl, _, heq⟩⟩ := abandonOrder_cases hidle abandoned hmat
  · rw [heq]
    exact .abandons hidle hbell (withRest_pending p o rest) hcl
  · rw [heq]
    exact .withdraws (withRest_pending p o rest) hcl

omit [Double F] in
theorem abandonOrder_pending (p : Portfolio F) (abandoned : List PositionId) (o : PendingOrder) :
    (abandonOrder (p, abandoned) o).1.pending = p.pending := by
  unfold abandonOrder
  dsimp only
  split
  · rfl
  · split_ifs <;> rfl

/-- The first loop of `cancel_working_orders` empties the queue. -/
theorem abandonOrders_moves {c : Scope} (hidle : ∀ id, ¬ c.expired id) (hbell : c.bell) {p : Portfolio F}
    (hmat : Matched c.expired p) :
    Moves c p (p.pending.foldl abandonOrder ({ p with pending := [] }, [])).1 ∧
      (p.pending.foldl abandonOrder ({ p with pending := [] }, [])).1.pending = [] := by
  have hloop := Run.foldl_inv_rest (f := abandonOrder (F := F))
    (fun rest acc => Moves c p (acc.1.withRest rest) ∧ acc.1.pending = []) p.pending
    ?_ (s := ({ p with pending := [] }, [])) ⟨by rw [withRest_start], rfl⟩
  · rw [withRest_nil] at hloop
    exact hloop
  · rintro ⟨q, abandoned⟩ o rest ⟨hq, hempty⟩
    refine ⟨hq.tail (abandonOrder_move hidle hbell q abandoned o rest (hmat.moves hq)), ?_⟩
    rw [abandonOrder_pending]
    exact hempty

theorem cancelWorkingOrders_moves {c : Scope} (hidle : ∀ id, ¬ c.expired id) (hbell : c.bell)
    (hfree : ¬ c.standing) {p p' : Portfolio F} {n : Nat} (hmat : Matched c.expired p)
    (h : p.cancelWorkingOrders = .ok (p', n)) : Moves c p p' ∧ p'.pending = [] := by
  unfold cancelWorkingOrders at h
  obtain ⟨hmoves, hempty⟩ := abandonOrders_moves hidle hbell hmat
  generalize p.pending.foldl abandonOrder ({ p with pending := [] }, []) = acc at h hmoves hempty
  obtain ⟨q, abandoned⟩ := acc
  obtain ⟨rules, _, h⟩ := Run.bind_eq_ok.mp h
  simp only [Run.pure_eq_ok, Except.ok.injEq, Prod.mk.injEq] at h
  obtain ⟨rfl, _⟩ := h
  exact ⟨hmoves.tail (.rules hfree rules q.rulesFired q.closingFromRule), hempty⟩

/-! ## Every operation -/

/-- The scope of an operation that neither trades nor settles. -/
def quietScope (p : Portfolio F) (now : Timestamp) : Scope where
  known := p.positions.length
  now := now
  quote := fun _ => none
  expired := noneExpired
  bell := False
  standing := False

/-- The scope an operation's moves are taken in. -/
def Op.scope (p : Portfolio F) : Op F → Scope
  | .submitOpen _ _ _ _ now => p.quietScope now
  | .submitClose _ now => p.quietScope now
  | .submitCloseLeg _ _ now => p.quietScope now
  | .attachStopLoss .. => p.quietScope 0
  | .attachTakeProfit .. => p.quietScope 0
  | .attachExitAt .. => p.quietScope 0
  | .processRiskRules market => p.quietScope market.now
  | .processPending market => { p.quietScope market.now with quote := market.current }
  | .refreshMarks market => p.quietScope market.now
  | .settleExpiry market expiry _ at_ => { p.quietScope at_ with expired := settling market expiry }
  | .cancelWorkingOrders => { p.quietScope 0 with bell := True }

omit [Double F] in
theorem Op.scope_known (p : Portfolio F) (op : Op F) : (Op.scope p op).known = p.positions.length := by
  cases op <;> rfl

omit [Double F] in
theorem fst_map_eq_ok {α β : Type} {x : Except Error (α × β)} {a : α} (h : (·.1) <$> x = .ok a) :
    ∃ b, x = .ok (a, b) := by
  cases x with
  | error e => cases h
  | ok r =>
      cases h
      exact ⟨r.2, rfl⟩

/-- **Every operation is a sequence of moves**, and leaves legs and orders matched. -/
theorem apply_moves {p p' : Portfolio F} {op : Op F} (hmat : Matched noneExpired p)
    (h : p.apply op = .ok p') : Moves (op.scope p) p p' ∧ Matched noneExpired p' := by
  have hidle : ∀ id, ¬ noneExpired id := fun _ hno => hno
  cases op with
  | submitOpen label instruments side qty now =>
      obtain ⟨id, h⟩ := fst_map_eq_ok h
      have hm := (submitOpen_moves (c := p.quietScope now) (Nat.le_refl _) h).1
      exact ⟨hm, hmat.moves hm⟩
  | submitClose id now =>
      have hm := submitClose_moves (c := p.quietScope now) h
      exact ⟨hm, hmat.moves hm⟩
  | submitCloseLeg id i now =>
      have hm := submitCloseLeg_moves (c := p.quietScope now) h
      exact ⟨hm, hmat.moves hm⟩
  | attachStopLoss id leg pct =>
      obtain ⟨_, rule, _, _, _, rfl⟩ := attachStopLoss_cases h
      exact ⟨rules_moves (fun hno => hno) p _, hmat⟩
  | attachTakeProfit id leg pct =>
      obtain ⟨_, rule, _, _, _, rfl⟩ := attachTakeProfit_cases h
      exact ⟨rules_moves (fun hno => hno) p _, hmat⟩
  | attachExitAt id leg when_ =>
      obtain ⟨_, rule, _, _, _, rfl⟩ := attachExitAt_cases h
      exact ⟨rules_moves (fun hno => hno) p _, hmat⟩
  | processRiskRules market =>
      have hm := processRiskRules_moves (c := p.quietScope market.now) (fun hno => hno) rfl h
      exact ⟨hm, hmat.moves hm⟩
  | processPending market =>
      have hm := processPending_moves (c := { p.quietScope market.now with quote := market.current }) rfl
        (fun _ _ _ => rfl) hidle h
      exact ⟨hm, hmat.moves hm⟩
  | refreshMarks market =>
      cases h
      have hm := refreshMarks_moves (c := p.quietScope market.now) p market
      exact ⟨hm, hmat.moves hm⟩
  | settleExpiry market expiry level at_ =>
      obtain ⟨n, h⟩ := fst_map_eq_ok h
      obtain ⟨hm, hmat', _⟩ := settleExpiry_moves
        (c := { p.quietScope at_ with expired := settling market expiry }) rfl hmat h
      exact ⟨hm, hmat'⟩
  | cancelWorkingOrders =>
      obtain ⟨n, h⟩ := fst_map_eq_ok h
      obtain ⟨hm, _⟩ := cancelWorkingOrders_moves (c := { p.quietScope 0 with bell := True }) hidle trivial
        (fun hno => hno) hmat h
      exact ⟨hm, hmat.moves hm⟩

omit [Double F] in
theorem matched_empty (fills : FillModel F) (delay : Int) (costs : CostPolicy) :
    Matched noneExpired (empty fills delay costs) := by
  intro id i
  simp [SlotMatched, leg?, ordersFor, empty]

/-- The states of a portfolio that started empty. -/
abbrev Reachable (fills : FillModel F) (delay : Int) (costs : CostPolicy) : Portfolio F → Prop :=
  Run.Reach apply (empty fills delay costs)

theorem Reachable.matched {fills : FillModel F} {delay : Int} {costs : CostPolicy} {p : Portfolio F}
    (h : Reachable fills delay costs p) : Matched noneExpired p :=
  h.inv (Matched noneExpired) (matched_empty fills delay costs) (fun _ _ _ hp hs => (apply_moves hp hs).2)

end Portfolio

end Volforge
