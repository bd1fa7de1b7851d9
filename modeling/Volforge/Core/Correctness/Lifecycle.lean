import Volforge.Core.Correctness.Orders

/-!
# `Core.Correctness.Lifecycle` — what becomes of every order

The journal lists every order submitted, filled and cancelled. `Accounted` says that these lists and the
queue partition the submitted orders, and that the trade log is the list of fills. `Sealed` is what
`submit_close` leaves behind: no opening order of the position, now or later.
-/

namespace Volforge

variable {F : Type}

namespace Portfolio

/-! ## Accounting for orders -/

/-- The trade record of a fill. -/
structure Records (t : TradeRecord) (f : Fill) : Prop where
  signalTs : t.signalTs = f.order.submittedAt
  fillTs : t.fillTs = f.time
  position : t.position = f.order.position
  instrument : t.instrument = f.order.instrument
  side : t.side = f.order.side
  qty : t.qty = f.order.qty
  price : t.price = f.price
  fromRule : t.fromRule = f.order.fromRule

/-- The trades that come from orders. -/
def orderTrades (p : Portfolio F) : List TradeRecord := p.trades.filter (fun t => !t.settled)

/-- **Every order submitted is filled, cancelled or still pending**, and only one of them. -/
structure Accounted (p : Portfolio F) : Prop where
  serials : p.journal.submitted.map (·.serial) = List.range p.journal.submitted.length
  once : p.journal.submitted.Perm
    (p.journal.fills.map (·.order) ++ (p.journal.cancelled ++ p.pending))
  counted : p.cancelledOrders = p.journal.cancelled.length
  traded : List.Forall₂ Records p.orderTrades p.journal.fills

theorem Accounted.nodup {p : Portfolio F} (h : Accounted p) : p.journal.submitted.Nodup := by
  refine List.Nodup.of_map (·.serial) ?_
  rw [h.serials]
  exact List.nodup_range

/-- An order that leaves the queue for another list is still there once. -/
theorem perm_move {α : Type} {submitted xs ys before after : List α} {o : α}
    (h : submitted.Perm (xs ++ (ys ++ (before ++ o :: after)))) :
    submitted.Perm (xs ++ (ys ++ [o] ++ (before ++ after))) := by
  refine h.trans ?_
  rw [List.append_assoc, List.singleton_append]
  exact ((List.perm_middle).append_left ys).append_left xs

theorem perm_move_first {α : Type} {submitted xs ys before after : List α} {o : α}
    (h : submitted.Perm (xs ++ (ys ++ (before ++ o :: after)))) :
    submitted.Perm ((xs ++ [o]) ++ (ys ++ (before ++ after))) := by
  refine h.trans ?_
  rw [List.append_assoc, List.singleton_append]
  refine List.Perm.append_left xs ?_
  rw [← List.append_assoc, ← List.append_assoc]
  exact List.perm_middle

theorem Accounted.submit {p : Portfolio F} (h : Accounted p) (o : PendingOrder) :
    Accounted (p.submit o) where
  serials := by
    simp only [Portfolio.submit, List.map_append, h.serials, List.map_cons, List.map_nil,
      List.length_append, List.length_cons, List.length_nil, List.range_succ]
  once := by
    simp only [Portfolio.submit]
    rw [← List.append_assoc, ← List.append_assoc]
    refine List.Perm.append_right _ ?_
    rw [List.append_assoc]
    exact h.once
  counted := h.counted
  traded := h.traded

theorem Accounted.cancel {p q : Portfolio F} {before after : List PendingOrder} {o : PendingOrder}
    (h : Accounted p) (hpend : p.pending = before ++ o :: after) (hpend' : q.pending = before ++ after)
    (hjournal : q.journal = p.journal) (hcount : q.cancelledOrders = p.cancelledOrders)
    (htrades : q.trades = p.trades) : Accounted (q.countCancelled o) where
  serials := by
    simp only [countCancelled, hjournal]
    exact h.serials
  once := by
    have hone := h.once
    rw [hpend] at hone
    simp only [countCancelled, hjournal, hpend']
    exact perm_move hone
  counted := by
    simp only [countCancelled, hjournal, hcount, h.counted, List.length_append, List.length_cons,
      List.length_nil]
  traded := by
    simp only [countCancelled, orderTrades, hjournal, htrades]
    exact h.traded

variable [Double F]

theorem records_tradeOf (p : Portfolio F) (spec : InstrumentSpec) (o : PendingOrder) (q : Quote)
    (price : Price) (now : Timestamp) :
    Records (p.tradeOf spec o q price now) { order := o, quote := q, price, time := now } :=
  ⟨rfl, rfl, rfl, rfl, rfl, rfl, rfl, rfl⟩

theorem Accounted.move {c : Scope} {p p' : Portfolio F} (h : Accounted p) (hm : Move c p p') :
    Accounted p' := by
  cases hm with
  | position label => exact ⟨h.serials, h.once, h.counted, h.traded⟩
  | @opens id side qty inst _ _ _ =>
      have hpos : Accounted { p with positions := p.positions.modify id (fun pos =>
          { pos with legs := pos.legs ++
            [{ instrument := inst, qty := if side = .Sell then -qty else qty, state := .PendingOpen }] }) } :=
        ⟨h.serials, h.once, h.counted, h.traded⟩
      exact hpos.submit _
  | @exits id i leg _ _ =>
      have hset : Accounted (p.setState id i .PendingClose) := ⟨h.serials, h.once, h.counted, h.traded⟩
      exact hset.submit _
  | @fills before after o q price spec _ hpend _ _ _ =>
      have hone := h.once
      rw [hpend] at hone
      refine ⟨h.serials, ?_, ?_, ?_⟩
      · rw [fillOrder_journal, fillOrder_pending, List.map_append]
        exact perm_move_first hone
      · rw [fillOrder_cancelledOrders, fillOrder_journal]
        exact h.counted
      · rw [fillOrder_journal, orderTrades, fillOrder_trades, List.filter_append]
        exact List.rel_append h.traded (.cons (records_tradeOf _ spec o q price c.now) .nil)
  | withdraws hpend _ => exact h.cancel hpend rfl rfl rfl rfl
  | abandons _ _ hpend _ => exact h.cancel hpend rfl rfl rfl rfl
  | settles _ _ _ =>
      refine ⟨h.serials, h.once, h.counted, ?_⟩
      simp only [orderTrades, settleLeg, List.filter_append, List.filter_cons, Bool.not_true,
        Bool.false_eq_true, if_false, List.filter_nil, List.append_nil]
      exact h.traded
  | drops hpend _ _ _ => exact h.cancel hpend rfl rfl rfl rfl
  | marks => exact ⟨h.serials, h.once, h.counted, h.traded⟩
  | rules => exact ⟨h.serials, h.once, h.counted, h.traded⟩

omit [Double F] in
theorem accounted_empty (fills : FillModel F) (delay : Int) (costs : CostPolicy) :
    Accounted (empty fills delay costs) where
  serials := rfl
  once := .nil
  counted := rfl
  traded := .nil

/-! ## Opening orders -/

/-- The leg comes from an order submitted to open it. -/
def Opened (submitted : List PendingOrder) (id : PositionId) (i : Nat) (leg : Leg) : Prop :=
  ∃ o ∈ submitted, o.position = id ∧ o.legIndex = i ∧ Opens o leg

omit [Double F] in
/-- The exit of a leg goes the other way than the order that opened it. -/
theorem Opens.closingSide {o : PendingOrder} {leg : Leg} (h : Opens o leg) :
    leg.closingSide = o.side.opposite := by
  have hpos := h.qty_pos
  have hqty := h.qty
  unfold Leg.closingSide
  cases hside : o.side with
  | Buy =>
      have hq : leg.qty = o.qty := by simpa [hside] using hqty
      rw [if_neg (by lia)]
      rfl
  | Sell =>
      have hq : leg.qty = -o.qty := by simpa [hside] using hqty
      rw [if_pos (by lia)]
      rfl

theorem Move.submitted_subset {c : Scope} {p p' : Portfolio F} (hm : Move c p p') {o : PendingOrder}
    (ho : o ∈ p.journal.submitted) : o ∈ p'.journal.submitted := by
  cases hm with
  | opens => exact List.mem_append_left _ ho
  | exits => exact List.mem_append_left _ ho
  | position => exact ho
  | fills => exact ho
  | withdraws => exact ho
  | abandons => exact ho
  | settles => exact ho
  | drops => exact ho
  | marks => exact ho
  | rules => exact ho

/-- A leg that was not there waits for the order that opens it. -/
theorem Move.leg_new {c : Scope} {p p' : Portfolio F} (hm : Move c p p') {id : PositionId} {i : Nat}
    {leg : Leg} (hnone : p.leg? id i = none) (hleg : p'.leg? id i = some leg) :
    c.known ≤ id ∧ leg.state = .PendingOpen ∧ Opened p'.journal.submitted id i leg := by
  have hnew : ¬ ∃ leg₀, p.leg? id i = some leg₀ := by simp [hnone]
  -- all but one of the moves write to legs that are there
  cases hm with
  | position label =>
      rw [leg?_addPosition] at hleg
      exact absurd ⟨leg, hleg⟩ hnew
  | @opens id' side qty inst hknown hid hqty =>
      have hpos : p.positions[id']? = some p.positions[id'] := List.getElem?_eq_getElem hid
      rw [leg?_openLeg side qty c.now inst hpos] at hleg
      by_cases hs : id = id' ∧ i = p.positions[id'].legs.length
      · rw [if_pos hs, Option.some.injEq] at hleg
        subst hleg
        obtain ⟨rfl, rfl⟩ := hs
        refine ⟨hknown, rfl, _, List.mem_append_right _ (List.mem_singleton_self _), rfl, ?_, rfl, rfl, hqty, rfl⟩
        simp [hpos]
      · rw [if_neg hs] at hleg
        exact absurd ⟨leg, hleg⟩ hnew
  | exits => exact absurd (leg?_of_write rfl hleg) hnew
  | @fills before after o q price spec =>
      exact absurd (leg?_of_write (fillOrder_positions (p.withPending (before ++ after)) spec o q price c.now) hleg) hnew
  | @withdraws before after => exact absurd (leg?_of_write (p := p.withPending (before ++ after)) rfl hleg) hnew
  | @abandons before after => exact absurd (leg?_of_write (p := p.withPending (before ++ after)) rfl hleg) hnew
  | settles => exact absurd (leg?_of_write rfl hleg) hnew
  | drops => exact absurd ⟨leg, hleg⟩ hnew
  | marks f _ =>
      rw [leg?_marks] at hleg
      obtain ⟨leg₀, hleg₀, _⟩ := Option.map_eq_some_iff.mp hleg
      exact absurd ⟨leg₀, hleg₀⟩ hnew
  | rules => exact absurd ⟨leg, hleg⟩ hnew

/-- Every leg was opened by an order of the journal. -/
def LegsOpened (p : Portfolio F) : Prop :=
  ∀ id i leg, p.leg? id i = some leg → Opened p.journal.submitted id i leg

theorem LegsOpened.move {c : Scope} {p p' : Portfolio F} (h : LegsOpened p) (hmat : Matched c.expired p)
    (hm : Move c p p') : LegsOpened p' := by
  intro id i leg' hleg'
  cases hleg : p.leg? id i with
  | none => exact (hm.leg_new hleg hleg').2.2
  | some leg =>
      obtain ⟨leg'', hleg'', hstep⟩ := hm.leg_step hmat hleg
      rw [hleg'] at hleg''
      cases hleg''
      obtain ⟨o, ho, hid, hi, hopens⟩ := h id i leg hleg
      refine ⟨o, hm.submitted_subset ho, hid, hi, hopens.opening, ?_, hopens.qty_pos, ?_⟩
      · rw [hstep.instrument]
        exact hopens.instrument
      · rw [hstep.qty]
        exact hopens.qty

/-! ## After a close -/

/-- The opening fills of a position. -/
def openingFills (p : Portfolio F) (id : PositionId) : List Fill :=
  p.journal.fills.filter (fun f => f.order.position = id ∧ f.order.closing = false)

/-- The position exists and none of its opening orders is queued. -/
structure Sealed (id : PositionId) (p : Portfolio F) : Prop where
  exists_ : id < p.positions.length
  none_queued : ∀ o ∈ p.pending, o.position = id → o.closing = true

theorem Move.positions_le {c : Scope} {p p' : Portfolio F} (hm : Move c p p') :
    p.positions.length ≤ p'.positions.length := by
  cases hm with
  | position => simp
  | opens => rw [openLeg_length]
  | exits => simp [Portfolio.submit, setState]
  | fills => rw [fillOrder_positions, modifyLeg_length, withPending]
  | withdraws => simp [countCancelled, setState, withPending]
  | abandons => simp [countCancelled, setState, withPending]
  | settles => simp [settleLeg]
  | drops => exact Nat.le_refl _
  | marks => simp
  | rules => exact Nat.le_refl _

/-- Without a market nothing fills. -/
theorem Moves.fills_eq {c : Scope} {p p' : Portfolio F} (hm : Moves c p p')
    (hquiet : ∀ id, c.quote id = none) : p'.journal.fills = p.journal.fills := by
  refine hm.inv (fun q => q.journal.fills = p.journal.fills) ?_ rfl
  rintro q q' hq hmove
  cases hmove with
  | fills _ _ _ hquote _ => simp [hquiet] at hquote
  | position => exact hq
  | opens => exact hq
  | exits => exact hq
  | withdraws => exact hq
  | abandons => exact hq
  | settles => exact hq
  | drops => exact hq
  | marks => exact hq
  | rules => exact hq

/-- A sealed position stays sealed, and nothing more of it opens. -/
theorem Sealed.move {c : Scope} {p p' : Portfolio F} {id : PositionId} (h : Sealed id p) (hk : id < c.known)
    (hm : Move c p p') : Sealed id p' ∧ p'.openingFills id = p.openingFills id := by
  have hlen := Nat.lt_of_lt_of_le h.exists_ hm.positions_le
  -- taking an order out of the queue leaves no opening order behind
  have hsub : ∀ before after o, p.pending = before ++ o :: after → ∀ o' ∈ before ++ after,
      o'.position = id → o'.closing = true := by
    intro before after o hpend o' ho'
    exact h.none_queued o' (mem_of_taken hpend ho')
  cases hm with
  | position => exact ⟨⟨hlen, h.none_queued⟩, rfl⟩
  | @opens id' side qty inst hnew hid _ =>
      have hpos : p.positions[id']? = some p.positions[id'] := List.getElem?_eq_getElem hid
      refine ⟨⟨hlen, ?_⟩, rfl⟩
      rw [openLeg_pending side qty c.now inst hpos]
      intro o ho hoid
      obtain ho | ho := List.mem_append.mp ho
      · exact h.none_queued o ho hoid
      · rw [List.mem_singleton] at ho
        subst ho
        -- legs are opened in new positions only
        exact absurd hoid (Nat.ne_of_gt (Nat.lt_of_lt_of_le hk hnew))
  | @exits id' i leg _ _ =>
      refine ⟨⟨hlen, ?_⟩, rfl⟩
      intro o ho hoid
      obtain ho | ho := List.mem_append.mp ho
      · exact h.none_queued o ho hoid
      · rw [List.mem_singleton] at ho
        subst ho
        rfl
  | @fills before after o q price spec _ hpend _ _ _ =>
      refine ⟨⟨hlen, ?_⟩, ?_⟩
      · rw [fillOrder_pending]
        exact hsub before after o hpend
      · -- so the order that fills is no opening order of the position
        have hnot : ¬ (o.position = id ∧ o.closing = false) := by
          rintro ⟨hoid, hopening⟩
          rw [h.none_queued o (by simp [hpend]) hoid] at hopening
          cases hopening
        simp only [openingFills, fillOrder_journal, List.filter_append, withPending_journal]
        simp [hnot]
  | withdraws hpend _ => exact ⟨⟨hlen, hsub _ _ _ hpend⟩, rfl⟩
  | abandons _ _ hpend _ => exact ⟨⟨hlen, hsub _ _ _ hpend⟩, rfl⟩
  | settles => exact ⟨⟨hlen, h.none_queued⟩, rfl⟩
  | drops hpend _ _ _ => exact ⟨⟨hlen, hsub _ _ _ hpend⟩, rfl⟩
  | marks => exact ⟨⟨hlen, h.none_queued⟩, rfl⟩
  | rules => exact ⟨⟨hlen, h.none_queued⟩, rfl⟩

omit [Double F] in
/-- After its first loop, `submit_close` has withdrawn every opening order of the position. -/
theorem cancelOpenings_sealed (id : PositionId) (p : Portfolio F) :
    ∀ o ∈ (p.pending.foldl (cancelOpening id) { p with pending := [] }).pending,
      o.position = id → o.closing = true := by
  refine Run.foldl_inv (fun q : Portfolio F => ∀ o ∈ q.pending, o.position = id → o.closing = true) _ ?_
    (by simp)
  intro q o _ hq
  unfold cancelOpening
  by_cases ho : o.position = id ∧ o.closing = false
  · rw [if_pos ho]
    exact hq
  · rw [if_neg ho]
    intro o' ho' hid
    simp only [keep, List.mem_append, List.mem_singleton] at ho'
    obtain ho' | rfl := ho'
    · exact hq o' ho' hid
    · simpa [hid] using ho

theorem submitClose_sealed {p p' : Portfolio F} {id : PositionId} {now : Timestamp}
    (h : p.submitClose id now = .ok p') : Sealed id p' := by
  simp only [submitClose] at h
  obtain ⟨pos, hat, h⟩ := Run.bind_eq_ok.mp h
  have hlt : id < p.positions.length := (List.getElem?_eq_some_iff.mp (atId_eq_ok.mp hat)).1
  have hlen : id < (p.pending.foldl (cancelOpening id) { p with pending := [] }).positions.length := by
    refine Run.foldl_inv (fun q : Portfolio F => id < q.positions.length) _ ?_ hlt
    intro q o _ hq
    unfold cancelOpening
    split_ifs
    · simpa [countCancelled, setState] using hq
    · exact hq
  refine Run.foldlM_inv (Sealed id) ?_ _ _ p' ⟨hlen, cancelOpenings_sealed id p⟩ h
  -- the second loop queues closing orders only
  intro q i q' hq hstep
  have hmoves : ∀ q'', q.submitCloseLeg id i now = .ok q'' → Sealed id q'' := by
    intro q'' hclose
    refine Moves.inv (Sealed id) (fun _ _ hr hm => (hr.move ?_ hm).1)
      (submitCloseLeg_moves (c := { q.quietScope now with known := id + 1 }) hclose) hq
    exact Nat.lt_succ_self id
  unfold closeIfOpen at hstep
  split at hstep
  · split at hstep
    · exact hmoves q' hstep
    · cases hstep
      exact hq
  · cases hstep
    exact hq

/-! ## Main result -/

/-- Matched, accounted for, and every leg opened by an order. -/
structure WellKept (p : Portfolio F) : Prop where
  matched : Matched noneExpired p
  accounted : Accounted p
  opened : LegsOpened p

theorem WellKept.apply {p p' : Portfolio F} {op : Op F} (h : WellKept p) (hop : p.apply op = .ok p') :
    WellKept p' := by
  obtain ⟨hmoves, hmat'⟩ := apply_moves h.matched hop
  have hinv := hmoves.inv (fun q => Matched (op.scope p).expired q ∧ Accounted q ∧ LegsOpened q)
    (fun q q' hq hm => ⟨hq.1.move hm, hq.2.1.move hm, hq.2.2.move hq.1 hm⟩)
    ⟨h.matched.mono, h.accounted, h.opened⟩
  exact ⟨hmat', hinv.2.1, hinv.2.2⟩

omit [Double F] in
theorem wellKept_empty (fills : FillModel F) (delay : Int) (costs : CostPolicy) :
    WellKept (empty fills delay costs) where
  matched := matched_empty fills delay costs
  accounted := accounted_empty fills delay costs
  opened := by
    intro id i leg hleg
    simp [leg?, empty] at hleg

theorem Reachable.wellKept {fills : FillModel F} {delay : Int} {costs : CostPolicy} {p : Portfolio F}
    (h : Reachable fills delay costs p) : WellKept p :=
  h.inv WellKept (wellKept_empty fills delay costs) (fun _ _ _ hp hs => hp.apply hs)

/-- A terminal leg keeps its state through every later operation. -/
theorem terminal_of_reach {p q : Portfolio F} (hmat : Matched noneExpired p) (h : Run.Reach apply p q)
    {id : PositionId} {i : Nat} {leg : Leg} (hleg : p.leg? id i = some leg)
    (ht : leg.state.terminal = true) : ∃ leg', q.leg? id i = some leg' ∧ leg'.state = leg.state := by
  have hinv := h.inv (fun r => Matched noneExpired r ∧ ∃ l, r.leg? id i = some l ∧ l.state = leg.state) ?_ ?_
  · exact hinv.2
  · exact ⟨hmat, leg, hleg, rfl⟩
  · rintro r op r' ⟨hr, l, hl, hst⟩ hop
    obtain ⟨hmoves, hr'⟩ := apply_moves hr hop
    refine ⟨hr', hmoves.leg_inv (fun l => l.state = leg.state) ?_ hr.mono hl hst⟩
    intro l₁ l₂ h₁ hstep
    rw [← h₁] at ht ⊢
    exact hstep.next.terminal_eq ht

/-- A sealed position has no more opening fills, whatever is done later. -/
theorem openingFills_of_reach {p q : Portfolio F} {id : PositionId} (hmat : Matched noneExpired p)
    (hs : Sealed id p) (h : Run.Reach apply p q) : q.openingFills id = p.openingFills id := by
  have hinv := h.inv (fun r => Matched noneExpired r ∧ Sealed id r ∧ r.openingFills id = p.openingFills id)
    ⟨hmat, hs, rfl⟩ ?_
  · exact hinv.2.2
  · rintro r op r' ⟨hr, hseal, hfills⟩ hop
    obtain ⟨hmoves, hr'⟩ := apply_moves hr hop
    have hk : id < (op.scope r).known := by
      rw [Op.scope_known]
      exact hseal.exists_
    have := hmoves.inv (fun r => Sealed id r ∧ r.openingFills id = p.openingFills id)
      (fun a b hab hm => ⟨(hab.1.move hk hm).1, (hab.1.move hk hm).2.trans hab.2⟩) ⟨hseal, hfills⟩
    exact ⟨hr', this⟩

/-- **Orders and legs stay in one-to-one correspondence.** In every reachable state: what the queue holds
    for each leg, that it holds nothing else, what became of every order submitted, that `Closed` and
    `Cancelled` are final, and that a closed position opens nothing more. -/
theorem orders_match_legs {fills : FillModel F} {delay : Int} {costs : CostPolicy} {p : Portfolio F}
    (h : Reachable fills delay costs p) :
    (∀ id i leg, p.leg? id i = some leg →
      (leg.state = .PendingOpen → ∃ o, p.ordersFor id i = [o] ∧ Opens o leg) ∧
      (leg.state = .PendingClose → ∃ o, p.ordersFor id i = [o] ∧ Closes o leg ∧
        ∃ o₀ ∈ p.journal.submitted, o₀.position = id ∧ o₀.legIndex = i ∧ Opens o₀ leg ∧
          o.side = o₀.side.opposite) ∧
      (leg.state = .Open ∨ leg.state = .Closed ∨ leg.state = .Cancelled → p.ordersFor id i = [])) ∧
    (∀ o ∈ p.pending, ∃ leg, p.leg? o.position o.legIndex = some leg ∧
      (leg.state = .PendingOpen ∨ leg.state = .PendingClose)) ∧
    (p.journal.submitted.Nodup ∧
      p.journal.submitted.Perm (p.journal.fills.map (·.order) ++ (p.journal.cancelled ++ p.pending)) ∧
      p.cancelledOrders = p.journal.cancelled.length ∧
      List.Forall₂ Records p.orderTrades p.journal.fills) ∧
    (∀ q, Run.Reach apply p q → ∀ id i leg, p.leg? id i = some leg → leg.state.terminal = true →
      ∃ leg', q.leg? id i = some leg' ∧ leg'.state = leg.state) ∧
    (∀ id now p', p.submitClose id now = .ok p' → ∀ q, Run.Reach apply p' q →
      q.openingFills id = p.openingFills id) := by
  have hkept := h.wellKept
  have hmat := hkept.matched
  refine ⟨fun id i leg hleg => ?_, fun o ho => ?_, ?_, ?_, ?_⟩
  · have hslot := hmat id i
    rw [hleg] at hslot
    simp only [SlotMatched, LegMatched] at hslot
    refine ⟨fun hst => ?_, fun hst => ?_, fun hst => ?_⟩
    · simpa [hst] using hslot
    · simp only [hst] at hslot
      obtain ⟨o, hone, hcloses⟩ := hslot
      obtain ⟨o₀, ho₀, hid, hi, hopens⟩ := hkept.opened id i leg hleg
      exact ⟨o, hone, hcloses, o₀, ho₀, hid, hi, hopens, hcloses.side.trans hopens.closingSide⟩
    · obtain hst | hst | hst := hst
      · simpa [hst] using hslot
      · simp only [hst] at hslot
        obtain hnil | ⟨_, _, hout⟩ := hslot
        · exact hnil
        · exact hout.expired.elim
      · simpa [hst] using hslot
  · obtain ⟨leg, hleg, _, ⟨hst, _⟩ | ⟨hst, _⟩ | ⟨_, hout⟩⟩ := hmat.order_cases ho
    · exact ⟨leg, hleg, .inl hst⟩
    · exact ⟨leg, hleg, .inr hst⟩
    · exact hout.expired.elim
  · exact ⟨hkept.accounted.nodup, hkept.accounted.once, hkept.accounted.counted, hkept.accounted.traded⟩
  · exact fun q hq id i leg hleg ht => terminal_of_reach hmat hq hleg ht
  · intro id now p' hclose q hq
    have hmoves := submitClose_moves (c := p.quietScope now) hclose
    rw [openingFills_of_reach (hmat.moves hmoves) (submitClose_sealed hclose) hq, openingFills, openingFills,
      hmoves.fills_eq (fun _ => rfl)]

/-- Two instruments, each bid at 1.00 and offered at 1.05. -/
def pairMarket : MarketView where
  now := 10
  registry := { specs := [{ id := 0 }, { id := 1 }] }
  quote := fun id _ => if id = 0 ∨ id = 1 then some { ts := 9, last := 102, bid := 100, ask := 105 } else none
  hasQuote := fun id => id = 0 ∨ id = 1

/-- A pair is sold and filled, and one leg of it is on its way out. -/
def closingPair : List (Op ℚ) :=
  [.submitOpen "short" [0, 1] .Sell 2 5, .processPending pairMarket, .submitCloseLeg 0 0 11]

theorem orders_match_legs_closing :
    ∃ p : Portfolio ℚ, closingPair.foldlM apply (empty crossSpreadFill 1 noCosts) = .ok p ∧
      (∃ leg, p.leg? 0 0 = some leg ∧ leg.state = .PendingClose ∧ ∃ o, p.ordersFor 0 0 = [o] ∧ Closes o leg) ∧
      (∃ leg, p.leg? 0 1 = some leg ∧ leg.state = .Open ∧ p.ordersFor 0 1 = []) ∧
      p.journal.fills.length = 2 ∧ List.Forall₂ Records p.orderTrades p.journal.fills ∧
      p.journal.submitted.Perm (p.journal.fills.map (·.order) ++ (p.journal.cancelled ++ p.pending)) := by
  obtain ⟨p, hrun, htest⟩ := Run.exists_of_succeeds
    (fun p => (p.leg? 0 0).map (·.state) = some .PendingClose ∧ (p.leg? 0 1).map (·.state) = some .Open ∧
      p.journal.fills.length = 2)
    (closingPair.foldlM apply (empty crossSpreadFill 1 noCosts)) (by decide +kernel)
  obtain ⟨hfirst, hsecond, hfills⟩ := of_decide_eq_true htest
  obtain ⟨leg₀, hleg₀, hstate₀⟩ := Option.map_eq_some_iff.mp hfirst
  obtain ⟨leg₁, hleg₁, hstate₁⟩ := Option.map_eq_some_iff.mp hsecond
  obtain ⟨hlegs, _, ⟨_, hperm, _, hrecords⟩, _⟩ := orders_match_legs (.of_run .init hrun)
  obtain ⟨o, horders, hcloses, _⟩ := (hlegs 0 0 leg₀ hleg₀).2.1 hstate₀
  exact ⟨p, hrun, ⟨leg₀, hleg₀, hstate₀, o, horders, hcloses⟩,
    ⟨leg₁, hleg₁, hstate₁, (hlegs 0 1 leg₁ hleg₁).2.2 (.inl hstate₁)⟩, hfills, hrecords, hperm⟩

end Portfolio

end Volforge
