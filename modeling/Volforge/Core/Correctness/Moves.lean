import Volforge.Core.Correctness.Legs
import Volforge.Lib.Run

/-!
# `Core.Correctness.Moves` — what one operation can do, in small moves

Every operation of the portfolio is a sequence of moves: one leg, one order or one rule at a time. A move
says all that happens at once, guards included, so an invariant is proved by cases on `Move` and then holds
after every operation.

The loops of the source that keep some orders and drop others are read through `withRest`: in the middle of
such a loop the queue is what was kept so far, followed by what is still to be looked at.
-/

namespace Volforge

variable {F : Type}

/-- What one operation fixes for all its moves. -/
structure Scope where
  /-- Positions that existed when the operation started. -/
  known : Nat
  now : Timestamp
  /-- The market an order may execute against. -/
  quote : InstrumentId → Option Quote
  /-- The instruments being settled. -/
  expired : InstrumentId → Prop
  /-- The session is over: exits that did not fill are given up. -/
  bell : Prop
  /-- The attached rules stay as they are. -/
  standing : Prop

/-- There is a market to trade the instrument in. -/
def Scope.traded (c : Scope) (id : InstrumentId) : Prop := ∃ q, c.quote id = some q

namespace Portfolio

/-! ## Queue loops

The loops of the source empty the queue and put back what stays. `withRest` is the portfolio in the middle of such
a loop, with the orders it has not looked at back in their place, so that each turn is a move or nothing. -/

/-- The portfolio with a given queue. -/
def withPending (p : Portfolio F) (orders : List PendingOrder) : Portfolio F :=
  { p with pending := orders }

@[simp] theorem withPending_leg? (p : Portfolio F) (orders : List PendingOrder) (id : PositionId) (i : Nat) :
    (p.withPending orders).leg? id i = p.leg? id i := rfl
@[simp] theorem withPending_journal (p : Portfolio F) (orders : List PendingOrder) :
    (p.withPending orders).journal = p.journal := rfl
@[simp] theorem withPending_self (p : Portfolio F) : p.withPending p.pending = p := rfl

/-- A portfolio inside a loop over its queue: `rest` is still to be looked at. -/
def withRest (p : Portfolio F) (rest : List PendingOrder) : Portfolio F :=
  p.withPending (p.pending ++ rest)

@[simp] theorem withRest_nil (p : Portfolio F) : p.withRest [] = p := by
  simp [withRest]

/-- At the start of the loop the whole queue is still to be looked at. -/
theorem withRest_start (p : Portfolio F) :
    ({ p with pending := [] } : Portfolio F).withRest p.pending = p := by
  simp [withRest, withPending]

/-- A turn that keeps its order does nothing. -/
theorem withRest_keep (p : Portfolio F) (o : PendingOrder) (rest : List PendingOrder) :
    (p.keep o).withRest rest = p.withRest (o :: rest) := by
  simp [withRest, withPending, keep]

theorem withRest_pending (p : Portfolio F) (o : PendingOrder) (rest : List PendingOrder) :
    (p.withRest (o :: rest)).pending = p.pending ++ o :: rest := rfl

/-- Taking the order under the loop's hand out of the queue. -/
theorem withRest_remove (p : Portfolio F) (o : PendingOrder) (rest : List PendingOrder) :
    (p.withRest (o :: rest)).withPending (p.pending ++ rest) = p.withRest rest := rfl

variable [Double F]

/-! ## Moves -/

/-- The order that closes a leg. -/
def closingOrder (id : PositionId) (i : Nat) (leg : Leg) (delay : Int) (now : Timestamp) : PendingOrder :=
  { position := id, legIndex := i, instrument := leg.instrument, side := leg.closingSide, qty := |leg.qty|,
    submittedAt := now, eligibleAt := now + delay, closing := true }

/-- One thing that can happen to a portfolio inside an operation. -/
inductive Move (c : Scope) (p : Portfolio F) : Portfolio F → Prop where
  | position (label : String) :
      Move c p { p with positions := p.positions ++ [{ id := p.positions.length, label := label }] }
  | opens {id side qty inst} (hnew : c.known ≤ id) (hid : id < p.positions.length) (hqty : 0 < qty) :
      Move c p (openLeg id side qty c.now p inst)
  | exits {id i leg} (hleg : p.leg? id i = some leg) (hopen : leg.state = .Open) :
      Move c p ((p.setState id i .PendingClose).submit (closingOrder id i leg p.delay c.now))
  | fills {before after o q price spec} (hidle : ∀ id, ¬ c.expired id)
      (hpend : p.pending = before ++ o :: after) (hdue : o.eligibleAt ≤ c.now) (hquote : c.quote o.instrument = some q)
      (hprice : p.fills.fill q o.side o.qty = some price) :
      Move c p ((p.withPending (before ++ after)).fillOrder spec o q price c.now)
  | withdraws {before after o} (hpend : p.pending = before ++ o :: after) (hopening : o.closing = false) :
      Move c p (((p.withPending (before ++ after)).setState o.position o.legIndex .Cancelled).countCancelled o)
  | abandons {before after o} (hidle : ∀ id, ¬ c.expired id) (hbell : c.bell)
      (hpend : p.pending = before ++ o :: after) (hclosing : o.closing = true) :
      Move c p (((p.withPending (before ++ after)).setState o.position o.legIndex .Open).countCancelled o)
  | settles {id i leg spec level} (hleg : p.leg? id i = some leg) (hlive : leg.live = true)
      (hexp : c.expired leg.instrument) :
      Move c p (p.settleLeg id i leg spec level c.now)
  | drops {before after o leg} (hpend : p.pending = before ++ o :: after) (hclosing : o.closing = true)
      (hleg : p.leg? o.position o.legIndex = some leg) (hclosed : leg.state = .Closed) :
      Move c p ((p.withPending (before ++ after)).countCancelled o)
  | marks (f : Leg → Leg) (hf : ∀ l, ∃ m t, f l = { l with lastMark := m, lastMarkTs := t }) :
      Move c p { p with positions := p.positions.map fun pos => { pos with legs := pos.legs.map f } }
  | rules (hfree : ¬ c.standing) (rules : List (RiskRule F)) (fired : Nat) (flag : Bool) :
      Move c p { p with rules := rules, rulesFired := fired, closingFromRule := flag }

/-- A sequence of moves. -/
abbrev Moves (c : Scope) : Portfolio F → Portfolio F → Prop := Relation.ReflTransGen (Move c)

/-- **Invariant rule.** What every move preserves, every sequence of moves preserves. -/
theorem Moves.inv {c : Scope} {p p' : Portfolio F} (P : Portfolio F → Prop)
    (hmove : ∀ q q', P q → Move c q q' → P q') (h : Moves c p p') (hp : P p) : P p' := by
  induction h with
  | refl => exact hp
  | tail _ hm ih => exact hmove _ _ ih hm

/-! ## Opening -/

omit [Double F] in
/-- Opening a leg adds no position. -/
theorem openLeg_length (id : PositionId) (side : Side) (qty : Qty) (now : Timestamp) (p : Portfolio F)
    (inst : InstrumentId) : (openLeg id side qty now p inst).positions.length = p.positions.length := by
  simp [openLeg, submit]

/-- Opening adds a position and one leg for each instrument, all of them in that position. -/
theorem submitOpen_moves {c : Scope} {p p' : Portfolio F} {label : String}
    {instruments : List InstrumentId} {side : Side} {qty : Qty} {id : PositionId}
    (hk : c.known ≤ p.positions.length)
    (h : p.submitOpen label instruments side qty c.now = .ok (p', id)) :
    Moves c p p' ∧ id = p.positions.length := by
  simp only [submitOpen] at h
  obtain ⟨_, h⟩ := Run.guard_eq_ok.mp h
  obtain ⟨hqty, h⟩ := Run.guard_eq_ok.mp h
  simp only [Except.ok.injEq, Prod.mk.injEq] at h
  obtain ⟨rfl, rfl⟩ := h
  refine ⟨?_, rfl⟩
  -- the loop keeps the number of positions, so each leg goes to the position just added
  have hstart : Moves c p { p with positions := p.positions ++ [{ id := p.positions.length, label := label }] } :=
    .single (.position label)
  have hloop := Run.foldl_inv (f := openLeg p.positions.length side qty c.now)
    (fun q => Moves c p q ∧ q.positions.length = p.positions.length + 1) instruments ?_
    ⟨hstart, by simp⟩
  · exact hloop.1
  · rintro q inst - ⟨hq, hlen⟩
    refine ⟨hq.tail (.opens hk ?_ ?_), ?_⟩
    · rw [hlen]
      exact Nat.lt_succ_self _
    · exact not_le.mp hqty
    · rw [openLeg_length, hlen]

/-! ## Closing

A close runs over the queue first, then over the legs. -/

/-- Closing a leg that is open is one move; otherwise nothing happens. -/
theorem submitCloseLeg_moves {c : Scope} {p p' : Portfolio F} {id : PositionId} {i : Nat}
    (h : p.submitCloseLeg id i c.now = .ok p') : Moves c p p' := by
  simp only [submitCloseLeg] at h
  obtain ⟨pos, hpos, h⟩ := Run.bind_eq_ok.mp h
  cases hleg : pos.legs[i]? with
  | none => simp [hleg] at h
  | some leg =>
      simp only [hleg] at h
      have hslot : p.leg? id i = some leg := by rw [leg?_of_position (atId_eq_ok.mp hpos), hleg]
      by_cases hopen : leg.state = .Open
      · rw [if_neg (by simpa using hopen)] at h
        cases h
        exact .single (.exits hslot hopen)
      · rw [if_pos hopen] at h
        cases h
        exact .refl

/-- One turn of the loop: an opening order of the position is withdrawn, any other kept. -/
theorem cancelOpening_move {c : Scope} (id : PositionId) (p : Portfolio F) (o : PendingOrder)
    (rest : List PendingOrder) :
    Moves c (p.withRest (o :: rest)) ((cancelOpening id p o).withRest rest) := by
  unfold cancelOpening
  by_cases ho : o.position = id ∧ o.closing = false
  · obtain ⟨rfl, hopening⟩ := ho
    rw [if_pos ⟨rfl, hopening⟩]
    exact .single (.withdraws (withRest_pending p o rest) hopening)
  · rw [if_neg ho, withRest_keep]

/-- The loop over the queue withdraws. -/
theorem submitClose_cancels {c : Scope} (id : PositionId) (p : Portfolio F) :
    Moves c p (p.pending.foldl (cancelOpening id) { p with pending := [] }) := by
  have := Run.foldl_inv_rest (f := cancelOpening id)
    (fun rest q => Moves c p (q.withRest rest)) p.pending
    (fun q o rest hq => hq.trans (cancelOpening_move id q o rest)) (s := { p with pending := [] }) (by rw [withRest_start])
  simpa using this

/-- **Closing** withdraws what has not filled, then exits what is open. -/
theorem submitClose_moves {c : Scope} {p p' : Portfolio F} {id : PositionId}
    (h : p.submitClose id c.now = .ok p') : Moves c p p' := by
  simp only [submitClose] at h
  obtain ⟨pos, _, h⟩ := Run.bind_eq_ok.mp h
  refine Run.foldlM_inv (fun q => Moves c p q) ?_ _ _ p' (submitClose_cancels id p) h
  intro q i q' hq hstep
  unfold closeIfOpen at hstep
  split at hstep
  · split at hstep
    · exact hq.trans (submitCloseLeg_moves hstep)
    · cases hstep
      exact hq
  · cases hstep
    exact hq

/-! ## Fills -/

omit [Double F] in
/-- An order executes when it is due and its instrument has a quote with a price for it. -/
theorem executable_eq_some {fills : FillModel F} {market : MarketView} {o : PendingOrder} {q : Quote}
    {price : Price} :
    executable fills market o = some (q, price) ↔
      o.eligibleAt ≤ market.now ∧ market.current o.instrument = some q ∧
        fills.fill q o.side o.qty = some price := by
  unfold executable
  by_cases hdue : market.now < o.eligibleAt
  · simp [hdue]
  · rw [if_neg hdue]
    cases hq : market.current o.instrument with
    | none => simp
    | some q' =>
        have hdue : o.eligibleAt ≤ market.now := not_lt.mp hdue
        simp only [hdue, true_and, Option.some.injEq]
        cases hp : fills.fill q' o.side o.qty with
        | none =>
            simp only [reduceCtorEq, false_iff]
            rintro ⟨rfl, hfill⟩
            simp [hp] at hfill
        | some price' =>
            simp only [Option.some.injEq, Prod.mk.injEq]
            constructor
            · rintro ⟨rfl, rfl⟩
              exact ⟨rfl, hp⟩
            · rintro ⟨rfl, hfill⟩
              rw [hp] at hfill
              exact ⟨rfl, Option.some.inj hfill⟩

theorem withRest_fillOrder (p : Portfolio F) (spec : InstrumentSpec) (o : PendingOrder) (q : Quote)
    (price : Price) (now : Timestamp) (rest : List PendingOrder) :
    (p.fillOrder spec o q price now).withRest rest = (p.withRest rest).fillOrder spec o q price now := by
  unfold fillOrder execute
  cases o.closing <;> rfl

/-- One turn of the loop: the order is kept, or it executes. -/
theorem processOrder_cases {market : MarketView} {p p' : Portfolio F} {o : PendingOrder}
    (h : processOrder market p o = .ok p') :
    p' = p.keep o ∨ ∃ q price spec, o.eligibleAt ≤ market.now ∧ market.current o.instrument = some q ∧
      p.fills.fill q o.side o.qty = some price ∧ market.registry.spec o.instrument = .ok spec ∧
      p' = p.fillOrder spec o q price market.now := by
  unfold processOrder at h
  split at h
  · cases h
    exact .inl rfl
  · next q price heq =>
      obtain ⟨spec, hspec, h⟩ := Run.bind_eq_ok.mp h
      cases h
      obtain ⟨hdue, hquote, hprice⟩ := executable_eq_some.mp heq
      exact .inr ⟨q, price, spec, hdue, hquote, hprice, hspec, rfl⟩

/-- The scope may leave out the quotes of instruments that are not in the registry. -/
theorem processOrder_move {c : Scope} {market : MarketView} (hnow : c.now = market.now)
    (hquote : ∀ id spec, market.registry.spec id = .ok spec → c.quote id = market.current id)
    (hidle : ∀ id, ¬ c.expired id) {p p' : Portfolio F} {o : PendingOrder}
    (rest : List PendingOrder) (h : processOrder market p o = .ok p') :
    Moves c (p.withRest (o :: rest)) (p'.withRest rest) := by
  obtain rfl | ⟨q, price, spec, hdue, hq, hprice, hspec, rfl⟩ := processOrder_cases h
  · rw [withRest_keep]
  · rw [withRest_fillOrder, ← hnow, ← withRest_remove p o rest]
    exact .single (.fills hidle (withRest_pending p o rest) (by rw [hnow]; exact hdue)
      ((hquote _ _ hspec).trans hq) hprice)

/-- **A pass over the queue** is made of moves, in any scope that quotes what its market quotes. -/
theorem processPending_moves {c : Scope} {market : MarketView} (hnow : c.now = market.now)
    (hquote : ∀ id spec, market.registry.spec id = .ok spec → c.quote id = market.current id)
    (hidle : ∀ id, ¬ c.expired id) {p p' : Portfolio F} (h : p.processPending market = .ok p') :
    Moves c p p' := by
  have := Run.foldlM_inv_rest (I := fun rest q => Moves c p (q.withRest rest))
    (fun q o rest q' hq hstep => hq.trans (processOrder_move hnow hquote hidle rest hstep))
    (by rw [withRest_start]) h
  simpa using this

/-! ## Marks -/

omit [Double F] in
/-- A refresh writes the mark of a leg and its time. -/
theorem refreshMark_eq (market : MarketView) (l : Leg) :
    ∃ m t, refreshMark market l = { l with lastMark := m, lastMarkTs := t } := by
  unfold refreshMark
  split
  · exact ⟨l.lastMark, l.lastMarkTs, rfl⟩
  · split
    · exact ⟨l.lastMark, l.lastMarkTs, rfl⟩
    · next q _ =>
        dsimp only
        generalize (if l.qty < 0 then q.ask else q.bid) = side
        split_ifs
        · exact ⟨_, _, rfl⟩
        · exact ⟨_, _, rfl⟩
        · exact ⟨_, _, rfl⟩
        · exact ⟨l.lastMark, l.lastMarkTs, rfl⟩

theorem refreshMarks_moves {c : Scope} (p : Portfolio F) (market : MarketView) :
    Moves c p (p.refreshMarks market) :=
  .single (.marks (refreshMark market) (refreshMark_eq market))

/-! ## Risk rules

A rule that fires does so through `submit_close` or `submit_close_leg`, between two changes of the rules. -/

/-- What attaching a rule does: one more rule, that has not fired, about a position there is. -/
theorem attachStopLoss_cases {p p' : Portfolio F} {id : PositionId} {leg : Option Nat} {pct : F}
    (h : p.attachStopLoss id leg pct = .ok p') :
    ∃ pos rule, p.atId id = .ok pos ∧ rule.position = id ∧ rule.fired = false ∧
      p' = { p with rules := p.rules ++ [rule] } := by
  obtain ⟨_, h⟩ := Run.guard_eq_ok.mp h
  obtain ⟨pos, hat, h⟩ := Run.bind_eq_ok.mp h
  cases h
  exact ⟨pos, { kind := .StopLossPct, position := id, leg, threshold := pct }, hat, rfl, rfl, rfl⟩

theorem attachTakeProfit_cases {p p' : Portfolio F} {id : PositionId} {leg : Option Nat} {pct : F}
    (h : p.attachTakeProfit id leg pct = .ok p') :
    ∃ pos rule, p.atId id = .ok pos ∧ rule.position = id ∧ rule.fired = false ∧
      p' = { p with rules := p.rules ++ [rule] } := by
  obtain ⟨_, h⟩ := Run.guard_eq_ok.mp h
  obtain ⟨pos, hat, h⟩ := Run.bind_eq_ok.mp h
  cases h
  exact ⟨pos, { kind := .TakeProfitPct, position := id, leg, threshold := pct }, hat, rfl, rfl, rfl⟩

theorem attachExitAt_cases {p p' : Portfolio F} {id : PositionId} {leg : Option Nat} {when_ : Timestamp}
    (h : p.attachExitAt id leg when_ = .ok p') :
    ∃ pos rule, p.atId id = .ok pos ∧ rule.position = id ∧ rule.fired = false ∧
      p' = { p with rules := p.rules ++ [rule] } := by
  obtain ⟨pos, hat, h⟩ := Run.bind_eq_ok.mp h
  cases h
  exact ⟨pos, { kind := .ExitAt, position := id, leg, threshold := Double.zero, deadline := when_ }, hat, rfl, rfl, rfl⟩

/-- Any change of the rules is one move, where the scope leaves them free. -/
theorem rules_moves {c : Scope} (hfree : ¬ c.standing) (p : Portfolio F) (rules : List (RiskRule F)) :
    Moves c p { p with rules := rules } :=
  .single (.rules hfree rules p.rulesFired p.closingFromRule)

theorem setFired_move {c : Scope} (hfree : ¬ c.standing) (p : Portfolio F) (k : Nat) :
    Move c p (p.setFired k) :=
  .rules hfree _ p.rulesFired p.closingFromRule

theorem startRule_move {c : Scope} (hfree : ¬ c.standing) (p : Portfolio F) (k : Nat) :
    Move c p (p.startRule k) :=
  .rules hfree _ (p.rulesFired + 1) true

theorem closeScope_moves {c : Scope} {p p' : Portfolio F} {rule : RiskRule F}
    (h : p.closeScope rule c.now = .ok p') : Moves c p p' := by
  unfold closeScope at h
  cases hscope : rule.leg with
  | none =>
      rw [hscope] at h
      exact submitClose_moves h
  | some i =>
      rw [hscope] at h
      exact submitCloseLeg_moves h

omit [Double F] in
theorem fireRule_eq_ok {p p' : Portfolio F} {k : Nat} {rule : RiskRule F} {now : Timestamp} :
    p.fireRule k rule now = .ok p' ↔
      ∃ q, (p.startRule k).closeScope rule now = .ok q ∧ p' = { q with closingFromRule := false } := by
  rw [fireRule, Run.bind_eq_ok]
  simp only [Run.pure_eq_ok, Except.ok.injEq, eq_comm]

/-- A rule that fires closes what it watches. -/
theorem fireRule_moves {c : Scope} (hfree : ¬ c.standing) {p p' : Portfolio F} {k : Nat}
    {rule : RiskRule F} (h : p.fireRule k rule c.now = .ok p') : Moves c p p' := by
  obtain ⟨q, hclose, rfl⟩ := fireRule_eq_ok.mp h
  have hstart : Moves c p (p.startRule k) := .single (startRule_move hfree p k)
  exact (hstart.trans (closeScope_moves hclose)).tail (.rules hfree q.rules q.rulesFired false)

/-- What one turn of the loop of `process_risk_rules` does. -/
theorem processRule_cases {market : MarketView} {p p' : Portfolio F} {k : Nat}
    (h : processRule market p k = .ok p') :
    p' = p ∨ ∃ rule pos, p.rules[k]? = some rule ∧ rule.fired = false ∧
      p.positions[rule.position]? = some pos ∧
      ((p' = p.setFired k ∧
          (pos.isOpen = false ∨ ∃ i, rule.leg = some i ∧ pos.legs[i]? = none)) ∨
        ((∀ i, rule.leg = some i → ∃ leg, pos.legs[i]? = some leg ∧ leg.state = .Open) ∧
          (rule.leg = none → pos.established = true) ∧ p.fireRule k rule market.now = .ok p')) := by
  unfold processRule at h
  cases hrule : p.rules[k]? with
  | none =>
      simp only [hrule, Except.ok.injEq] at h
      exact .inl h.symm
  | some rule =>
      simp only [hrule] at h
      by_cases hfired : rule.fired = true
      · rw [if_pos hfired] at h
        cases h
        exact .inl rfl
      rw [if_neg hfired] at h
      have hfired : rule.fired = false := by simpa using hfired
      obtain ⟨pos, hat, h⟩ := Run.bind_eq_ok.mp h
      have hpos := atId_eq_ok.mp hat
      by_cases hopen : pos.isOpen = true
      · simp only [hopen, Bool.not_true, Bool.false_eq_true, if_false] at h
        cases hscope : rule.leg with
        | none =>
            -- a rule about the whole position waits for every leg to open
            simp only [hscope] at h
            by_cases hest : pos.established = true
            · simp only [hest, Bool.not_true, Bool.false_eq_true, if_false] at h
              cases htrig : triggered rule pos market with
              | false =>
                  simp only [htrig, Bool.not_false, if_true] at h
                  cases h
                  exact .inl rfl
              | true =>
                  simp only [htrig, Bool.not_true, Bool.false_eq_true, if_false] at h
                  exact .inr ⟨rule, pos, rfl, hfired, hpos,
                    .inr ⟨by simp [hscope], fun _ => hest, h⟩⟩
            · simp only [hest, Bool.not_false, if_true] at h
              cases h
              exact .inl rfl
        | some i =>
            simp only [hscope] at h
            cases hleg : pos.legs[i]? with
            | none =>
                -- there is no such leg: the rule is retired
                simp only [hleg] at h
                cases h
                exact .inr ⟨rule, pos, rfl, hfired, hpos, .inl ⟨rfl, .inr ⟨i, hscope, hleg⟩⟩⟩
            | some leg =>
                simp only [hleg] at h
                by_cases hst : leg.state = .Open
                · simp only [hst, ne_eq, not_true_eq_false, if_false] at h
                  cases htrig : triggered rule pos market with
                  | false =>
                      simp only [htrig, Bool.not_false, if_true] at h
                      cases h
                      exact .inl rfl
                  | true =>
                      simp only [htrig, Bool.not_true, Bool.false_eq_true, if_false] at h
                      refine .inr ⟨rule, pos, rfl, hfired, hpos, .inr ⟨?_, by simp [hscope], h⟩⟩
                      intro j hj
                      rw [hscope] at hj
                      cases hj
                      exact ⟨leg, hleg, hst⟩
                · simp only [ne_eq, hst, not_false_eq_true, if_true] at h
                  cases h
                  exact .inl rfl
      · -- so is a rule whose position has closed
        simp only [hopen, Bool.not_false, if_true] at h
        cases h
        exact .inr ⟨rule, pos, rfl, hfired, hpos, .inl ⟨rfl, .inl (by simpa using hopen)⟩⟩

/-- One turn of the loop over the rules. -/
theorem processRule_moves {c : Scope} (hfree : ¬ c.standing) {market : MarketView}
    (hnow : c.now = market.now) {p p' : Portfolio F} {k : Nat} (h : processRule market p k = .ok p') : Moves c p p' := by
  obtain rfl | ⟨rule, pos, _, _, _, ⟨rfl, _⟩ | ⟨_, _, hfire⟩⟩ := processRule_cases h
  · exact .refl
  · exact .single (setFired_move hfree p k)
  · rw [← hnow] at hfire
    exact fireRule_moves hfree hfire

/-- **The loop over the rules** is made of moves, at the instant of its market. -/
theorem processRiskRules_moves {c : Scope} (hfree : ¬ c.standing) {market : MarketView}
    (hnow : c.now = market.now) {p p' : Portfolio F} (h : p.processRiskRules market = .ok p') : Moves c p p' :=
  Run.foldlM_inv (fun q => Moves c p q)
    (fun _ _ _ hq hstep => hq.trans (processRule_moves hfree hnow hstep)) _ _ _ .refl h

end Portfolio

end Volforge
