import Volforge.Core.Correctness.Books
import Volforge.Core.Correctness.Lifecycle

/-!
# `Core.Correctness.Marks` — the mark a leg carries

`mark_for` reads a price off the market, and `refresh_marks` writes one down for the time when there is none to
read. The two cascades are written twice: here they give the same price. No other operation touches a mark, so
a leg that is not quoted is worth what it was worth when its mark was last set.

## Contents
- **One leg.** `Leg.marked`, and what a refresh leaves behind.
- **Frames.** `Keeps`: what each operation leaves as it was.
- **Holdings.** A leg that has filled keeps its instrument, its quantity and its entry.
- **Main result.** `carried_mark_agrees`.
-/

namespace Volforge

namespace Leg

/-! ## One leg -/

/-- The price the market has for closing the leg, if it has one. -/
def quotedMark (l : Leg) (market : MarketView) : Option Price := do
  let q ← market.current l.instrument
  let side := if l.qty < 0 then q.ask else q.bid
  if 0 < side then return side
  if 0 < l.qty then return 0
  if 0 < q.last then return q.last
  none

/-- A refresh sets the mark of the leg. -/
def marked (l : Leg) (market : MarketView) : Bool := l.live && (l.quotedMark market).isSome

/-- The instrument is not quoted, or the leg is short and there is neither an offer nor a last price. -/
def Unquoted (l : Leg) (market : MarketView) : Prop :=
  ∀ q, market.current l.instrument = some q → l.qty < 0 ∧ q.ask ≤ 0 ∧ q.last ≤ 0

theorem quotedMark_nonneg {l : Leg} {market : MarketView} {m : Price} (h : l.quotedMark market = some m) : 0 ≤ m := by
  unfold quotedMark at h
  cases hq : market.current l.instrument with
  | none => simp [hq] at h
  | some q =>
      simp only [hq, Option.bind_eq_bind, Option.bind_some, Option.pure_def] at h
      generalize (if l.qty < 0 then q.ask else q.bid) = side at h
      split_ifs at h with hside hlong hlast
      · cases h
        exact le_of_lt hside
      · cases h
        exact le_refl _
      · cases h
        exact le_of_lt hlast

/-- The cascade of `mark_for` is the price of the market, and the carried mark where there is none. -/
theorem markFor_eq (l : Leg) (market : MarketView) :
    l.markFor market = (l.quotedMark market).getD l.carriedMark := by
  unfold markFor quotedMark
  cases market.current l.instrument with
  | none => rfl
  | some q =>
      simp only [Option.bind_eq_bind, Option.bind_some, Option.pure_def]
      generalize (if l.qty < 0 then q.ask else q.bid) = side
      split_ifs <;> rfl

/-- The cascade of `refresh_marks` writes down the same price, and nothing where there is none. -/
theorem refreshMark_of_marked {l : Leg} {market : MarketView} {m : Price} (hlive : l.live = true)
    (h : l.quotedMark market = some m) :
    Portfolio.refreshMark market l = { l with lastMark := m, lastMarkTs := market.now } := by
  unfold Portfolio.refreshMark
  unfold quotedMark at h
  rw [hlive]
  cases hq : market.current l.instrument with
  | none => simp [hq] at h
  | some q =>
      simp only [hq, Option.bind_eq_bind, Option.bind_some, Option.pure_def] at h
      simp only [Bool.not_true, Bool.false_eq_true, if_false]
      generalize (if l.qty < 0 then q.ask else q.bid) = side at h ⊢
      split_ifs at h ⊢ <;> cases h <;> rfl

theorem refreshMark_of_not_marked {l : Leg} {market : MarketView} (h : l.marked market = false) :
    Portfolio.refreshMark market l = l := by
  unfold Portfolio.refreshMark
  cases hlive : l.live with
  | false => rfl
  | true =>
      unfold marked quotedMark at h
      rw [hlive, Bool.true_and] at h
      cases hq : market.current l.instrument with
      | none => rfl
      | some q =>
          simp only [hq, Option.bind_eq_bind, Option.bind_some, Option.pure_def] at h
          simp only [Bool.not_true, Bool.false_eq_true, if_false]
          generalize (if l.qty < 0 then q.ask else q.bid) = side at h ⊢
          split_ifs at h ⊢ <;> first | rfl | cases h

theorem live_refreshMark (market : MarketView) (l : Leg) : (Portfolio.refreshMark market l).live = l.live := by
  obtain ⟨m, t, heq⟩ := Portfolio.refreshMark_eq market l
  rw [heq]
  rfl

theorem quotedMark_of_unquoted {l : Leg} {market : MarketView} (h : l.Unquoted market) :
    l.quotedMark market = none := by
  unfold quotedMark
  cases hq : market.current l.instrument with
  | none => rfl
  | some q =>
      obtain ⟨hshort, hask, hlast⟩ := h q hq
      simp only [Option.bind_eq_bind, Option.bind_some, Option.pure_def]
      rw [if_pos hshort, if_neg (not_lt.mpr hask), if_neg (not_lt.mpr (le_of_lt hshort)), if_neg (not_lt.mpr hlast)]

theorem filled_of_live {l : Leg} (h : l.live = true) : l.filled = true := by
  cases hst : l.state <;> simp_all [live, filled]

/-- The price carried by a leg that is held: its mark if it has one, and otherwise what it was bought for. -/
theorem carriedMark_of_live {l : Leg} (hlive : l.live = true) (hmark : 0 ≤ l.lastMark) :
    l.carriedMark = if l.lastMarkTs ≠ 0 then l.lastMark else l.entry := by
  unfold carriedMark
  by_cases hts : l.lastMarkTs ≠ 0
  · rw [if_pos ⟨hts, hmark⟩, if_pos hts]
  · rw [if_neg (fun h => hts h.1), if_pos (filled_of_live hlive), if_neg hts]

/-- **Reading what was written.** After a refresh a live leg is valued at the mark it carries. -/
theorem markFor_refreshMark {l : Leg} {market : MarketView} (hnow : market.now ≠ 0) (hlive : l.live = true) :
    (Portfolio.refreshMark market l).markFor market = (Portfolio.refreshMark market l).carriedMark := by
  cases hm : l.quotedMark market with
  | none =>
      rw [refreshMark_of_not_marked (by simp [marked, hm]), markFor_eq, hm]
      rfl
  | some m =>
      rw [refreshMark_of_marked hlive hm]
      generalize hl' : ({ l with lastMark := m, lastMarkTs := market.now } : Leg) = l'
      have hquoted : l'.quotedMark market = some m := by
        rw [← hm, ← hl']
        rfl
      have hcarried : l'.carriedMark = m := by
        rw [← hl']
        exact if_pos ⟨hnow, quotedMark_nonneg hm⟩
      rw [markFor_eq, hquoted, hcarried]
      rfl

/-- A leg that is held is worth its mark, less its entry. -/
theorem pnl_of_mark {l : Leg} {market : MarketView} {m : Price} (hlive : l.live = true)
    (hmark : l.markFor market = m) (hm : 0 ≤ m) : l.pnl market = notional m l.qty - notional l.entry l.qty := by
  have hheld : l.state ≠ .Closed := by
    intro hst
    simp [live, hst] at hlive
  unfold pnl
  rw [filled_of_live hlive]
  simp only [Bool.not_true, Bool.false_eq_true, if_false, hheld, hmark, if_neg (not_lt.mpr hm)]

end Leg

variable {F : Type}

namespace Portfolio

/-! ## Frames -/

/-- Each leg keeps what `g` reads off it, and a new leg starts with what `g` reads off a blank one. -/
def Keeps {α : Type} (g : Leg → α) (p p' : Portfolio F) : Prop :=
  ∀ id i, (p'.leg? id i).map g = (p.leg? id i).map g ∨ (p.leg? id i = none ∧ (p'.leg? id i).map g = some (g {}))

namespace Keeps

variable {α : Type} {g : Leg → α}

theorem refl (p : Portfolio F) : Keeps g p p := fun _ _ => .inl rfl

theorem trans {p q r : Portfolio F} (h : Keeps g p q) (h' : Keeps g q r) : Keeps g p r := by
  intro id i
  rcases h id i with hsame | ⟨hnone, hnew⟩
  · rcases h' id i with hsame' | ⟨hnone', hnew'⟩
    · exact .inl (hsame'.trans hsame)
    · rw [hnone', Option.map_none, eq_comm, Option.map_eq_none_iff] at hsame
      exact .inr ⟨hsame, hnew'⟩
  · rcases h' id i with hsame' | ⟨hnone', _⟩
    · exact .inr ⟨hnone, hsame'.trans hnew⟩
    · rw [hnone'] at hnew
      cases hnew

/-- No leg is lost. -/
theorem leg {p p' : Portfolio F} (h : Keeps g p p') {id : PositionId} {i : Nat} {l : Leg}
    (hl : p.leg? id i = some l) : ∃ l', p'.leg? id i = some l' ∧ g l' = g l := by
  rcases h id i with hsame | ⟨hnone, _⟩
  · rw [hl, Option.map_some, Option.map_eq_some_iff] at hsame
    exact hsame
  · rw [hl] at hnone
    cases hnone

/-- What holds of every leg, and of a blank one, holds of every leg afterwards. -/
theorem all {p p' : Portfolio F} (h : Keeps g p p') (P : α → Prop) (hblank : P (g {}))
    (hp : ∀ id i l, p.leg? id i = some l → P (g l)) : ∀ id i l, p'.leg? id i = some l → P (g l) := by
  intro id i l' hl'
  rcases h id i with hsame | ⟨_, hnew⟩
  · rw [hl', Option.map_some, eq_comm, Option.map_eq_some_iff] at hsame
    obtain ⟨l, hl, heq⟩ := hsame
    rw [← heq]
    exact hp id i l hl
  · rw [hl', Option.map_some, Option.some.injEq] at hnew
    rw [hnew]
    exact hblank

/-- Queues, counters, rules and records are no part of a leg. -/
theorem of_positions {p q : Portfolio F} (h : q.positions = p.positions) : Keeps g p q := by
  intro id i
  rw [leg?_congr h]
  exact .inl rfl

theorem modifyLeg (p : Portfolio F) (id : PositionId) (i : Nat) {f : Leg → Leg} (hf : ∀ l, g (f l) = g l) :
    Keeps g p (p.modifyLeg id i f) := by
  intro id' i'
  rw [leg?_modifyLeg]
  by_cases hs : id' = id ∧ i' = i
  · obtain ⟨rfl, rfl⟩ := hs
    rw [if_pos ⟨rfl, rfl⟩, Option.map_map]
    refine .inl (congrArg (fun k => (p.leg? id' i').map k) ?_)
    funext l
    exact hf l
  · rw [if_neg hs]
    exact .inl rfl

theorem addPosition (p : Portfolio F) (label : String) :
    Keeps g p { p with positions := p.positions ++ [{ id := p.positions.length, label := label }] } := by
  intro id i
  rw [leg?_addPosition]
  exact .inl rfl

theorem openLeg (hg : ∀ inst qty, g { instrument := inst, qty := qty, state := .PendingOpen } = g {})
    (id : PositionId) (side : Side) (qty : Qty) (now : Timestamp) (p : Portfolio F) (inst : InstrumentId) :
    Keeps g p (Portfolio.openLeg id side qty now p inst) := by
  cases hpos : p.positions[id]? with
  | none =>
      refine of_positions ?_
      rw [List.getElem?_eq_none_iff] at hpos
      simp only [Portfolio.openLeg, Portfolio.submit]
      exact List.modify_eq_self hpos
  | some pos =>
      intro id' i'
      rw [leg?_openLeg side qty now inst hpos]
      by_cases hs : id' = id ∧ i' = pos.legs.length
      · obtain ⟨rfl, rfl⟩ := hs
        rw [if_pos ⟨rfl, rfl⟩, leg?_of_position hpos, List.getElem?_eq_none (Nat.le_refl _)]
        exact .inr ⟨rfl, congrArg some (hg _ _)⟩
      · rw [if_neg hs]
        exact .inl rfl

end Keeps

/-! ### Marks -/

/-- What only a refresh writes. -/
def markOf (l : Leg) : Price × Timestamp := (l.lastMark, l.lastMarkTs)

theorem submitOpen_marks {p p' : Portfolio F} {label : String} {instruments : List InstrumentId} {side : Side}
    {qty : Qty} {now : Timestamp} {id : PositionId}
    (h : p.submitOpen label instruments side qty now = .ok (p', id)) : Keeps markOf p p' := by
  unfold submitOpen at h
  split_ifs at h
  cases h
  exact Run.foldl_inv (Keeps markOf p) instruments (fun q inst _ hq => hq.trans (.openLeg (fun _ _ => rfl) _ side qty now q inst))
    (.addPosition p label)

theorem submitCloseLeg_marks {p p' : Portfolio F} {id : PositionId} {i : Nat} {now : Timestamp}
    (h : p.submitCloseLeg id i now = .ok p') : Keeps markOf p p' := by
  obtain ⟨pos, _, h⟩ := Run.bind_eq_ok.mp h
  split at h
  · cases h
  · split at h
    · cases h
      exact .refl p
    · cases h
      exact .modifyLeg p id i (fun _ => rfl)

theorem cancelOpening_marks (id : PositionId) (p : Portfolio F) (o : PendingOrder) :
    Keeps markOf p (cancelOpening id p o) := by
  unfold cancelOpening
  split_ifs
  · exact .modifyLeg p id o.legIndex (fun _ => rfl)
  · exact .of_positions rfl

theorem submitClose_marks {p p' : Portfolio F} {id : PositionId} {now : Timestamp}
    (h : p.submitClose id now = .ok p') : Keeps markOf p p' := by
  obtain ⟨pos, _, h⟩ := Run.bind_eq_ok.mp h
  refine Run.foldlM_inv (Keeps markOf p) ?_ _ _ _ ?_ h
  · intro q i q' hq hstep
    unfold closeIfOpen at hstep
    split at hstep
    · split_ifs at hstep
      · exact hq.trans (submitCloseLeg_marks hstep)
      · cases hstep
        exact hq
    · cases hstep
      exact hq
  · exact Run.foldl_inv (Keeps markOf p) p.pending (fun q o _ hq => hq.trans (cancelOpening_marks id q o))
      (.of_positions rfl)

theorem abandonOrder_marks (acc : Portfolio F × List PositionId) (o : PendingOrder) :
    Keeps markOf acc.1 (abandonOrder acc o).1 := by
  obtain ⟨p, abandoned⟩ := acc
  unfold abandonOrder
  dsimp only
  split
  · exact .of_positions rfl
  · split_ifs
    · exact .modifyLeg p _ _ (fun _ => rfl)
    · exact .of_positions rfl
    · exact .modifyLeg p _ _ (fun _ => rfl)
    · exact .of_positions rfl

theorem cancelWorkingOrders_marks {p p' : Portfolio F} {n : Nat} (h : p.cancelWorkingOrders = .ok (p', n)) :
    Keeps markOf p p' := by
  have hloop : Keeps markOf p (p.pending.foldl abandonOrder ({ p with pending := [] }, [])).1 :=
    Run.foldl_inv (fun acc : Portfolio F × List PositionId => Keeps markOf p acc.1) p.pending
      (fun acc o _ hacc => hacc.trans (abandonOrder_marks acc o)) (.of_positions rfl)
  obtain ⟨rules, _, h⟩ := Run.bind_eq_ok.mp h
  cases h
  exact hloop.trans (.of_positions rfl)

theorem dropIfExpired_marks {market : MarketView} {expiry : Date} {p p' : Portfolio F} {o : PendingOrder}
    (h : dropIfExpired market expiry p o = .ok p') : Keeps markOf p p' := by
  obtain ⟨spec, _, h⟩ := Run.bind_eq_ok.mp h
  split_ifs at h
  · split at h
    · split_ifs at h
      · cases h
        exact .modifyLeg p _ _ (fun _ => rfl)
      · cases h
        exact .of_positions rfl
    · cases h
      exact .of_positions rfl
  · cases h
    exact .of_positions rfl

variable [Double F]

theorem processRule_marks {market : MarketView} {p p' : Portfolio F} {k : Nat}
    (h : processRule market p k = .ok p') : Keeps markOf p p' := by
  obtain rfl | ⟨rule, pos, _, _, _, ⟨rfl, _⟩ | ⟨_, _, hfire⟩⟩ := processRule_cases h
  · exact .refl p'
  · exact .of_positions rfl
  · obtain ⟨q, hclose, rfl⟩ := fireRule_eq_ok.mp hfire
    have hstart : Keeps markOf p (p.startRule k) := .of_positions rfl
    have hcloses : Keeps markOf (p.startRule k) q := by
      unfold closeScope at hclose
      split at hclose
      · exact submitCloseLeg_marks hclose
      · exact submitClose_marks hclose
    exact (hstart.trans hcloses).trans (.of_positions rfl)

theorem processOrder_marks {market : MarketView} {p p' : Portfolio F} {o : PendingOrder}
    (h : processOrder market p o = .ok p') : Keeps markOf p p' := by
  obtain rfl | ⟨q, price, spec, _, _, _, _, rfl⟩ := processOrder_cases h
  · exact .of_positions rfl
  · refine .trans ?_ (.of_positions (fillOrder_positions p spec o q price market.now))
    refine .modifyLeg p o.position o.legIndex (fun l => ?_)
    unfold executed
    split_ifs <;> rfl

theorem settleIfDue_marks {market : MarketView} {expiry : Date} {level : F} {now : Timestamp} {p p' : Portfolio F}
    {slot : PositionId × Nat} (h : settleIfDue market expiry level now p slot = .ok p') : Keeps markOf p p' := by
  unfold settleIfDue at h
  split at h
  · cases h
    exact .refl p
  · split_ifs at h
    · cases h
      exact .refl p
    · obtain ⟨spec, _, h⟩ := Run.bind_eq_ok.mp h
      split_ifs at h
      · cases h
        exact .refl p
      · cases h
        exact .modifyLeg p slot.1 slot.2 (fun _ => rfl)

/-- **Only a refresh writes marks.** -/
theorem apply_marks {p p' : Portfolio F} {op : Op F} (hop : ∀ market, op ≠ .refreshMarks market)
    (h : p.apply op = .ok p') : Keeps markOf p p' := by
  cases op with
  | submitOpen label instruments side qty now =>
      obtain ⟨id, h⟩ := fst_map_eq_ok h
      exact submitOpen_marks h
  | submitClose id now => exact submitClose_marks h
  | submitCloseLeg id i now => exact submitCloseLeg_marks h
  | attachStopLoss id leg pct =>
      obtain ⟨_, rule, _, _, _, rfl⟩ := attachStopLoss_cases h
      exact .of_positions rfl
  | attachTakeProfit id leg pct =>
      obtain ⟨_, rule, _, _, _, rfl⟩ := attachTakeProfit_cases h
      exact .of_positions rfl
  | attachExitAt id leg when_ =>
      obtain ⟨_, rule, _, _, _, rfl⟩ := attachExitAt_cases h
      exact .of_positions rfl
  | processRiskRules market =>
      exact Run.foldlM_inv (Keeps markOf p) (fun _ _ _ hq hstep => hq.trans (processRule_marks hstep)) _ _ _
        (.refl p) h
  | processPending market =>
      have hstart : Keeps markOf p { p with pending := [] } := .of_positions rfl
      exact Run.foldlM_inv (Keeps markOf p) (fun _ _ _ hq hstep => hq.trans (processOrder_marks hstep)) _ _ _
        hstart h
  | refreshMarks market => exact absurd rfl (hop market)
  | settleExpiry market expiry level now =>
      obtain ⟨n, h⟩ := fst_map_eq_ok h
      obtain ⟨p₁, hsettle, h⟩ := Run.bind_eq_ok.mp h
      obtain ⟨p₂, hdrop, h⟩ := Run.bind_eq_ok.mp h
      cases h
      have hsettled := Run.foldlM_inv (Keeps markOf p)
        (fun _ _ _ hq hstep => hq.trans (settleIfDue_marks hstep)) _ _ _ (.refl p) hsettle
      have hstart : Keeps markOf p₁ { p₁ with pending := [] } := .of_positions rfl
      exact Run.foldlM_inv (Keeps markOf p) (fun _ _ _ hq hstep => hq.trans (dropIfExpired_marks hstep)) _ _ _
        (hsettled.trans hstart) hdrop
  | cancelWorkingOrders =>
      obtain ⟨n, h⟩ := fst_map_eq_ok h
      exact cancelWorkingOrders_marks h

/-! ## Holdings -/

/-- What is held, and what it was bought or sold for. -/
def holdingOf (l : Leg) : InstrumentId × Qty × Price := (l.instrument, l.qty, l.entry)

/-- A leg that has filled stays filled, and what is held stays the same. -/
theorem Move.holding {c : Scope} {p p' : Portfolio F} (hmat : Matched c.expired p) (hm : Move c p p')
    {id : PositionId} {i : Nat} {leg : Leg} (hleg : p.leg? id i = some leg) (hfilled : leg.filled = true) :
    ∃ leg', p'.leg? id i = some leg' ∧ leg'.filled = true ∧ holdingOf leg' = holdingOf leg := by
  obtain ⟨leg', hleg', hstep⟩ := hm.leg_step hmat hleg
  have hstays : leg'.filled = true := by
    have hnext := hstep.next
    unfold Leg.filled at hfilled ⊢
    generalize leg.state = s at hfilled hnext
    generalize leg'.state = s' at hnext ⊢
    cases hnext <;> simp_all
  have hentry : leg'.entry = leg.entry := by
    have hkeeps : Keeps Leg.entry p p' → leg'.entry = leg.entry := by
      intro hkeeps
      obtain ⟨leg'', hleg'', hentry⟩ := hkeeps.leg hleg
      rw [hleg'] at hleg''
      cases hleg''
      exact hentry
    cases hm with
    | position label => exact hkeeps (.addPosition p label)
    | opens => exact hkeeps (.openLeg (fun _ _ => rfl) _ _ _ _ p _)
    | exits => exact hkeeps (.modifyLeg p _ _ fun _ => rfl)
    | @fills before after o q price spec hidle hpend _ _ _ =>
        rw [leg?_fillOrder, withPending_leg?, withPending_leg?] at hleg'
        by_cases hs : id = o.position ∧ i = o.legIndex
        · obtain ⟨rfl, rfl⟩ := hs
          rw [if_pos ⟨rfl, rfl⟩, hleg, Option.map_some, Option.some.injEq] at hleg'
          cases hclosing : o.closing with
          | true =>
              rw [← hleg']
              simp [executed, hclosing]
          | false =>
              -- an opening order is queued for a leg that has not filled
              obtain ⟨leg₀, hleg₀, _, hst, _⟩ := hmat.opening (o := o) (by simp [hpend]) hclosing
              rw [hleg] at hleg₀
              cases hleg₀
              simp [Leg.filled, hst] at hfilled
        · rw [if_neg hs, hleg] at hleg'
          cases hleg'
          rfl
    | @withdraws before after o => exact hkeeps (.modifyLeg (p.withPending (before ++ after)) _ _ fun _ => rfl)
    | @abandons before after o => exact hkeeps (.modifyLeg (p.withPending (before ++ after)) _ _ fun _ => rfl)
    | settles => exact hkeeps (.modifyLeg p _ _ fun _ => rfl)
    | drops => exact hkeeps (.of_positions rfl)
    | marks f hf =>
        rw [leg?_marks, hleg, Option.map_some, Option.some.injEq] at hleg'
        obtain ⟨m, t, heq⟩ := hf leg
        rw [← hleg', heq]
    | rules => exact hkeeps (.of_positions rfl)
  refine ⟨leg', hleg', hstays, ?_⟩
  unfold holdingOf
  rw [hstep.instrument, hstep.qty, hentry]

theorem Moves.holding {c : Scope} {p p' : Portfolio F} (hmat : Matched c.expired p) (hm : Moves c p p')
    {id : PositionId} {i : Nat} {leg : Leg} (hleg : p.leg? id i = some leg) (hfilled : leg.filled = true) :
    ∃ leg', p'.leg? id i = some leg' ∧ leg'.filled = true ∧ holdingOf leg' = holdingOf leg := by
  have hinv := hm.inv (fun q => Matched c.expired q ∧
    ∃ l, q.leg? id i = some l ∧ l.filled = true ∧ holdingOf l = holdingOf leg) ?_ ⟨hmat, leg, hleg, hfilled, rfl⟩
  · exact hinv.2
  · rintro q q' ⟨hq, l, hl, hlfilled, hsame⟩ hmove
    obtain ⟨l', hl', hlfilled', hsame'⟩ := hmove.holding hq hl hlfilled
    exact ⟨hq.move hmove, l', hl', hlfilled', hsame'.trans hsame⟩

/-- An operation leaves what is held as it was. -/
theorem apply_holding {p p' : Portfolio F} {op : Op F} (hmat : Matched noneExpired p) (h : p.apply op = .ok p')
    {id : PositionId} {i : Nat} {leg : Leg} (hleg : p.leg? id i = some leg) (hfilled : leg.filled = true) :
    ∃ leg', p'.leg? id i = some leg' ∧ leg'.filled = true ∧ holdingOf leg' = holdingOf leg :=
  (apply_moves hmat h).1.holding hmat.mono hleg hfilled

/-! ## Marks along a run -/

/-- The operation does not set the mark of the leg. -/
def LeavesMark (id : PositionId) (i : Nat) (p : Portfolio F) (op : Op F) : Prop :=
  ∀ market, op = .refreshMarks market → ∀ leg, p.leg? id i = some leg → leg.marked market = false

/-- The leg is there, has filled, and holds and carries what `leg` did. -/
def Carrying (id : PositionId) (i : Nat) (leg : Leg) (p : Portfolio F) : Prop :=
  ∃ leg', p.leg? id i = some leg' ∧ leg'.filled = true ∧ holdingOf leg' = holdingOf leg ∧ markOf leg' = markOf leg

omit [Double F] in
theorem refreshMarks_leg (p : Portfolio F) (market : MarketView) (id : PositionId) (i : Nat) :
    (p.refreshMarks market).leg? id i = (p.leg? id i).map (refreshMark market) :=
  leg?_marks p (refreshMark market) id i

theorem apply_refreshMarks (p : Portfolio F) (market : MarketView) :
    p.apply (.refreshMarks market) = .ok (p.refreshMarks market) := rfl

/-- One operation. -/
theorem Carrying.apply {p p' : Portfolio F} {op : Op F} {id : PositionId} {i : Nat} {leg : Leg}
    (h : Carrying id i leg p) (hmat : Matched noneExpired p) (hleaves : LeavesMark id i p op)
    (hop : p.apply op = .ok p') : Carrying id i leg p' := by
  obtain ⟨l, hl, hfilled, hholds, hmark⟩ := h
  obtain ⟨l', hl', hfilled', hsame⟩ := apply_holding hmat hop hl hfilled
  refine ⟨l', hl', hfilled', hsame.trans hholds, ?_⟩
  by_cases hrefresh : ∃ market, op = .refreshMarks market
  · obtain ⟨market, rfl⟩ := hrefresh
    cases hop
    rw [refreshMarks_leg, hl, Option.map_some, Leg.refreshMark_of_not_marked (hleaves market rfl l hl)] at hl'
    cases hl'
    exact hmark
  · obtain ⟨l'', hl'', hkept⟩ := apply_marks (fun market heq => hrefresh ⟨market, heq⟩) hop |>.leg hl
    rw [hl'] at hl''
    cases hl''
    exact hkept.trans hmark

/-- **Along a run.** What a leg carries stays as it is until a refresh sets its mark again. -/
theorem Carrying.run {p q : Portfolio F} {id : PositionId} {i : Nat} {leg : Leg} {ops : List (Op F)}
    (h : Carrying id i leg p) (hmat : Matched noneExpired p)
    (hleaves : Run.Along Portfolio.apply (LeavesMark id i) p ops) (hrun : ops.foldlM Portfolio.apply p = .ok q) : Carrying id i leg q := by
  refine (Run.along_inv (fun r => Matched noneExpired r ∧ Carrying id i leg r) ?_ ops p q ⟨hmat, h⟩ hleaves hrun).2
  rintro r op r' ⟨hr, hcarries⟩ hleave hop
  exact ⟨(apply_moves hr hop).2, hcarries.apply hr hleave hop⟩

/-- No leg carries a negative mark. -/
def MarksSound (p : Portfolio F) : Prop := ∀ id i leg, p.leg? id i = some leg → 0 ≤ leg.lastMark

theorem MarksSound.apply {p p' : Portfolio F} {op : Op F} (h : MarksSound p) (hop : p.apply op = .ok p') :
    MarksSound p' := by
  by_cases hrefresh : ∃ market, op = .refreshMarks market
  · obtain ⟨market, rfl⟩ := hrefresh
    cases hop
    intro id i leg' hleg'
    rw [refreshMarks_leg, Option.map_eq_some_iff] at hleg'
    obtain ⟨leg, hleg, rfl⟩ := hleg'
    cases hmarked : leg.marked market with
    | false =>
        rw [Leg.refreshMark_of_not_marked hmarked]
        exact h id i leg hleg
    | true =>
        obtain ⟨hlive, hsome⟩ := Bool.and_eq_true_iff.mp hmarked
        obtain ⟨m, hm⟩ := Option.isSome_iff_exists.mp hsome
        rw [Leg.refreshMark_of_marked hlive hm]
        exact Leg.quotedMark_nonneg hm
  · exact (apply_marks (fun market heq => hrefresh ⟨market, heq⟩) hop).all (fun m => 0 ≤ m.1) (le_refl 0) h

theorem Reachable.marksSound {fills : FillModel F} {delay : Int} {costs : CostPolicy} {p : Portfolio F}
    (h : Reachable fills delay costs p) : MarksSound p := by
  refine h.inv MarksSound ?_ (fun _ _ _ hp hs => hp.apply hs)
  intro id i leg hleg
  simp [leg?, empty] at hleg

/-! ## Main result -/

/-- **The carried mark and the live mark agree.** In every reachable state no leg carries a negative mark.
    Right after a refresh each live leg is valued at the mark it carries, if one was ever taken, and else at its
    entry. From a refresh that set the mark of a leg up to the next one that does, the leg is worth what it was
    worth at that refresh whenever nothing is quoted for it. -/
theorem carried_mark_agrees {fills : FillModel F} {delay : Int} {costs : CostPolicy} {p : Portfolio F}
    (h : Reachable fills delay costs p) :
    (∀ id i leg, p.leg? id i = some leg → 0 ≤ leg.lastMark) ∧
    ∀ market : MarketView, market.now ≠ 0 →
      (∀ id i leg, (p.refreshMarks market).leg? id i = some leg → leg.live = true →
        leg.markFor market = if leg.lastMarkTs ≠ 0 then leg.lastMark else leg.entry) ∧
      ∀ id i leg₀, p.leg? id i = some leg₀ → leg₀.marked market = true →
        ∃ leg, (p.refreshMarks market).leg? id i = some leg ∧ leg.lastMarkTs = market.now ∧
          leg.markFor market = leg.lastMark ∧
          ∀ ops q, Run.Along apply (LeavesMark id i) (p.refreshMarks market) ops →
            ops.foldlM apply (p.refreshMarks market) = .ok q →
            ∀ leg' market', q.leg? id i = some leg' → leg'.live = true → leg'.Unquoted market' →
              leg'.pnl market' = leg.pnl market := by
  refine ⟨h.marksSound, fun market hnow => ⟨?_, ?_⟩⟩
  · intro id i leg hleg hlive
    have hrefreshed : MarksSound (p.refreshMarks market) := h.marksSound.apply (apply_refreshMarks p market)
    rw [← Leg.carriedMark_of_live hlive (hrefreshed id i leg hleg)]
    rw [refreshMarks_leg, Option.map_eq_some_iff] at hleg
    obtain ⟨l, hl, rfl⟩ := hleg
    exact Leg.markFor_refreshMark hnow (Leg.live_refreshMark market l ▸ hlive)
  · intro id i leg₀ hleg₀ hmarked
    obtain ⟨hlive₀, hsome⟩ := Bool.and_eq_true_iff.mp hmarked
    obtain ⟨m, hm⟩ := Option.isSome_iff_exists.mp hsome
    have hm₀ := Leg.quotedMark_nonneg hm
    have hmark := Leg.markFor_refreshMark hnow hlive₀
    rw [Leg.refreshMark_of_marked hlive₀ hm] at hmark
    have hleg : (p.refreshMarks market).leg? id i = some { leg₀ with lastMark := m, lastMarkTs := market.now } := by
      rw [refreshMarks_leg, hleg₀, Option.map_some, Leg.refreshMark_of_marked hlive₀ hm]
    generalize hl : ({ leg₀ with lastMark := m, lastMarkTs := market.now } : Leg) = leg at hleg hmark
    have hlive : leg.live = true := by
      rw [← hl]
      exact hlive₀
    have hmarkOf : markOf leg = (m, market.now) := by
      rw [← hl]
      rfl
    obtain ⟨rfl, hts⟩ := Prod.mk.inj hmarkOf
    rw [Leg.carriedMark_of_live hlive hm₀, if_pos (hts ▸ hnow)] at hmark
    refine ⟨leg, hleg, hts, hmark, ?_⟩
    intro ops q hleaves hrun leg' market' hleg' hlive' hunquoted
    -- the leg holds and carries what it did at the refresh
    have hmat : Matched noneExpired (p.refreshMarks market) := (apply_moves h.matched (apply_refreshMarks p market)).2
    obtain ⟨l, hl', _, hholds, hmarks⟩ :=
      Carrying.run ⟨leg, hleg, Leg.filled_of_live hlive, rfl, rfl⟩ hmat hleaves hrun
    rw [hleg', Option.some.injEq] at hl'
    subst hl'
    obtain ⟨_, hrest⟩ := Prod.mk.inj hholds
    obtain ⟨hqty, hentry⟩ := Prod.mk.inj hrest
    obtain ⟨hlast, hlastTs⟩ := Prod.mk.inj hmarks
    have hcarried : leg'.markFor market' = leg.lastMark := by
      rw [Leg.markFor_eq, Leg.quotedMark_of_unquoted hunquoted, Option.getD_none,
        Leg.carriedMark_of_live hlive' (hlast ▸ hm₀), if_pos (hlastTs ▸ hts ▸ hnow), hlast]
    rw [Leg.pnl_of_mark hlive' hcarried hm₀, Leg.pnl_of_mark hlive hmark hm₀, hqty, hentry]

/-- The next open: nothing is quoted yet. -/
def quietOpen : MarketView := { quotedMarket with now := 20, quote := fun _ _ => none, hasQuote := fun _ => false }

/-- Two bought at 105 and marked at 100 are down 10 at the next open too. -/
theorem carried_mark_agrees_bought :
    ∃ (p : Portfolio ℚ) (leg : Leg),
      [Op.submitOpen "long" [0] .Buy 2 5, .processPending quotedMarket, .refreshMarks quotedMarket].foldlM apply
        (empty crossSpreadFill 1 noCosts) = .ok p ∧
      p.leg? 0 0 = some leg ∧ leg.pnl quietOpen = leg.pnl quotedMarket ∧ leg.pnl quotedMarket = -10 := by
  have hrun : [Op.submitOpen "long" [0] .Buy 2 5, .processPending quotedMarket].foldlM apply
      (empty (crossSpreadFill (F := ℚ)) 1 noCosts) = .ok _ := rfl
  obtain ⟨leg, hleg, _, _, hcarry⟩ :=
    ((carried_mark_agrees (.of_run .init hrun)).2 quotedMarket (by decide)).2 0 0 _ rfl rfl
  have hsame := hcarry [] _ trivial rfl leg quietOpen hleg
  cases hleg
  exact ⟨_, _, rfl, rfl, hsame rfl nofun, rfl⟩

end Portfolio

end Volforge
