import Volforge.Core.Correctness.Crossings
import Volforge.Core.Correctness.Erasure
import Volforge.Core.Correctness.Rules
import Volforge.Core.Correctness.Sessions
import Volforge.Core.Correctness.Truncation
import Volforge.Lib.Indexed

/-!
# `Core.Correctness.OneDay` — the two run loops on one day

`run_session` and `run_backtest` step through a session with the same loop written twice, and only the second
refreshes the carried marks. Over one day the first engine is the second one with its marks erased
(`Engine.Follows`), as long as no valuation falls back on a mark: each short leg that is held has an offer or a
last price whenever it is quoted.

## Contents
- **Contexts.** `Ctx.Unmarked`: what the strategy is shown by the one loop and by the other.
- **Strategies** that cannot tell the two apart, and the conditions of the source that cannot.
- **Lock step.** One lemma for each thing the engine does.
- **The bell.** Where nothing is due the end of a session changes neither trades nor money.
- **Main result.** `one_day_loops_agree`.
-/

namespace Volforge

variable {F : Type} [Double F] {σ : Type}

open Portfolio

/-! ## Contexts -/

/-- `c` is `d` outside a multi-session run and without carried marks, and every leg is worth the same. -/
structure Ctx.Unmarked (c d : Ctx F) : Prop where
  rest : c = { d with portfolio := d.portfolio.eraseMarks, calendar := c.calendar }
  valued : d.portfolio.Valued d.market

namespace Ctx.Unmarked

variable {c d : Ctx F}

omit [Double F] in
theorem market (h : c.Unmarked d) : c.market = d.market := by rw [h.rest]

omit [Double F] in
theorem portfolio (h : c.Unmarked d) : c.portfolio = d.portfolio.eraseMarks := by rw [h.rest]

omit [Double F] in
theorem now (h : c.Unmarked d) : c.now = d.now := congrArg MarketView.now h.market

omit [Double F] in
theorem date (h : c.Unmarked d) : c.date = d.date := by rw [h.rest]

omit [Double F] in
theorem utcOffset (h : c.Unmarked d) : c.utcOffset = d.utcOffset := by rw [h.rest]

omit [Double F] in
theorem atId (h : c.Unmarked d) (id : PositionId) :
    c.portfolio.atId id = Position.eraseMarks <$> d.portfolio.atId id := by
  rw [h.portfolio]
  exact atId_eraseMarks d.portfolio id

/-- Margin is computed from what is held and quoted. -/
theorem marginNow (h : c.Unmarked d) : c.marginNow = d.marginNow := by
  have hlegs : c.portfolio.positions.flatMap (·.legs) =
      (d.portfolio.positions.flatMap (·.legs)).map Leg.eraseMark := by
    rw [h.portfolio, eraseMarks_positions, List.flatMap_map, List.map_flatMap]
    rfl
  have hleg : ∀ acc l, c.addMarginLeg acc l.eraseMark = d.addMarginLeg acc l := by
    intro acc l
    rw [h.rest]
    rfl
  have hgroup : c.addRequirement = d.addRequirement := by
    rw [h.rest]
    rfl
  unfold Ctx.marginNow
  rw [hlegs, List.foldlM_map, hgroup]
  simp only [hleg]

omit [Double F] in
theorem openPosition (h : c.Unmarked d) (side : Side) (legs : List InstrumentId) (lots : Int) (label : String) :
    c.openPosition side legs lots label =
      (fun x => (x.1.eraseMarks, x.2)) <$> d.openPosition side legs lots label := by
  unfold Ctx.openPosition Ctx.registry
  rw [h.portfolio, h.now, h.market]
  split_ifs
  · rfl
  · cases Ctx.contractsFor d.market.registry legs lots with
    | error err => rfl
    | ok qty =>
        simp only [Run.ok_bind]
        rw [submitOpen_eraseMarks]
        cases d.portfolio.submitOpen label legs side qty d.now <;> rfl

/-- **A command** changes the portfolio without marks as it changes the one with them. -/
theorem submit (h : c.Unmarked d) (cmd : Command F) :
    cmd.submit c = (fun x => (x.1.eraseMarks, x.2)) <$> cmd.submit d := by
  cases cmd with
  | sell legs lots label => exact h.openPosition .Sell legs lots label
  | buy legs lots label => exact h.openPosition .Buy legs lots label
  | close id =>
      unfold Command.submit
      dsimp only
      rw [h.portfolio, h.now, submitClose_eraseMarks]
      cases d.portfolio.submitClose id d.now <;> rfl
  | closeLeg id i =>
      unfold Command.submit
      dsimp only
      rw [h.portfolio, h.now, submitCloseLeg_eraseMarks]
      cases d.portfolio.submitCloseLeg id i d.now <;> rfl
  | stopLoss id leg pct =>
      unfold Command.submit
      dsimp only
      rw [h.portfolio, attachStopLoss_eraseMarks]
      cases d.portfolio.attachStopLoss id leg pct <;> rfl
  | takeProfit id leg pct =>
      unfold Command.submit
      dsimp only
      rw [h.portfolio, attachTakeProfit_eraseMarks]
      cases d.portfolio.attachTakeProfit id leg pct <;> rfl
  | exitAtOn id date hhmm =>
      unfold Command.submit
      dsimp only
      cases parseTimeOfDay hhmm with
      | error err => rfl
      | ok sod =>
          simp only [Run.ok_bind]
          rw [h.portfolio, attachExitAt_eraseMarks]
          cases d.portfolio.attachExitAt id none (timestampOf date sod kISTOffsetSeconds) <;> rfl
  | bars id intervalSeconds source => exact congrArg (fun p => Except.ok (p, none)) h.portfolio

end Ctx.Unmarked

/-! ## Strategies -/

/-- Two conditions that hold alike in related contexts. -/
structure Cond.Like (A : Ctx F → Ctx F → Prop) (a b : Cond F) : Prop where
  valid : a.valid = b.valid
  eval : ∀ c d, A c d → a.eval c = b.eval d

/-- Two stretches of code that go the same way in related contexts. `R` relates what they remember over a
    suspension. -/
inductive Script.Like (A : Ctx F → Ctx F → Prop) (R : σ → σ → Prop) : Script F σ → Script F σ → Prop where
  | look {k k'} (h : ∀ c d, A c d → Like A R (k c) (k' d)) : Like A R (.look k) (.look k')
  | order (cmd : Command F) {k k'} (h : ∀ reply, Like A R (k reply) (k' reply)) :
      Like A R (.order cmd k) (.order cmd k')
  | await {cond cond' s s'} (hcond : cond.Like A cond') (hs : R s s') : Like A R (.await cond s) (.await cond' s')
  | finish : Like A R .finish .finish
  | throw_ (e : Error) : Like A R (.throw_ e) (.throw_ e)

/-- Two strategies wait alike. -/
inductive Task.Like (A : Ctx F → Ctx F → Prop) (R : σ → σ → Prop) : Task F σ → Task F σ → Prop where
  | suspended {cond cond' s s'} (hcond : cond.Like A cond') (hs : R s s') :
      Like A R (.suspended cond s) (.suspended cond' s')
  | done : Like A R .done .done

/-- **A strategy that does not read marks or the calendar** goes the same way whether it is shown them or not. It
    may read what its positions are worth. -/
def Strategy.Unmarked (strategy : Strategy F) : Prop :=
  ∃ R : strategy.State → strategy.State → Prop, strategy.start.Like Ctx.Unmarked R strategy.start ∧
    ∀ s s', R s s' → (strategy.resume s).Like Ctx.Unmarked R (strategy.resume s')

omit [Double F] in
theorem unmarked_atOrAfter (t : Timestamp) : (atOrAfter t : Cond F).Like Ctx.Unmarked (atOrAfter t) where
  valid := rfl
  eval c d h := by
    show Except.ok (decide (t ≤ c.now)) = Except.ok (decide (t ≤ d.now))
    rw [h.now]

omit [Double F] in
/-- A time of day that has not passed needs no calendar. -/
theorem Ctx.Unmarked.at_ {c d : Ctx F} (h : c.Unmarked d) {hhmm : Bytes} {sod : Int} (hsod : parseTimeOfDay hhmm = .ok sod)
    (hfuture : c.now < timestampOf c.date sod c.utcOffset) : c.at_ hhmm = d.at_ hhmm := by
  have hfuture' : d.now < timestampOf d.date sod d.utcOffset := by
    rw [← h.now, ← h.date, ← h.utcOffset]
    exact hfuture
  unfold Ctx.at_
  rw [hsod, Run.ok_bind, Run.ok_bind]
  dsimp only
  rw [if_pos hfuture, if_pos hfuture', h.date, h.utcOffset]

theorem unmarked_pnlPctAtMost (id : PositionId) (pct : F) :
    (Ctx.pnlPctAtMost id pct).Like Ctx.Unmarked (Ctx.pnlPctAtMost id pct) where
  valid := rfl
  eval c d h := by
    show (do let p ← c.portfolio.atId id; return p.established && Double.le (p.pnlPct c.market) pct) =
      (do let p ← d.portfolio.atId id; return p.established && Double.le (p.pnlPct d.market) pct)
    rw [h.atId, h.market]
    cases hat : d.portfolio.atId id with
    | error err => rfl
    | ok pos =>
        rw [Except.map_ok, Run.ok_bind, Run.ok_bind, Position.eraseMarks_established,
          Position.eraseMarks_pnlPct (h.valued.position (atId_eq_ok.mp hat))]

omit [Double F] in
theorem unmarked_positionClosed (id : PositionId) :
    (Ctx.positionClosed id : Cond F).Like Ctx.Unmarked (Ctx.positionClosed id) where
  valid := rfl
  eval c d h := by
    show (do return (← c.portfolio.atId id).isClosed) = (do return (← d.portfolio.atId id).isClosed)
    rw [h.atId]
    cases d.portfolio.atId id with
    | error err => rfl
    | ok pos =>
        rw [Except.map_ok, Run.ok_bind, Run.ok_bind]
        unfold Position.isClosed
        rw [Position.eraseMarks_established, Position.eraseMarks_isOpen]

/-! ## The books -/

/-- The books of a run over one day: legs and orders match, an unfilled leg carries no mark, and what is held has
    printed and has an entry in the registry. -/
structure Ledger (session : SessionData) (now : Timestamp) (p : Portfolio F) : Prop where
  reachable : ∃ fills delay costs, Reachable fills delay costs p
  fresh : FreshLegs p
  printed : ∀ id i leg, p.leg? id i = some leg → leg.live = true → ∃ q, (session.view now).current leg.instrument = some q
  resolved : Resolved session.registry p

/-- Each short leg that is held has an offer or a last price, if its instrument is quoted. -/
def ShortsQuoted (market : MarketView) (p : Portfolio F) : Prop :=
  ∀ id i leg q, p.leg? id i = some leg → leg.live = true → leg.qty < 0 → market.current leg.instrument = some q →
    0 < q.ask ∨ 0 < q.last

omit [Double F] in
theorem ShortsQuoted.of_eraseMarks {market : MarketView} {p : Portfolio F} (h : ShortsQuoted market p.eraseMarks) :
    ShortsQuoted market p := by
  intro id i leg q hleg hlive hshort hq
  exact h id i leg.eraseMark q (by rw [leg?_eraseMarks, hleg]; rfl) hlive hshort hq

/-- What has printed has printed. -/
theorem SessionData.current_mono (s : SessionData) {now t : Timestamp} (hle : now ≤ t) {id : InstrumentId} {q : Quote}
    (hq : (s.view now).current id = some q) : ∃ q', (s.view t).current id = some q' := by
  obtain ⟨i, hi, _⟩ := QuoteColumns.quoteAt_zero_eq_some.mp (show (s.quotes id).quoteAt now 0 = some q from hq)
  rw [QuoteColumns.indexAtOrBefore_eq_some] at hi
  have hmono := (s.quotes id).upperBound_mono hle
  obtain ⟨k, hk⟩ := Nat.exists_eq_add_of_lt (lt_of_lt_of_le (Nat.succ_pos i) (hi ▸ hmono))
  exact ⟨_, QuoteColumns.quoteAt_zero_eq_some.mpr ⟨k, QuoteColumns.indexAtOrBefore_eq_some.mpr (by omega), rfl⟩⟩

/-- A leg that is quoted has a price, unless it is short and there is neither an offer nor a last price. -/
theorem Leg.quotedMark_isSome {l : Leg} {market : MarketView} {q : Quote} (hqty : l.qty ≠ 0)
    (hq : market.current l.instrument = some q) (hshort : l.qty < 0 → 0 < q.ask ∨ 0 < q.last) :
    (l.quotedMark market).isSome = true := by
  unfold Leg.quotedMark
  simp only [hq, Option.bind_eq_bind, Option.bind_some, Option.pure_def]
  by_cases hneg : l.qty < 0
  · rw [if_pos hneg, if_neg (not_lt.mpr (le_of_lt hneg))]
    split_ifs with hask hlast
    · rfl
    · rfl
    · exact absurd ((hshort hneg).resolve_left hask) hlast
  · rw [if_pos (lt_of_le_of_ne (not_lt.mp hneg) (Ne.symm hqty))]
    split_ifs <;> rfl

namespace Ledger

variable {session : SessionData} {now : Timestamp} {p p' : Portfolio F}

theorem matched (h : Ledger session now p) : Matched noneExpired p := by
  obtain ⟨_, _, _, hreach⟩ := h.reachable
  exact hreach.matched

theorem qty_ne_zero (h : Ledger session now p) {id : PositionId} {i : Nat} {leg : Leg} (hleg : p.leg? id i = some leg) :
    leg.qty ≠ 0 := by
  obtain ⟨_, _, _, hreach⟩ := h.reachable
  obtain ⟨o, _, _, _, hopens⟩ := hreach.wellKept.opened id i leg hleg
  have hpos := hopens.qty_pos
  rw [hopens.qty]
  split_ifs <;> lia

theorem advance (h : Ledger session now p) {t : Timestamp} (hle : now ≤ t) : Ledger session t p where
  reachable := h.reachable
  fresh := h.fresh
  printed id i leg hleg hlive := by
    obtain ⟨q, hq⟩ := h.printed id i leg hleg hlive
    exact session.current_mono hle hq
  resolved := h.resolved

/-- What trades nothing keeps the books. -/
theorem quiet (h : Ledger session now p) {t : Timestamp} (hquiet : Quiet t p p') (hfresh : FreshLegs p') :
    Ledger session now p' where
  reachable := by
    obtain ⟨fills, delay, costs, hreach⟩ := h.reachable
    exact ⟨fills, delay, costs, hreach.trans hquiet.reach⟩
  fresh := hfresh
  printed := by
    intro id i leg' hleg' hlive'
    obtain ⟨leg, hleg, hlive, hinst⟩ := hquiet.heldFrom h.matched id i leg' hleg' hlive'
    rw [← hinst]
    exact h.printed id i leg hleg hlive
  resolved := h.resolved.heldFrom (hquiet.heldFrom h.matched)

/-- **The queue** keeps the books. -/
theorem processPending (h : Ledger session now p) (hop : p.processPending (session.view now) = .ok p') :
    Ledger session now p' := by
  have happly : p.apply (.processPending (session.view now)) = .ok p' := hop
  obtain ⟨hm, hmat'⟩ := apply_moves h.matched happly
  refine ⟨?_, ?_, ?_, Resolved.processPending (session.view now) h.resolved h.matched hop⟩
  · obtain ⟨fills, delay, costs, hreach⟩ := h.reachable
    exact ⟨fills, delay, costs, hreach.step happly⟩
  · exact h.fresh.moves h.matched.mono hm (apply_marks (fun _ h => by cases h) happly)
  · intro id i leg' hleg' hlive'
    obtain ⟨leg, hleg, hlive, hinst⟩ | htraded := hm.held_or_traded h.matched.mono hleg' hlive'
    · rw [← hinst]
      exact h.printed id i leg hleg hlive
    · exact htraded

/-- **After the fills of a timestamp and the refresh** every leg is worth the same without its mark: one that was held
    has a price of its own, and one that has just filled had no mark. -/
theorem valued_of_quoted (h : Ledger session now p) (hquoted : ShortsQuoted (session.view now) p)
    (hop : p.processPending (session.view now) = .ok p') :
    (p'.refreshMarks (session.view now)).Valued (session.view now) := by
  have happly : p.apply (.processPending (session.view now)) = .ok p' := hop
  have hmarks : Keeps markOf p p' := apply_marks (fun _ h => by cases h) happly
  refine valued_refresh fun id i leg' hleg' hlive' => ?_
  rcases hmarks id i with hsame | ⟨_, hnew⟩
  · rw [hleg', Option.map_some, eq_comm, Option.map_eq_some_iff] at hsame
    obtain ⟨leg, hleg, hmark⟩ := hsame
    by_cases hfilled : leg.filled = true
    · -- held before the fills, so its instrument has printed and a short has something to be bought from
      obtain ⟨l, hl, _, hholds⟩ := apply_holding h.matched happly hleg hfilled
      rw [hleg'] at hl
      cases hl
      have hlive : leg.live = true := by
        refine Leg.live_of_filled hfilled fun hclosed => ?_
        obtain ⟨l, hl, hst⟩ := terminal_of_reach h.matched (.step .init happly) hleg (by rw [hclosed]; rfl)
        rw [hleg'] at hl
        cases hl
        simp [Leg.live, hst, hclosed] at hlive'
      obtain ⟨q, hq⟩ := h.printed id i leg hleg hlive
      obtain ⟨hinst, hrest⟩ := Prod.mk.inj hholds
      obtain ⟨hqty, _⟩ := Prod.mk.inj hrest
      refine .inl (Leg.quotedMark_isSome (q := q) ?_ ?_ ?_)
      · rw [hqty]
        exact h.qty_ne_zero hleg
      · rw [hinst]
        exact hq
      · rw [hqty]
        exact fun hshort => hquoted id i leg q hleg hlive hshort hq
    · rw [← hmark]
      exact .inr (h.fresh id i leg hleg (by simpa using hfilled))
  · rw [hleg', Option.map_some, Option.some.injEq] at hnew
    exact .inr hnew

end Ledger

/-! ## Lock step -/

/-- No command of the strategy writes marks. -/
theorem Command.submit_marks {c : Ctx F} {cmd : Command F} {p : Portfolio F} {r : Option Nat}
    (h : cmd.submit c = .ok (p, r)) : Keeps markOf c.portfolio p := by
  have hopen : ∀ side legs lots label, c.openPosition side legs lots label = .ok (p, r) → Keeps markOf c.portfolio p := by
    intro side legs lots label h
    unfold Ctx.openPosition at h
    split at h
    · cases h
      exact .refl _
    · obtain ⟨qty, _, h⟩ := Run.bind_eq_ok.mp h
      obtain ⟨⟨q, id⟩, hsubmit, h⟩ := Run.bind_eq_ok.mp h
      cases h
      exact submitOpen_marks hsubmit
  cases cmd with
  | sell legs lots label => exact hopen .Sell legs lots label h
  | buy legs lots label => exact hopen .Buy legs lots label h
  | close id =>
      obtain ⟨q, hq, h⟩ := Run.bind_eq_ok.mp h
      cases h
      exact submitClose_marks hq
  | closeLeg id i =>
      obtain ⟨q, hq, h⟩ := Run.bind_eq_ok.mp h
      cases h
      exact submitCloseLeg_marks hq
  | stopLoss id leg pct =>
      obtain ⟨q, hq, h⟩ := Run.bind_eq_ok.mp h
      cases h
      exact apply_marks (fun _ h => by cases h) (show c.portfolio.apply (.attachStopLoss id leg pct) = .ok p from hq)
  | takeProfit id leg pct =>
      obtain ⟨q, hq, h⟩ := Run.bind_eq_ok.mp h
      cases h
      exact apply_marks (fun _ h => by cases h) (show c.portfolio.apply (.attachTakeProfit id leg pct) = .ok p from hq)
  | exitAtOn id date hhmm =>
      obtain ⟨sod, _, h⟩ := Run.bind_eq_ok.mp h
      obtain ⟨q, hq, h⟩ := Run.bind_eq_ok.mp h
      cases h
      exact apply_marks (fun _ h => by cases h) (show c.portfolio.apply (.attachExitAt id none _) = .ok p from hq)
  | bars id intervalSeconds source =>
      cases h
      exact .refl _

/-- The desk of a multi-session run. -/
def Desk.dated (desk : Desk F) (calendar : List Date) : Desk F := { desk with calendar := some calendar }

namespace Engine

/-- `e` is `e'` with its marks erased, and the strategy waits alike in both. -/
structure Shadow (R : σ → σ → Prop) (e e' : Engine F σ) : Prop where
  same : e = { e' with portfolio := e'.portfolio.eraseMarks, task := e.task }
  task : e.task.Like Ctx.Unmarked R e'.task

/-- **Lock step.** `e` runs through the day without refreshing marks, `e'` with it, and nothing that reads a value
    can tell. -/
structure Follows (R : σ → σ → Prop) (e e' : Engine F σ) : Prop extends Shadow R e e' where
  ledger : Ledger e'.session e'.clock e'.portfolio
  valued : e'.portfolio.Valued e'.market

variable {R : σ → σ → Prop} {e e' : Engine F σ}

omit [Double F] in
theorem Shadow.session (h : Shadow R e e') : e.session = e'.session := by rw [h.same]

omit [Double F] in
theorem Shadow.date (h : Shadow R e e') : e.date = e'.date := by rw [h.same]

omit [Double F] in
theorem Shadow.clock (h : Shadow R e e') : e.clock = e'.clock := by rw [h.same]

omit [Double F] in
theorem Shadow.portfolio (h : Shadow R e e') : e.portfolio = e'.portfolio.eraseMarks := by rw [h.same]

omit [Double F] in
theorem Shadow.market (h : Shadow R e e') : e.market = e'.market := by
  unfold Engine.market
  rw [h.session, h.clock]

omit [Double F] in
theorem Shadow.update (h : Shadow R e e') (p : Portfolio F) :
    Shadow R { e with portfolio := p.eraseMarks } { e' with portfolio := p } where
  same := congrArg (fun x : Engine F σ => { x with portfolio := p.eraseMarks }) h.same
  task := h.task

theorem Follows.ctx (h : Follows R e e') (desk : Desk F) (calendar : List Date) :
    (e.ctx desk).Unmarked (e'.ctx (desk.dated calendar)) where
  rest := by
    have hseries : e.series = e'.series := by rw [h.same]
    unfold Engine.ctx Engine.anchor
    rw [h.market, h.portfolio, h.date, hseries]
    rfl
  valued := h.valued

/-- A quiet change of the portfolio that writes no marks. -/
theorem Follows.update (h : Follows R e e') {t : Timestamp} {p : Portfolio F} (hquiet : Quiet t e'.portfolio p)
    (hmarks : Keeps markOf e'.portfolio p) :
    Follows R { e with portfolio := p.eraseMarks } { e' with portfolio := p } where
  toShadow := h.toShadow.update p
  ledger := h.ledger.quiet hquiet (h.ledger.fresh.moves h.ledger.matched hquiet.moves hmarks)
  valued := h.valued.quiet h.ledger.matched hquiet hmarks

/-- **The same command**, with the same reply. -/
theorem Follows.perform (h : Follows R e e') (desk : Desk F) (calendar : List Date) (cmd : Command F) :
    Follows R (e.perform desk cmd).1 (e'.perform (desk.dated calendar) cmd).1 ∧
      (e.perform desk cmd).2 = (e'.perform (desk.dated calendar) cmd).2 := by
  obtain ⟨id, intervalSeconds, source, hcmd⟩ | hcmd := @perform_cases F _ σ cmd
  · have hbars : e.buildBars desk id intervalSeconds source =
        e'.buildBars (desk.dated calendar) id intervalSeconds source := by
      unfold Engine.buildBars Engine.anchor
      rw [h.session, h.date]
      rfl
    rw [hcmd, hcmd, hbars]
    cases e'.buildBars (desk.dated calendar) id intervalSeconds source with
    | error err => exact ⟨h, rfl⟩
    | ok s =>
        have hsame := congrArg (fun x : Engine F σ => { x with series := x.series ++ [s] }) h.same
        refine ⟨⟨⟨hsame, h.task⟩, h.ledger, h.valued⟩, ?_⟩
        have hseries : e.series = e'.series := by rw [h.same]
        exact congrArg (fun xs : List BarSeries => (Except.ok (some xs.length) : Reply)) hseries
  · rw [hcmd, hcmd, (h.ctx desk calendar).submit cmd]
    cases hsubmit : cmd.submit (e'.ctx (desk.dated calendar)) with
    | error err => exact ⟨h, rfl⟩
    | ok x => exact ⟨h.update (Command.submit_quiet hsubmit) (Command.submit_marks hsubmit), rfl⟩

/-- **The same stretch** of strategy code. -/
theorem Follows.exec (desk : Desk F) (calendar : List Date) {s s' : Script F σ} (hs : s.Like Ctx.Unmarked R s')
    (h : Follows R e e') : Run.Alike (Follows R) (s.exec desk e) (s'.exec (desk.dated calendar) e') := by
  induction hs generalizing e e' with
  | look _ ih => exact ih _ _ (h.ctx desk calendar) h
  | @order cmd k k' _ ih =>
      obtain ⟨hfollows, hreply⟩ := h.perform desk calendar cmd
      have halike := ih (e'.perform (desk.dated calendar) cmd).2 hfollows
      rw [← hreply] at halike
      show Run.Alike _ ((k (e.perform desk cmd).2).exec desk (e.perform desk cmd).1)
        ((k' (e'.perform (desk.dated calendar) cmd).2).exec (desk.dated calendar) (e'.perform (desk.dated calendar) cmd).1)
      rw [← hreply]
      exact halike
  | @await cond cond' s s' hcond hs =>
      have hsame := congrArg (fun x : Engine F σ => { x with task := .suspended cond s }) h.same
      exact .ok ⟨⟨hsame, .suspended hcond hs⟩, h.ledger, h.valued⟩
  | finish =>
      have hsame := congrArg (fun x : Engine F σ => { x with task := (.done : Task F σ) }) h.same
      exact .ok ⟨⟨hsame, .done⟩, h.ledger, h.valued⟩
  | throw_ err => exact .error err

/-- **The strategy is entered** equally often. -/
theorem Follows.resumeLoop (desk : Desk F) (calendar : List Date) {resume : σ → Script F σ}
    (hresume : ∀ s s', R s s' → (resume s).Like Ctx.Unmarked R (resume s')) (left : Nat) (h : Follows R e e') :
    Run.Alike (Follows R) (e.resumeLoop desk resume left) (e'.resumeLoop (desk.dated calendar) resume left) := by
  induction left using Nat.strong_induction_on generalizing e e' with
  | _ left ih =>
      have htask := h.task
      generalize ht : e.task = task at htask
      generalize ht' : e'.task = task' at htask
      cases htask with
      | @suspended cond cond' s s' hcond hs =>
          rw [resumeLoop_suspended desk resume left ht, resumeLoop_suspended (desk.dated calendar) resume left ht',
            ← hcond.valid, ← hcond.eval _ _ (h.ctx desk calendar)]
          by_cases hvalid : (!cond.valid) = true
          · rw [if_pos hvalid, if_pos hvalid]
            exact .ok h
          rw [if_neg hvalid, if_neg hvalid]
          cases cond.eval (e.ctx desk) with
          | error err => exact .error err
          | ok holds =>
              have hsame := congrArg
                (fun x : Engine F σ => { x with conditionEvals := x.conditionEvals + 1 }) h.same
              have hcounted : Follows R { e with conditionEvals := e.conditionEvals + 1 }
                  { e' with conditionEvals := e'.conditionEvals + 1 } := by
                refine ⟨⟨?_, h.task⟩, h.ledger, h.valued⟩
                exact hsame
              cases holds with
              | false => exact .ok hcounted
              | true =>
                  refine (hcounted.exec desk calendar (hresume s s' hs)).bind fun g g' hg => ?_
                  have hsame := congrArg (fun x : Engine F σ => { x with resumes := x.resumes + 1 }) hg.same
                  have hentered : Follows R { g with resumes := g.resumes + 1 } { g' with resumes := g'.resumes + 1 } :=
                    ⟨⟨hsame, hg.task⟩, hg.ledger, hg.valued⟩
                  cases left with
                  | zero => exact .error _
                  | succ left => exact ih left (Nat.lt_succ_self left) hentered
      | done =>
          unfold Engine.resumeLoop
          rw [ht, ht']
          exact .ok h

theorem Follows.sampleMargin (desk : Desk F) (calendar : List Date) (h : Follows R e e') :
    Run.Alike (Follows R) (e.sampleMargin desk) (e'.sampleMargin (desk.dated calendar)) := by
  have hnext : e.nextMargin = e'.nextMargin := by rw [h.same]
  have hpeak : e.peakMargin = e'.peakMargin := by rw [h.same]
  unfold Engine.sampleMargin
  rw [h.clock, hnext, hpeak, (h.ctx desk calendar).marginNow]
  by_cases hwait : e'.clock < e'.nextMargin
  · rw [if_pos hwait, if_pos hwait]
    exact .ok h
  · rw [if_neg hwait, if_neg hwait]
    cases (e'.ctx (desk.dated calendar)).marginNow with
    | error err => exact .error err
    | ok m =>
        have hsame := congrArg (fun x : Engine F σ =>
          { x with
            clock := e'.clock
            peakMargin := max e'.peakMargin m.total
            nextMargin := e'.clock + desk.config.marginInterval }) h.same
        exact .ok ⟨⟨hsame, h.task⟩, h.ledger, h.valued⟩

omit [Double F] in
/-- An operation of the portfolio that commutes with erasing. -/
theorem Shadow.operate (h : Shadow R e e') {op op' : Portfolio F → Except Error (Portfolio F)}
    (hop : op e.portfolio = eraseMarks <$> op' e'.portfolio) :
    Run.Alike (fun f f' => Shadow R f f' ∧ ∃ p, op' e'.portfolio = .ok p ∧ f' = { e' with portfolio := p })
      (e.operate op) (e'.operate op') := by
  unfold Engine.operate
  rw [hop]
  cases hp : op' e'.portfolio with
  | error err => exact .error err
  | ok p => exact .ok ⟨h.update p, p, rfl, rfl⟩

/-- Every short leg that is held when the time comes has an offer or a last price then. -/
def PricedAt (e : Engine F σ) (t : Timestamp) : Prop := ShortsQuoted (e.session.view t) e.portfolio

/-- **What the engine does before the strategy is entered.** The one refreshes its marks, the other has none. -/
theorem Follows.settleStep (desk : Desk F) (calendar : List Date) (h : Follows R e e') {t : Timestamp}
    (hpriced : e.PricedAt t) :
    Run.Alike (Follows R) (e.settleStep desk false t) (e'.settleStep (desk.dated calendar) true t) := by
  have hquoted : ShortsQuoted (e'.session.view t) e'.portfolio.eraseMarks := by
    rw [← h.session, ← h.portfolio]
    exact hpriced
  unfold Engine.settleStep Engine.advanceTo
  rw [h.clock]
  by_cases hback : t < e'.clock
  · rw [if_pos hback, if_pos hback]
    exact .error _
  rw [if_neg hback, if_neg hback]
  simp only [Run.ok_bind]
  have hsame := congrArg (fun x : Engine F σ => { x with clock := t, steps := x.steps + 1 }) h.same
  have h₀ : Shadow R { e with clock := t, steps := e.steps + 1 } { e' with clock := t, steps := e'.steps + 1 } :=
    ⟨hsame, h.task⟩
  have hledger := h.ledger.advance (not_lt.mp hback)
  -- the queue
  refine (h₀.operate ?_).bind ?_
  · rw [h₀.market, h₀.portfolio]
    exact processPending_eraseMarks e'.portfolio (e'.session.view t)
  rintro f₁ f₁' ⟨h₁, p₁, hp₁, rfl⟩
  have hledger₁ := hledger.processPending hp₁
  have hvalued := hledger.valued_of_quoted hquoted.of_eraseMarks hp₁
  -- the marks
  refine (h₁.operate ?_).bind ?_
  · rw [h₁.portfolio]
    exact congrArg Except.ok (refreshMarks_eraseMarks p₁ (e'.session.view t)).symm
  rintro f₂ f₂' ⟨h₂, p₂, hp₂, rfl⟩
  cases hp₂
  have hledger₂ := hledger₁.quiet (refreshMarks_quiet t p₁ (e'.session.view t)) (hledger₁.fresh.refresh _)
  -- the rules
  refine (h₂.operate ?_).bind ?_
  · rw [h₂.market, h₂.portfolio]
    exact processRiskRules_eraseMarks hvalued hledger₂.matched
  rintro f₃ f₃' ⟨h₃, p₃, hp₃, rfl⟩
  have hquiet := processRiskRules_quiet hp₃
  have hmarks : Keeps markOf (p₁.refreshMarks (e'.session.view t)) p₃ :=
    apply_marks (fun _ h => by cases h) (show Portfolio.apply _ (.processRiskRules (e'.session.view t)) = .ok p₃ from hp₃)
  have h₄ : Follows R f₃ { e' with clock := t, steps := e'.steps + 1, portfolio := p₃ } :=
    ⟨h₃, hledger₂.quiet hquiet (hledger₂.fresh.moves hledger₂.matched hquiet.moves hmarks),
      hvalued.quiet hledger₂.matched hquiet hmarks⟩
  exact h₄.sampleMargin desk calendar

/-- **One step** of both loops. -/
theorem Follows.step (desk : Desk F) (calendar : List Date) {resume : σ → Script F σ}
    (hresume : ∀ s s', R s s' → (resume s).Like Ctx.Unmarked R (resume s')) (h : Follows R e e') {t : Timestamp}
    (hpriced : e.PricedAt t) :
    Run.Alike (Follows R) (e.step desk resume false t) (e'.step (desk.dated calendar) resume true t) :=
  (h.settleStep desk calendar hpriced).bind fun _ _ hfollows => hfollows.resumeLoop desk calendar hresume _

/-- **The first stretch.** Nothing is held, so nothing is marked. -/
theorem start_follows (desk : Desk F) (calendar : List Date) {strategy : Strategy F} (session : SessionData)
    (date : Date) {R : strategy.State → strategy.State → Prop}
    (hstart : strategy.start.Like Ctx.Unmarked R strategy.start) :
    Run.Alike (Follows R) (Engine.start desk strategy session date)
      (Engine.start (desk.dated calendar) strategy session date) := by
  unfold Engine.start
  show Run.Alike _ (desk.config.portfolio >>= _) (desk.config.portfolio >>= _)
  cases hp : desk.config.portfolio with
  | error err => exact .error err
  | ok p₀ =>
      obtain ⟨_, rfl⟩ := Portfolio.new_eq_ok.mp hp
      have hempty : ∀ id i leg, (Portfolio.empty (desk.config.fills.getD crossSpreadFill) desk.config.executionDelayNanos
          (desk.config.costs.getD (defaultCostPolicy F))).leg? id i = some leg → False := by
        intro id i leg hleg
        simp [leg?, empty] at hleg
      refine Follows.exec desk calendar hstart ⟨⟨rfl, .done⟩, ⟨⟨_, _, _, .init⟩, ?_, ?_, ?_⟩, ?_⟩
      · exact fun id i leg hleg => (hempty id i leg hleg).elim
      · exact fun id i leg hleg => (hempty id i leg hleg).elim
      · exact fun id i leg hleg => (hempty id i leg hleg).elim
      · exact fun id i leg hleg => (hempty id i leg hleg).elim

/-- The strategy does not touch the margin samples. -/
theorem margin_stable (desk : Desk F) :
    Stable desk (fun e e' : Engine F σ => e'.nextMargin = e.nextMargin ∧ e'.peakMargin = e.peakMargin) where
  refl _ := ⟨rfl, rfl⟩
  trans _ _ _ h h' := ⟨h'.1.trans h.1, h'.2.trans h.2⟩
  perform e cmd := by
    obtain ⟨id, intervalSeconds, source, hcmd⟩ | hcmd := @perform_cases F _ σ cmd
    · rw [hcmd]
      cases e.buildBars desk id intervalSeconds source <;> exact ⟨rfl, rfl⟩
    · rw [hcmd]
      cases cmd.submit (e.ctx desk) <;> exact ⟨rfl, rfl⟩
  task _ _ := ⟨rfl, rfl⟩
  evals _ _ := ⟨rfl, rfl⟩
  resumes _ _ := ⟨rfl, rfl⟩

/-- Binding the session a run was started with changes nothing. -/
theorem bindSession_of_start {desk : Desk F} {strategy : Strategy F} {session : SessionData} {date : Date}
    {e : Engine F strategy.State} (h : Engine.start desk strategy session date = .ok e) :
    e.bindSession session date = e := by
  obtain ⟨p₀, _, hexec⟩ := Run.bind_eq_ok.mp h
  obtain ⟨hnext, hpeak⟩ := (margin_stable desk).exec hexec
  have hentered := exec_entered hexec
  obtain ⟨bound, day, clock, portfolio, series, task, nextMargin, peakMargin, steps, evals, resumes⟩ := e
  obtain rfl : bound = session := hentered.session
  obtain rfl : day = date := hentered.date
  obtain rfl : nextMargin = kNoTime := hnext
  obtain rfl : peakMargin = 0 := hpeak
  rfl

end Engine

/-! ## The bell -/

/-- Nothing held is an option that has reached its expiry. -/
def Engine.NothingDue (e : Engine F σ) : Prop :=
  ∀ id i leg spec, e.portfolio.leg? id i = some leg → ¬ Expired e.session.registry e.date leg spec

omit [Double F] in
theorem dueExpiries_nil {p : Portfolio F} {registry : InstrumentRegistry} {today : Date} (hres : Resolved registry p)
    (hnone : ∀ id i leg spec, p.leg? id i = some leg → ¬ Expired registry today leg spec) :
    dueExpiries p registry today = .ok [] := by
  have hstep : ∀ due, ∀ leg ∈ p.positions.flatMap (·.legs), due = [] →
      ∃ due', addDue registry today due leg = .ok due' ∧ due' = [] := by
    rintro due leg hleg rfl
    obtain ⟨id, i, hleg⟩ := mem_legs.mp hleg
    unfold addDue
    by_cases hlive : leg.live = true
    · obtain ⟨spec, hspec⟩ := hres id i leg hleg hlive
      rw [hlive, hspec]
      simp only [Bool.not_true, Bool.false_eq_true, if_false, Run.ok_bind]
      split_ifs with hskip hdue
      · exact ⟨_, rfl, rfl⟩
      · have hskip : spec.isOption = true ∧ spec.expiry.valid = true := by simpa using hskip
        exact absurd ⟨hlive, hspec, hskip.1, hskip.2, hdue⟩ (hnone id i leg spec hleg)
      · exact ⟨_, rfl, rfl⟩
    · exact ⟨_, by rw [if_pos (by simpa using hlive)], rfl⟩
  obtain ⟨due, hdue, rfl⟩ := Run.foldlM_total (fun due => due = []) _ hstep rfl
  exact hdue

/-- Trades and money. -/
structure SameBooks (p p' : Portfolio F) : Prop where
  length : p'.positions.length = p.positions.length
  rules : p'.rules = p.rules
  trades : p'.trades = p.trades
  realized : p'.realized = p.realized
  costs : p'.totalCosts = p.totalCosts

omit [Double F] in
theorem abandonOrder_sameBooks {p : Portfolio F} {acc : Portfolio F × List PositionId} (o : PendingOrder)
    (h : SameBooks p acc.1) : SameBooks p (abandonOrder acc o).1 := by
  obtain ⟨q, abandoned⟩ := acc
  have hcancel : SameBooks p (q.countCancelled o) := ⟨h.length, h.rules, h.trades, h.realized, h.costs⟩
  have hset : ∀ st, SameBooks p ((q.setState o.position o.legIndex st).countCancelled o) := fun st =>
    ⟨(modifyLeg_length q _ _ _).trans h.length, h.rules, h.trades, h.realized, h.costs⟩
  unfold abandonOrder
  dsimp only
  split
  · exact hcancel
  · split_ifs
    · exact hset .Open
    · exact hcancel
    · exact hset .Cancelled
    · exact hcancel

omit [Double F] in
/-- **The cancellation at the bell** does not fail, and changes neither trades nor money. -/
theorem cancelWorkingOrders_total {p : Portfolio F} (h : Covered p) :
    ∃ p' n, p.cancelWorkingOrders = .ok (p', n) ∧ p'.trades = p.trades ∧ p'.realized = p.realized ∧
      p'.totalCosts = p.totalCosts := by
  have hbooks : SameBooks p (p.pending.foldl abandonOrder ({ p with pending := [] }, [])).1 :=
    Run.foldl_inv (fun acc : Portfolio F × List PositionId => SameBooks p acc.1) p.pending
      (fun _ o _ hacc => abandonOrder_sameBooks o hacc) ⟨rfl, rfl, rfl, rfl, rfl⟩
  unfold cancelWorkingOrders
  generalize p.pending.foldl abandonOrder ({ p with pending := [] }, []) = acc at hbooks ⊢
  obtain ⟨q, abandoned⟩ := acc
  -- every rule is about a position there is, so each can be looked at
  have hrearm : ∀ rule ∈ q.rules, ∃ r, rearm q abandoned rule = .ok r := by
    intro rule hrule
    have hlt : rule.position < q.positions.length := by
      rw [hbooks.length]
      exact h.known rule (hbooks.rules ▸ hrule)
    have hat : q.atId rule.position = .ok q.positions[rule.position] :=
      atId_eq_ok.mpr (List.getElem?_eq_getElem hlt)
    unfold rearm
    rw [hat, Run.ok_bind]
    split_ifs <;> exact ⟨_, rfl⟩
  obtain ⟨rules, hrules⟩ := IdTable.exists_related hrearm
  rw [← Run.mapM_ok_iff] at hrules
  dsimp only
  rw [hrules]
  exact ⟨_, _, rfl, hbooks.trades, hbooks.realized, hbooks.costs⟩

namespace Engine

/-- **The end of a session in which nothing is due** does not fail, and changes neither trades nor money. -/
theorem endSession_of_nothingDue (desk : Desk F) (config : BacktestConfig F) {e : Engine F σ}
    (hcovered : Covered e.portfolio) (hres : Resolved e.session.registry e.portfolio) (hdue : e.NothingDue) :
    ∃ e' n, e.endSession desk config = .ok (e', n) ∧ e'.portfolio.trades = e.portfolio.trades ∧
      e'.portfolio.realized = e.portfolio.realized ∧ e'.portfolio.totalCosts = e.portfolio.totalCosts := by
  obtain ⟨hs, hd, hp, _⟩ := toSettlement_cases config e
  unfold endSession
  dsimp only
  generalize e.toSettlement config = e₀ at hs hd hp ⊢
  obtain ⟨p', n, hcancel, hbooks⟩ := cancelWorkingOrders_total hcovered
  have hop : e₀.operate (fun p => (·.1) <$> p.cancelWorkingOrders) = .ok { e₀ with portfolio := p' } := by
    unfold operate
    dsimp only
    rw [hp, hcancel]
    rfl
  rw [hs, hd, hp, dueExpiries_nil hres hdue, Run.ok_bind, List.foldlM_nil, Run.pure_eq_ok, Run.ok_bind]
  dsimp only
  rw [hop]
  exact ⟨{ e₀ with portfolio := p' }, 0, rfl, hbooks⟩

/-- **The day.** -/
theorem replay_follows {desk : Desk F} (calendar : List Date) {strategy : Strategy F} {session : SessionData}
    {R : strategy.State → strategy.State → Prop} (hstart : strategy.start.Like Ctx.Unmarked R strategy.start)
    (hresume : ∀ s s', R s s' → (strategy.resume s).Like Ctx.Unmarked R (strategy.resume s'))
    (hpriced : ∀ e, Engine.start desk strategy session session.date = .ok e →
      Run.Along (Engine.step desk strategy.resume false) PricedAt e session.steps) :
    Run.Alike (Follows R) (replaySession desk strategy session) (do
      let e ← Engine.start (desk.dated calendar) strategy session session.date
      session.steps.foldlM (Engine.step (desk.dated calendar) strategy.resume true) (e.bindSession session session.date)) := by
  have hfirst := start_follows desk calendar session session.date hstart
  unfold replaySession
  generalize hx : Engine.start desk strategy session session.date = x at hfirst hpriced ⊢
  generalize hy : Engine.start (desk.dated calendar) strategy session session.date = y at hfirst ⊢
  cases hfirst with
  | error err => exact .error err
  | @ok e e' hfollows =>
      rw [Run.ok_bind, Run.ok_bind, bindSession_of_start hy]
      have hstep : ∀ f f' t, Follows R f f' → f.PricedAt t → Run.Alike (Follows R)
          (f.step desk strategy.resume false t) (f'.step (desk.dated calendar) strategy.resume true t) :=
        fun _ _ _ hf ht => hf.step desk calendar hresume ht
      exact Run.foldlM_alike (Follows R) hstep hfollows (hpriced e rfl)

end Engine

/-! ## Main result -/

/-- The result of a campaign of a single day, from where its session ended. -/
def oneDayResult (session : SessionData) {σ : Type} (x : Engine F σ × Nat) : BacktestResult :=
  ({ engine := x.1
     sessions := [session.date]
     daily := [({ engine := x.1 } : Campaign F σ).summary x.1 x.2]
     observations := 0 + session.observations
     peakMargin := max 0 x.1.peakMargin
     tradesSeen := x.1.portfolio.trades.length } : Campaign F σ).result

/-- A campaign of a single day. -/
theorem runBacktest_one_day {session : SessionData} {source : DataSource} (underlying : UnderlyingId)
    (spot : InstrumentId) (strategy : Strategy F) (config : BacktestConfig F) {dates : List Date}
    (hsessions : source.sessions = [session.date]) (hload : source.load session.date = .ok (some session))
    (hdates : dates = [] ∨ dates = [session.date]) :
    runBacktest source underlying spot strategy config dates = (do
      let _ ← config.portfolio
      let e ← (do
        let e ← Engine.start (backtestDesk underlying spot config [session.date]) strategy session session.date
        session.steps.foldlM (Engine.step (backtestDesk underlying spot config [session.date]) strategy.resume true)
          (e.bindSession session session.date))
      let x ← e.endSession (backtestDesk underlying spot config [session.date]) config
      return oneDayResult session x) := by
  have hall : (if dates.isEmpty then source.sessions else dates) = [session.date] := by
    rcases hdates with rfl | rfl
    · exact hsessions
    · rfl
  unfold runBacktest startCampaign replayDates
  dsimp only
  rw [hall]
  simp only [datesSorted, Bool.not_true, Bool.false_eq_true, if_false]
  cases config.portfolio with
  | error err => rfl
  | ok p =>
      simp only [Run.ok_bind, hload]
      cases Engine.start (backtestDesk underlying spot config [session.date]) strategy session session.date with
      | error err => rfl
      | ok e =>
          simp only [Run.ok_bind, Run.pure_eq_ok, List.foldlM_cons, List.foldlM_nil]
          unfold Campaign.nextDate Engine.runDay
          simp only [hload, Run.ok_bind]
          cases session.steps.foldlM (Engine.step (backtestDesk underlying spot config [session.date]) strategy.resume true)
            (e.bindSession session session.date) with
          | error err => rfl
          | ok e' =>
              simp only [Run.ok_bind]
              cases e'.endSession (backtestDesk underlying spot config [session.date]) config <;> rfl

/-- **The two loops agree on one day.** A strategy that reads neither carried marks nor the calendar is run over one
    session by both loops. If at every timestamp each short leg held by then is quoted with an offer or a last price,
    and nothing held at the bell is an option that has reached its expiry, then the runs fail alike, or both succeed
    with the same trades, the same realised profit and the same costs. -/
theorem one_day_loops_agree {session : SessionData} {source : DataSource} (underlying : UnderlyingId)
    (spot : InstrumentId) {strategy : Strategy F} (config : BacktestConfig F) {dates : List Date}
    (hsessions : source.sessions = [session.date]) (hload : source.load session.date = .ok (some session))
    (hdates : dates = [] ∨ dates = [session.date]) (hstrategy : strategy.Unmarked)
    (hpriced : ∀ e, Engine.start { underlying, spot, config := config.toRunConfig } strategy session session.date = .ok e →
      Run.Along (Engine.step { underlying, spot, config := config.toRunConfig } strategy.resume false) Engine.PricedAt e
        session.steps)
    (hdue : ∀ e, replaySession { underlying, spot, config := config.toRunConfig } strategy session = .ok e → e.NothingDue) :
    Run.Alike (fun r b => b.tradeLog = r.tradeLog ∧ b.realized = r.realized ∧ b.costs = r.costs)
      (runSession session underlying spot strategy config.toRunConfig)
      (runBacktest source underlying spot strategy config dates) := by
  obtain ⟨R, hstart, hresume⟩ := hstrategy
  rw [runBacktest_one_day underlying spot strategy config hsessions hload hdates]
  unfold runSession
  dsimp only
  generalize hdesk : ({ underlying, spot, config := config.toRunConfig } : Desk F) = desk at hpriced hdue ⊢
  have hdated : backtestDesk underlying spot config [session.date] = desk.dated [session.date] := by
    rw [← hdesk]
    rfl
  have hportfolio : config.portfolio = desk.config.portfolio := by rw [← hdesk]
  rw [hdated, hportfolio]
  cases hp : desk.config.portfolio with
  | error err =>
      unfold replaySession Engine.start
      rw [hp]
      exact .error err
  | ok p₀ =>
      rw [Run.ok_bind]
      have hday := Engine.replay_follows [session.date] hstart hresume hpriced
      generalize replaySession desk strategy session = x at hday hdue ⊢
      generalize (Engine.start (desk.dated [session.date]) strategy session session.date >>= fun e =>
        session.steps.foldlM (Engine.step (desk.dated [session.date]) strategy.resume true)
          (e.bindSession session session.date)) = y at hday ⊢
      cases hday with
      | error err => exact .error err
      | @ok e e' hfollows =>
          -- nothing is settled at the bell, so the end of the session leaves the books alone
          have hnone : e'.NothingDue := by
            intro id i leg spec hleg hexp
            refine hdue e rfl id i leg.eraseMark spec ?_ ?_
            · rw [hfollows.portfolio, leg?_eraseMarks, hleg]
              rfl
            · rw [hfollows.session, hfollows.date]
              exact ⟨hexp.live, hexp.resolves, hexp.option, hexp.valid, hexp.due⟩
          obtain ⟨_, _, _, hreach⟩ := hfollows.ledger.reachable
          obtain ⟨e₁, n, hend, htrades, hrealized, hcosts⟩ := Engine.endSession_of_nothingDue (desk.dated [session.date])
            config hreach.covered hfollows.ledger.resolved hnone
          obtain ⟨m, hm⟩ := Ctx.marginNow_total (e'.ctx (desk.dated [session.date])) hfollows.ledger.resolved
          rw [Run.ok_bind, Run.ok_bind, hend]
          unfold Engine.result
          rw [(hfollows.ctx desk [session.date]).marginNow, hm]
          refine .ok ⟨?_, ?_, ?_⟩
          · show e₁.portfolio.trades = e.portfolio.trades
            rw [htrades, hfollows.portfolio]
            rfl
          · show e₁.portfolio.realized = e.portfolio.realized
            rw [hrealized, hfollows.portfolio]
            rfl
          · show e₁.portfolio.totalCosts = e.portfolio.totalCosts
            rw [hcosts, hfollows.portfolio]
            rfl

/-! ### A short that dries up -/

/-- A source that holds one session. -/
def onlySession (session : SessionData) : DataSource where
  sessions := [session.date]
  load _ := .ok (some session)

/-- Sells one lot at once, and attaches a stop of five percent at time 2. -/
def sellThenStop : Strategy ℚ where
  State := Unit
  start := .order (.sell [0] 1 "short") fun _ => .await (atOrAfter 2) ()
  resume _ := .order (.stopLoss 0 none (5 / 100)) fun _ => .finish

theorem sellThenStop_unmarked : sellThenStop.Unmarked :=
  ⟨Eq, .order _ fun _ => .await (unmarked_atOrAfter 2) rfl, fun _ _ _ => .order _ fun _ => .finish⟩

/-- Quoted at 100 and then at 110, then with neither an offer nor a last price, and at 100 again. -/
def driedQuotes : QuoteColumns where
  ts := [1, 2, 3, 4]
  last := [100, 110, 0, 100]
  bid := [100, 109, 0, 99]
  ask := [101, 110, 0, 100]
  bidQty := [1, 1, 1, 1]
  askQty := [1, 1, 1, 1]
  lastQty := [1, 1, 1, 1]
  openInterest := [0, 0, 0, 0]

/-- One instrument, which is no option. -/
def driedSession : SessionData :=
  { pairSession driedQuotes {} with registry := (flatSession ⟨20250701⟩ []).registry }

theorem driedSession_contract : driedSession.Contract := by
  have h : (pairSession driedQuotes {}).Contract :=
    pairSession_contract (by constructor <;> rfl) (by constructor <;> rfl) (by unfold QuoteColumns.Ascending; decide)
      (by unfold QuoteColumns.Ascending; decide) (by decide) (by decide)
  exact ⟨h.nodup, h.listed, h.aligned, h.ascending, h.located, h.total, .inl rfl, .inl rfl, h.printedBy⟩

omit [Double F] in
/-- Where no instrument is an option, nothing is ever due. -/
theorem Engine.nothingDue_of_noOption {e : Engine F σ}
    (hnone : ∀ id spec, e.session.registry.spec id = .ok spec → spec.isOption = false) : e.NothingDue := by
  intro id i leg spec hleg hexp
  have hno := hnone leg.instrument spec hexp.resolves
  rw [hexp.option] at hno
  cases hno

/-- The one instrument of the fixtures is no option. -/
theorem flatSession_noOption (date : Date) (times : List Int64) (id : InstrumentId) (spec : InstrumentSpec)
    (h : (flatSession date times).registry.spec id = .ok spec) : spec.isOption = false := by
  unfold InstrumentRegistry.spec at h
  split_ifs at h with hneg
  have hspecs : (flatSession date times).registry.specs = [{ id := 0, underlying := 0 }] := by
    show ((({} : InstrumentRegistry).internUnderlying [78]).1.add { underlying := 0 }).1.specs = _
    decide +kernel
  rw [hspecs] at h
  cases hn : id.toNat with
  | zero =>
      rw [hn] at h
      cases h
      rfl
  | succ n =>
      rw [hn] at h
      cases h

/-- **A short that dries up.** Sold at 100, the short is offered at 110, and then quoted with neither an offer nor a last
    price. One loop values it at its entry then, the other at the 110 it carried: the stop fires in the second only. -/
theorem stop_fires_in_one_loop_only :
    driedSession.Contract ∧ sellThenStop.Unmarked ∧
      (∃ e, replaySession { underlying := 0, spot := -1, config := { costs := some noCosts } } sellThenStop driedSession =
        .ok e ∧ e.NothingDue) ∧
      ∃ r b, runSession driedSession 0 (-1) sellThenStop { costs := some noCosts } = .ok r ∧
        runBacktest (onlySession driedSession) 0 (-1) sellThenStop { costs := some noCosts } [] = .ok b ∧
        b.tradeLog ≠ r.tradeLog := by
  obtain ⟨e, he, hsession⟩ := Run.exists_of_succeeds (fun e : Engine ℚ Unit =>
      decide (e.session.registry = driedSession.registry))
    (replaySession { underlying := 0, spot := -1, config := { costs := some noCosts } } sellThenStop driedSession)
    (by decide +kernel)
  obtain ⟨r, hr, hsold⟩ := Run.exists_of_succeeds (fun r : RunResult => decide (r.tradeLog.length = 1))
    (runSession driedSession 0 (-1) sellThenStop { costs := some noCosts }) (by decide +kernel)
  obtain ⟨b, hb, hstopped⟩ := Run.exists_of_succeeds (fun b : BacktestResult => decide (b.tradeLog.length = 2))
    (runBacktest (onlySession driedSession) 0 (-1) sellThenStop { costs := some noCosts } []) (by decide +kernel)
  have hdue : e.NothingDue := Engine.nothingDue_of_noOption (by
    rw [of_decide_eq_true hsession]
    exact flatSession_noOption ⟨20250701⟩ [])
  refine ⟨driedSession_contract, sellThenStop_unmarked, ⟨e, he, hdue⟩, r, b, hr, hb, fun heq => ?_⟩
  have hlengths := congrArg List.length heq
  rw [of_decide_eq_true hsold, of_decide_eq_true hstopped] at hlengths
  cases hlengths

omit [Double F] in
/-- A strike that stays quoted dries up nowhere. -/
theorem flatSession_pricedAt {e : Engine F σ} {date : Date} {times : List Int64}
    (hsession : e.session = flatSession date times) (t : Timestamp) : e.PricedAt t := by
  intro id i leg q hleg hlive hshort hq
  rw [hsession] at hq
  obtain ⟨k, hk, rfl⟩ := QuoteColumns.quoteAt_zero_eq_some.mp hq
  have hrow := QuoteColumns.indexAtOrBefore_eq_some.mp hk
  have hsize := QuoteColumns.upperBound_le_size ((flatSession date times).quotes leg.instrument) t
  have hlt : k < ((flatSession date times).quotes leg.instrument).size := by omega
  left
  show 0 < ((((flatSession date times).quotes leg.instrument).ask.getD k 0).toInt : Int)
  unfold flatSession at hlt ⊢
  dsimp only at hlt ⊢
  split_ifs at hlt ⊢ with hzero
  · have hk : k < times.length := hlt
    simp only [flatQuotes, List.getD_eq_getElem?_getD, List.getElem?_map, List.getElem?_eq_getElem hk, Option.map_some,
      Option.getD_some]
    decide
  · cases hlt

/-- The loops agree where the strike stays quoted, and the stop fires in neither. -/
theorem one_day_loops_agree_flat :
    Run.Alike (fun r b => b.tradeLog = r.tradeLog ∧ b.realized = r.realized ∧ b.costs = r.costs)
      (runSession (flatSession ⟨20250701⟩ [1, 2, 3]) 0 (-1) sellThenStop { costs := some noCosts })
      (runBacktest (onlySession (flatSession ⟨20250701⟩ [1, 2, 3])) 0 (-1) sellThenStop { costs := some noCosts } []) := by
  refine one_day_loops_agree 0 (-1) { costs := some noCosts } rfl rfl
    (.inl rfl) sellThenStop_unmarked ?_ ?_
  · intro e he
    obtain ⟨_, _, hsession, _⟩ := Engine.start_cases he
    exact Run.along_of_inv (fun e => e.session = flatSession ⟨20250701⟩ [1, 2, 3])
      (fun _ t h => flatSession_pricedAt h t) (fun _ _ _ h hstep => (Engine.step_cases hstep).session.trans h) _ _ hsession
  · intro e he
    obtain ⟨e₀, he₀, hrun⟩ := Run.bind_eq_ok.mp he
    obtain ⟨_, _, hsession, _⟩ := Engine.start_cases he₀
    have hbound := Run.foldlM_inv (fun e => e.session = flatSession ⟨20250701⟩ [1, 2, 3])
      (fun _ _ _ h hstep => (Engine.step_cases hstep).session.trans h) _ _ _ hsession hrun
    exact Engine.nothingDue_of_noOption (by
      rw [hbound]
      exact flatSession_noOption _ _)

end Volforge
