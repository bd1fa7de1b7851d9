import Volforge.Core.Correctness.Sessions

/-!
# `Core.Correctness.Fills` — the quote an order fills against

An order is filled at the first timestamp of the run at which it is due and its instrument has a market, and
it takes its price from the instrument's standing quote. `Fresh` says that this quote had printed after the
order was submitted and no earlier than the execution delay allows. The loop steps through the timestamps of
all instruments together, so a quote may be standing since before the order: `PrintedSince` is the condition
on a step under which none is used.

## Contents
- **One order.** `fresh_iff_printed`: the standing quote is fresh when its instrument has printed since.
- **One step, one session, one run.** The condition along the run is exact (`Run.along_iff`).
- **A quiet strike.** A run that sells an option and fills it at the quote the strategy had seen.
-/

namespace Volforge

variable {F : Type} [Double F] {σ : Type}

open Portfolio

/-- The quote of an execution printed after the order was submitted, and after the execution delay. -/
structure Fresh (delay : Int) (f : Fill) : Prop where
  after_signal : f.order.submittedAt < f.quote.ts
  printed : f.quote.ts ≤ f.time
  delayed : f.order.submittedAt + delay ≤ f.quote.ts

/-- The trade took its price from a row of its instrument, in one of the sessions. -/
structure Took (loaded : SessionData → Prop) (fills : FillModel F) (t : TradeRecord) (f : Fill) : Prop where
  records : Records t f
  price : fills.fill f.quote t.side t.qty = some t.price
  row : ∃ s, loaded s ∧ ∃ i < (s.quotes t.instrument).size, f.quote = (s.quotes t.instrument).atRow i

/-- Every trade of the log that is no settlement took its price from a fresh quote of its instrument. -/
def FreshTrades (loaded : SessionData → Prop) (p : Portfolio F) : Prop :=
  List.Forall₂ (fun t f => Took loaded p.fills t f ∧ Fresh p.delay f) p.orderTrades p.journal.fills

/-- Every column of the session is sorted by time. -/
def SessionData.Sorted (s : SessionData) : Prop := ∀ id, (s.quotes id).Ascending

/-! ## One order -/

/-- The instrument has printed by `t`, after the order was submitted and no earlier than it was eligible. -/
def PrintedFor (s : SessionData) (t : Timestamp) (o : PendingOrder) : Prop :=
  ∃ i < (s.quotes o.instrument).size, o.submittedAt < (s.quotes o.instrument).time i ∧
    o.eligibleAt ≤ (s.quotes o.instrument).time i ∧ (s.quotes o.instrument).time i ≤ t

/-- The fill model would execute the order against the standing quote. -/
def Tradeable (fills : FillModel F) (market : MarketView) (o : PendingOrder) : Prop :=
  ∃ q, market.current o.instrument = some q ∧ (fills.fill q o.side o.qty).isSome = true

omit [Double F] in
theorem fillOf_eq_some {fills : FillModel F} {market : MarketView} {o : PendingOrder} {f : Fill} :
    fillOf fills market o = some f ↔ o.eligibleAt ≤ market.now ∧ f.order = o ∧ f.time = market.now ∧
      market.current o.instrument = some f.quote ∧ fills.fill f.quote o.side o.qty = some f.price := by
  unfold fillOf
  rw [Option.map_eq_some_iff]
  constructor
  · rintro ⟨⟨q, price⟩, hex, rfl⟩
    obtain ⟨hdue, hq, hprice⟩ := executable_eq_some.mp hex
    exact ⟨hdue, rfl, rfl, hq, hprice⟩
  · rintro ⟨hdue, rfl, htime, hq, hprice⟩
    refine ⟨(f.quote, f.price), executable_eq_some.mpr ⟨hdue, hq, hprice⟩, ?_⟩
    cases f
    simp only at htime
    rw [htime]

omit [Double F] in
/-- A standing quote is a row of its instrument, and none has printed later. -/
theorem current_eq_some {s : SessionData} (hsorted : s.Sorted) {t : Timestamp} {id : InstrumentId} {q : Quote}
    (h : (s.view t).current id = some q) :
    ∃ i < (s.quotes id).size, q = (s.quotes id).atRow i ∧ q.ts ≤ t ∧
      ∀ j < (s.quotes id).size, (s.quotes id).time j ≤ t → (s.quotes id).time j ≤ q.ts := by
  obtain ⟨i, hi, rfl⟩ := QuoteColumns.quoteAt_zero_eq_some.mp h
  exact ⟨i, QuoteColumns.indexAtOrBefore_lt_size hi, rfl, QuoteColumns.indexAtOrBefore_time_le hi,
    fun j hj hjt => QuoteColumns.time_le_time_indexAtOrBefore (hsorted id) hi hj hjt⟩

omit [Double F] in
/-- **The standing quote is fresh exactly when its instrument has printed since.** -/
theorem fresh_iff_printed {fills : FillModel F} {s : SessionData} (hsorted : s.Sorted) {t : Timestamp}
    {delay : Int} {o : PendingOrder} (hdelay : o.eligibleAt = o.submittedAt + delay) {f : Fill}
    (hf : fillOf fills (s.view t) o = some f) : Fresh delay f ↔ PrintedFor s t o := by
  obtain ⟨_, rfl, htime, hq, _⟩ := fillOf_eq_some.mp hf
  have htime : f.time = t := htime
  obtain ⟨i, hi, hrow, hprinted, hlast⟩ := current_eq_some hsorted hq
  have hts : (s.quotes f.order.instrument).time i = f.quote.ts := by rw [hrow]; rfl
  constructor
  · intro hfresh
    refine ⟨i, hi, ?_, ?_, ?_⟩
    · rw [hts]
      exact hfresh.after_signal
    · rw [hts, hdelay]
      exact hfresh.delayed
    · rw [hts]
      exact hprinted
  · rintro ⟨j, hj, hsignal, heligible, hjt⟩
    have hle := hlast j hj hjt
    refine ⟨lt_of_lt_of_le hsignal hle, ?_, ?_⟩
    · rw [htime]
      exact hprinted
    · rw [← hdelay]
      exact le_trans heligible hle

/-! ## One step -/

/-- Every order that is due and has a market has seen its instrument print since it was submitted. -/
def PrintedSince (e : Engine F σ) (t : Timestamp) : Prop :=
  ∀ o ∈ e.portfolio.pending, o.eligibleAt ≤ t → Tradeable e.portfolio.fills (e.session.view t) o →
    PrintedFor e.session t o

/-- The fills of the journal are fresh. -/
def FreshFills (p : Portfolio F) : Prop := ∀ f ∈ p.journal.fills, Fresh p.delay f

namespace Engine

theorem Stepped.freshFills_iff {e e' : Engine F σ} {t : Timestamp} (h : Stepped e t e')
    (hsorted : e.session.Sorted) (hdelayed : Delayed e.portfolio) :
    FreshFills e'.portfolio ↔ FreshFills e.portfolio ∧ PrintedSince e t := by
  unfold FreshFills
  rw [h.fills, h.sameTerms.delay]
  simp only [List.mem_append, List.mem_filterMap, or_imp, forall_and]
  refine and_congr_right (fun _ => ⟨fun hnew o ho hdue htrade => ?_, ?_⟩)
  · obtain ⟨q, hq, hsome⟩ := htrade
    obtain ⟨price, hprice⟩ := Option.isSome_iff_exists.mp hsome
    have hf : fillOf e.portfolio.fills (e.session.view t) o =
        some { order := o, quote := q, price := price, time := t } :=
      fillOf_eq_some.mpr ⟨hdue, rfl, rfl, hq, hprice⟩
    exact (fresh_iff_printed hsorted (hdelayed o ho) hf).mp (hnew _ ⟨o, ho, hf⟩)
  · rintro hprinted f ⟨o, ho, hf⟩
    obtain ⟨hdue, _, _, hq, hprice⟩ := fillOf_eq_some.mp hf
    refine (fresh_iff_printed hsorted (hdelayed o ho) hf).mpr (hprinted o ho hdue ⟨f.quote, hq, ?_⟩)
    rw [hprice]
    rfl

/-- What the executions of a run took their prices from. -/
def Genuine (loaded : SessionData → Prop) (p : Portfolio F) : Prop :=
  ∀ f ∈ p.journal.fills, p.fills.fill f.quote f.order.side f.order.qty = some f.price ∧
    ∃ s, loaded s ∧ ∃ i < (s.quotes f.order.instrument).size,
      f.quote = (s.quotes f.order.instrument).atRow i

theorem Stepped.genuine {loaded : SessionData → Prop} {e e' : Engine F σ} {t : Timestamp}
    (h : Stepped e t e') (hsorted : e.session.Sorted) (hloaded : loaded e.session)
    (hg : Genuine loaded e.portfolio) : Genuine loaded e'.portfolio := by
  intro f hf
  rw [h.fills] at hf
  rw [h.sameTerms.fills]
  obtain hf | hf := List.mem_append.mp hf
  · exact hg f hf
  · obtain ⟨o, _, hfo⟩ := List.mem_filterMap.mp hf
    obtain ⟨_, rfl, _, hq, hprice⟩ := fillOf_eq_some.mp hfo
    obtain ⟨i, hi, hrow, _⟩ := current_eq_some hsorted hq
    exact ⟨hprice, e.session, hloaded, i, hi, hrow⟩

/-! ## One session -/

/-- What the steps of a session keep. -/
structure Steady (loaded : SessionData → Prop) (delay : Int) (s : SessionData) (e : Engine F σ) : Prop where
  session : e.session = s
  delay_eq : e.portfolio.delay = delay
  kept : WellKept e.portfolio
  delayed : Delayed e.portfolio
  genuine : Genuine loaded e.portfolio

theorem Steady.step {loaded : SessionData → Prop} {delay : Int} {s : SessionData} (hsorted : s.Sorted)
    (hloaded : loaded s) {e e' : Engine F σ} {t : Timestamp} (h : Steady loaded delay s e)
    (hstep : Stepped e t e') : Steady loaded delay s e' := by
  obtain ⟨p, hfilled, hquiet⟩ := hstep.filled
  have hs := h.session
  subst hs
  exact {
    session := hstep.session
    delay_eq := hstep.sameTerms.delay.trans h.delay_eq
    kept := hstep.reach.inv WellKept h.kept (fun _ _ _ hp hs => hp.apply hs)
    delayed := hquiet.moves.delayed (hfilled.delayed h.delayed)
    genuine := hstep.genuine hsorted hloaded h.genuine }

/-- **The exact condition over the steps of a session.** -/
theorem steps_freshFills_iff {desk : Desk F} {resume : σ → Script F σ} {marks : Bool}
    (loaded : SessionData → Prop) {delay : Int} {s : SessionData} (hsorted : s.Sorted) (hloaded : loaded s)
    {steps : List Timestamp} {e e' : Engine F σ} (he : Steady loaded delay s e)
    (h : steps.foldlM (Engine.step desk resume marks) e = .ok e') :
    Steady loaded delay s e' ∧ (FreshFills e'.portfolio ↔
      FreshFills e.portfolio ∧ Run.Along (Engine.step desk resume marks) PrintedSince e steps) := by
  have hsteady := Run.foldlM_inv (Steady loaded delay s)
    (fun _ _ _ hs hstep => hs.step hsorted hloaded (step_cases hstep)) steps e e' he h
  refine ⟨hsteady, Run.along_iff (Steady loaded delay s) (fun e => FreshFills e.portfolio) ?_ he h⟩
  intro e₁ t _ e₂ he₁ hstep
  have hcases := step_cases hstep
  refine ⟨he₁.step hsorted hloaded hcases, hcases.freshFills_iff ?_ he₁.delayed⟩
  rw [he₁.session]
  exact hsorted

theorem start_steady {desk : Desk F} {strategy : Strategy F} {session : SessionData} {date : Date}
    {e : Engine F strategy.State} (h : Engine.start desk strategy session date = .ok e)
    (loaded : SessionData → Prop) :
    Steady loaded desk.config.executionDelayNanos session e ∧ e.portfolio.journal.fills = [] := by
  obtain ⟨p₀, hp₀, hsession, _, _, hquiet⟩ := start_cases h
  obtain ⟨_, rfl⟩ := new_eq_ok.mp hp₀
  have hfills : e.portfolio.journal.fills = [] := hquiet.fills_eq
  refine ⟨{
    session := hsession
    delay_eq := hquiet.moves.sameTerms.delay
    kept := hquiet.reach.inv WellKept (wellKept_empty _ _ _) (fun _ _ _ hp hs => hp.apply hs)
    delayed := hquiet.moves.delayed (fun o ho => by simp [Portfolio.empty] at ho)
    genuine := fun f hf => by simp [hfills] at hf }, hfills⟩

end Engine

omit [Double F] in
/-- Trades and fills correspond, so the trades are fresh when the fills are. -/
theorem freshTrades_iff {loaded : SessionData → Prop} {p : Portfolio F} (hkept : WellKept p)
    (hgenuine : Engine.Genuine loaded p) : FreshTrades loaded p ↔ FreshFills p := by
  have htook : List.Forall₂ (Took loaded p.fills) p.orderTrades p.journal.fills := by
    have hall := Run.forall₂_and_right.mpr ⟨hkept.accounted.traded, hgenuine⟩
    refine hall.imp (fun t f ⟨hrec, hprice, hrow⟩ => ⟨hrec, ?_, ?_⟩)
    · rw [hrec.side, hrec.qty, hrec.price]
      exact hprice
    · rw [hrec.instrument]
      exact hrow
  unfold FreshTrades
  rw [Run.forall₂_and_right]
  exact ⟨fun h => h.2, fun h => ⟨htook, h⟩⟩

/-! ## A run over many sessions -/

/-- The condition over one date: it holds along the steps of the date's session. -/
def DayPrinted (desk : Desk F) (source : DataSource) (resume : σ → Script F σ) (c : Campaign F σ)
    (d : Date) : Prop :=
  ∀ s, source.load d = .ok (some s) →
    Run.Along (Engine.step desk resume true) PrintedSince (c.engine.bindSession s d) s.steps

/-- The sessions of a source on the given dates. -/
def DataSource.On (source : DataSource) (dates : List Date) (s : SessionData) : Prop :=
  ∃ d ∈ dates, source.load d = .ok (some s)

namespace Campaign

theorem nextDate_freshFills_iff {desk : Desk F} {config : BacktestConfig F} {source : DataSource}
    {resume : σ → Script F σ} {loaded : SessionData → Prop} {delay : Int} {c c' : Campaign F σ} {d : Date}
    (hsorted : ∀ s, source.load d = .ok (some s) → s.Sorted ∧ loaded s)
    (hc : Engine.Steady loaded delay c.engine.session c.engine)
    (h : c.nextDate desk config source resume d = .ok c') :
    Engine.Steady loaded delay c'.engine.session c'.engine ∧
      (FreshFills c'.engine.portfolio ↔ FreshFills c.engine.portfolio ∧ DayPrinted desk source resume c d) := by
  obtain ⟨found, hload, h⟩ := Run.bind_eq_ok.mp h
  cases found with
  | none =>
      cases h
      refine ⟨hc, ?_⟩
      simp only [DayPrinted, hload, Except.ok.injEq, reduceCtorEq, false_imp_iff, implies_true, and_true]
  | some s =>
      obtain ⟨⟨e', n⟩, hday, h⟩ := Run.bind_eq_ok.mp h
      cases h
      obtain ⟨e₁, hsteps, hend⟩ := Run.bind_eq_ok.mp hday
      obtain ⟨hs, hl⟩ := hsorted s hload
      have hstart : Engine.Steady loaded delay s (c.engine.bindSession s d) :=
        ⟨rfl, hc.delay_eq, hc.kept, hc.delayed, hc.genuine⟩
      obtain ⟨hsteady, hiff⟩ := Engine.steps_freshFills_iff loaded hs hl hstart hsteps
      -- the end of the session fills nothing
      have hended := Engine.endSession_cases hsteady.kept.matched hend
      have hsame : FreshFills e'.portfolio ↔ FreshFills e₁.portfolio := by
        unfold FreshFills
        rw [hended.closing.fills, hended.closing.terms.delay]
      refine ⟨⟨rfl, ?_, ?_, ?_, ?_⟩, ?_⟩
      · exact hended.closing.terms.delay.trans hsteady.delay_eq
      · exact hended.closing.reach.inv WellKept hsteady.kept (fun _ _ _ hp hs => hp.apply hs)
      · intro o ho
        rw [hended.idle] at ho
        cases ho
      · intro f hf
        rw [hended.closing.fills] at hf
        rw [hended.closing.terms.fills]
        exact hsteady.genuine f hf
      · refine hsame.trans (hiff.trans (and_congr_right (fun _ => ?_)))
        constructor
        · intro hall s' hs'
          rw [hload, Except.ok.injEq, Option.some.injEq] at hs'
          rw [← hs']
          exact hall
        · intro hall
          exact hall s hload

end Campaign

/-! ## Main result -/

/-- **When no order fills against a quote it has seen.** In a run over one session, and in a run over many,
    every execution takes its price from a quote of its instrument that printed after the order was submitted
    and no earlier than the execution delay allows, if and only if at every step of the run every order that
    is due, and that the fill model would execute, has seen its instrument print since. -/
theorem fills_fresh_iff_printed_since (underlying : UnderlyingId) (spot : InstrumentId)
    (strategy : Strategy F) :
    (∀ (config : RunConfig F) (session : SessionData), session.Sorted →
      ∀ e₀ e, Engine.start { underlying, spot, config } strategy session session.date = .ok e₀ →
        replaySession { underlying, spot, config } strategy session = .ok e →
        e.portfolio.delay = config.executionDelayNanos ∧
        (FreshTrades (· = session) e.portfolio ↔
          Run.Along (Engine.step { underlying, spot, config } strategy.resume false) PrintedSince e₀
            session.steps)) ∧
    (∀ (config : BacktestConfig F) (source : DataSource) (dates : List Date) (front : Date),
      (∀ s, source.On dates s → s.Sorted) →
      ∀ c₀ c, startCampaign (backtestDesk underlying spot config dates) source strategy front = .ok c₀ →
        replayDates (backtestDesk underlying spot config dates) config source strategy dates c₀ = .ok c →
        c.engine.portfolio.delay = config.executionDelayNanos ∧
        (FreshTrades (source.On dates) c.engine.portfolio ↔
          Run.Along (Campaign.nextDate (backtestDesk underlying spot config dates) config source strategy.resume)
            (DayPrinted (backtestDesk underlying spot config dates) source strategy.resume) c₀ dates)) := by
  refine ⟨fun config session hsorted e₀ e hstart hrun => ?_,
    fun config source dates front hsorted c₀ c hstart hrun => ?_⟩
  · obtain ⟨hsteady, hnone⟩ := Engine.start_steady hstart (· = session)
    simp only [replaySession, hstart, Run.ok_bind] at hrun
    obtain ⟨hend, hiff⟩ := Engine.steps_freshFills_iff (· = session) hsorted rfl hsteady hrun
    have hbegin : FreshFills e₀.portfolio := fun f hf => by simp [hnone] at hf
    refine ⟨hend.delay_eq, ?_⟩
    rw [freshTrades_iff hend.kept hend.genuine, hiff]
    exact and_iff_right hbegin
  · obtain ⟨found, _, hstart⟩ := Run.bind_eq_ok.mp hstart
    cases found with
    | none => cases hstart
    | some session =>
        obtain ⟨e₀, hengine, hstart⟩ := Run.bind_eq_ok.mp hstart
        cases hstart
        obtain ⟨hsteady, hnone⟩ := Engine.start_steady hengine (source.On dates)
        have hbegin : FreshFills e₀.portfolio := fun f hf => by simp [hnone] at hf
        have hday : ∀ d ∈ dates, ∀ s, source.load d = .ok (some s) → s.Sorted ∧ source.On dates s :=
          fun d hd s hs => ⟨hsorted s ⟨d, hd, hs⟩, d, hd, hs⟩
        have hstart : Engine.Steady (source.On dates) config.executionDelayNanos e₀.session e₀ := by
          rw [hsteady.session]
          exact hsteady
        have hend := Run.foldlM_inv_mem (fun c : Campaign F strategy.State =>
          Engine.Steady (source.On dates) config.executionDelayNanos c.engine.session c.engine) dates
          (fun c d hd c' hc hs => (Campaign.nextDate_freshFills_iff (hday d hd) hc hs).1) hstart hrun
        have hiff := Run.along_iff (fun c : Campaign F strategy.State =>
          Engine.Steady (source.On dates) config.executionDelayNanos c.engine.session c.engine)
          (fun c => FreshFills c.engine.portfolio)
          (fun c d hd c' hc hs => Campaign.nextDate_freshFills_iff (hday d hd) hc hs) hstart hrun
        refine ⟨hend.delay_eq, ?_⟩
        rw [freshTrades_iff hend.kept hend.genuine, hiff]
        exact and_iff_right hbegin

/-! ### A quiet strike -/

/-- The quotes of one instrument that prints at the given times, at one price. -/
def flatQuotes (times : List Int64) : QuoteColumns where
  ts := times
  last := times.map (fun _ => 100)
  bid := times.map (fun _ => 100)
  ask := times.map (fun _ => 101)
  bidQty := times.map (fun _ => 1)
  askQty := times.map (fun _ => 1)
  lastQty := times.map (fun _ => 1)
  openInterest := times.map (fun _ => 0)

/-- A session of one instrument that prints at the given times. -/
def flatSession (date : Date) (times : List Int64) : SessionData where
  date := date
  registry := ((({} : InstrumentRegistry).internUnderlying [78]).1.add { underlying := 0 }).1
  instruments := [0]
  quotes id := if id = 0 then flatQuotes times else {}
  totalObservations := times.length
  eventOrder := []
  timeline := []
  printedBy := SessionData.lookPrintedBy (fun id => if id = 0 then flatQuotes times else {})

theorem flatSession_contract (date : Date) {times : List Int64}
    (hasc : times.Pairwise (fun a b => a.toInt ≤ b.toInt)) (hlen : times.length < 2 ^ 32) :
    (flatSession date times).Contract := by
  have hquotes : ∀ P : QuoteColumns → Prop, P (flatQuotes times) → P {} → ∀ id,
      P ((flatSession date times).quotes id) := by
    intro P h h₀ id
    show P (if id = 0 then flatQuotes times else {})
    split_ifs
    · exact h
    · exact h₀
  exact {
    nodup := by simp [flatSession]
    listed := by
      intro id hid
      have hne : id ≠ 0 := by simpa [flatSession] using hid
      simp [flatSession, hne]
    aligned := hquotes _ (by constructor <;> simp [flatQuotes]) (by constructor <;> rfl)
    ascending := hquotes _ hasc (by simp [QuoteColumns.Ascending])
    located := hquotes (fun c => c.size < 2 ^ 32) hlen (by simp [QuoteColumns.size])
    total := by simp [flatSession, QuoteColumns.size, flatQuotes]
    eventOrder := .inl rfl
    timeline := .inl rfl
    printedBy := fun _ _ => rfl }

/-- A strike that prints once, and another instrument that prints twice. -/
def quietQuotes (id : InstrumentId) : QuoteColumns :=
  if id = 0 then flatQuotes [1] else if id = 1 then flatQuotes [1, 2] else {}

def quietSession : SessionData where
  date := ⟨20250701⟩
  registry := (((({} : InstrumentRegistry).internUnderlying [78]).1.add
    { underlying := 0, kind := .Option, expiry := ⟨20250703⟩, strike := 10000 }).1.add
    { underlying := 0, kind := .Option, expiry := ⟨20250703⟩, strike := 10100 }).1
  instruments := [0, 1]
  quotes := quietQuotes
  totalObservations := 3
  eventOrder := []
  timeline := [1, 2]
  printedBy := SessionData.lookPrintedBy quietQuotes

theorem quietQuotes_cases (P : QuoteColumns → Prop) (h₀ : P (flatQuotes [1])) (h₁ : P (flatQuotes [1, 2]))
    (h : P {}) (id : InstrumentId) : P (quietQuotes id) := by
  unfold quietQuotes
  split_ifs
  · exact h₀
  · exact h₁
  · exact h

theorem quietSession_contract : quietSession.Contract where
  nodup := by decide
  listed := by
    intro id hid
    have h₀ : id ≠ 0 := fun h => hid (by simp [h, quietSession])
    have h₁ : id ≠ 1 := fun h => hid (by simp [h, quietSession])
    simp [quietSession, quietQuotes, h₀, h₁]
  aligned := quietQuotes_cases _ (by constructor <;> rfl) (by constructor <;> rfl) (by constructor <;> rfl)
  ascending := quietQuotes_cases _ (by unfold QuoteColumns.Ascending; decide)
    (by unfold QuoteColumns.Ascending; decide) (by unfold QuoteColumns.Ascending; decide)
  located := quietQuotes_cases (fun c => c.size < 2 ^ 32) (by decide) (by decide) (by decide)
  total := by decide
  eventOrder := .inl rfl
  timeline := by
    refine .inr ⟨by decide, fun t => ⟨fun ht => ?_, ?_⟩⟩
    · simp only [quietSession, List.mem_cons, List.not_mem_nil, or_false] at ht
      obtain rfl | rfl := ht
      · exact ⟨0, by decide, 0, by decide, by decide⟩
      · exact ⟨1, by decide, 1, by decide, by decide⟩
    · rintro ⟨id, hid, i, hi, rfl⟩
      revert i
      revert id
      decide
  printedBy := fun _ _ => rfl

/-- Sells the first instrument once time 1 has come. -/
def sellAtOne : Strategy ℚ where
  State := Unit
  start := .await (atOrAfter 1) ()
  resume _ := .order (.sell [0] 1 "short") fun _ => .finish

def quietDesk : Desk ℚ where
  underlying := 0
  spot := -1
  config := { costs := some noCosts }

/-- At time 2 only the other instrument prints, and the order fills at the quote of time 1. -/
theorem quietRun : ∃ e, replaySession quietDesk sellAtOne quietSession = .ok e ∧
    ∃ f ∈ e.portfolio.journal.fills, f.order.submittedAt = 1 ∧ f.time = 2 ∧ f.quote.ts = 1 := by
  obtain ⟨e, hrun, htest⟩ := Run.exists_of_succeeds
    (fun e => e.portfolio.journal.fills.any
      (fun f => f.order.submittedAt == 1 && (f.time == 2 && f.quote.ts == 1)))
    (replaySession quietDesk sellAtOne quietSession) (by decide +kernel)
  obtain ⟨f, hf, hfields⟩ := List.any_eq_true.mp htest
  simp only [Bool.and_eq_true, beq_iff_eq] at hfields
  exact ⟨e, hrun, f, hf, hfields⟩

theorem quiet_strike_fills_at_seen_quote :
    quietSession.Contract ∧ ∃ e, replaySession quietDesk sellAtOne quietSession = .ok e ∧
      ¬ FreshTrades (· = quietSession) e.portfolio := by
  obtain ⟨e, hrun, f, hf, hsubmitted, _, hquote⟩ := quietRun
  refine ⟨quietSession_contract, e, hrun, fun hfresh => ?_⟩
  have hafter := ((Run.forall₂_and_right.mp hfresh).2 f hf).after_signal
  rw [hsubmitted, hquote] at hafter
  exact lt_irrefl _ hafter

/-- Sells the second instrument, which prints again at time 2, once time 1 has come. -/
def sellOtherAtOne : Strategy ℚ where
  State := Unit
  start := .await (atOrAfter 1) ()
  resume _ := .order (.sell [1] 1 "short") fun _ => .finish

/-- The run that sells the second instrument: its start, its state after time 1, and its end. -/
def otherRun : Except Error (Engine ℚ Unit × Engine ℚ Unit × Engine ℚ Unit) := do
  let e₀ ← Engine.start quietDesk sellOtherAtOne quietSession quietSession.date
  let e₁ ← Engine.step quietDesk sellOtherAtOne.resume false e₀ 1
  let e₂ ← Engine.step quietDesk sellOtherAtOne.resume false e₁ 2
  return (e₀, e₁, e₂)

/-- The condition holds along it: the order is due at time 2, when its instrument has printed. -/
theorem otherRun_printedSince {e₀ e₁ e₂ : Engine ℚ Unit} (h : otherRun = .ok (e₀, e₁, e₂))
    (hnone : e₀.portfolio.pending = [])
    (hone : ∀ o ∈ e₁.portfolio.pending, o.instrument = 1 ∧ o.submittedAt = 1 ∧ o.eligibleAt = 1) :
    Engine.start quietDesk sellOtherAtOne quietSession quietSession.date = .ok e₀ ∧
      replaySession quietDesk sellOtherAtOne quietSession = .ok e₂ ∧
      Run.Along (Engine.step quietDesk sellOtherAtOne.resume false) PrintedSince e₀ quietSession.steps := by
  obtain ⟨_, hstart, h⟩ := Run.bind_eq_ok.mp h
  obtain ⟨_, hfirst, h⟩ := Run.bind_eq_ok.mp h
  obtain ⟨_, hsecond, h⟩ := Run.bind_eq_ok.mp h
  cases h
  have hsession : e₁.session = quietSession := by
    rw [(Engine.step_cases hfirst).session, (Engine.start_cases hstart).choose_spec.2.1]
  refine ⟨hstart, ?_, ?_, fun e hstep => ?_⟩
  · refine Run.bind_eq_ok.mpr ⟨e₀, hstart, ?_⟩
    exact Run.foldlM_cons_ok.mpr ⟨e₁, hfirst, Run.foldlM_cons_ok.mpr ⟨e₂, hsecond, rfl⟩⟩
  · intro o ho
    rw [hnone] at ho
    cases ho
  · obtain rfl : e₁ = e := Except.ok.inj (hfirst.symm.trans hstep)
    refine ⟨fun o ho _ _ => ?_, fun _ _ => trivial⟩
    obtain ⟨hinst, hsubmitted, heligible⟩ := hone o ho
    refine ⟨1, ?_⟩
    rw [hsession, hinst, hsubmitted, heligible]
    decide

/-- The condition fails along the run that sells the first instrument. Along the other one it holds, and what it
    executes is fresh. -/
theorem fills_fresh_iff_printed_since_quiet :
    (∃ e₀, Engine.start quietDesk sellAtOne quietSession quietSession.date = .ok e₀ ∧
      ¬ Run.Along (Engine.step quietDesk sellAtOne.resume false) PrintedSince e₀ quietSession.steps) ∧
    ∃ e, replaySession quietDesk sellOtherAtOne quietSession = .ok e ∧ e.portfolio.trades.length = 1 ∧
      FreshTrades (· = quietSession) e.portfolio := by
  constructor
  · obtain ⟨e, hrun, f, hf, hsubmitted, _, hquote⟩ := quietRun
    obtain ⟨e₀, hstart, _⟩ := Run.bind_eq_ok.mp hrun
    refine ⟨e₀, hstart, fun halong => ?_⟩
    have hiff := ((fills_fresh_iff_printed_since 0 (-1) sellAtOne).1 { costs := some noCosts } quietSession
      quietSession_contract.ascending e₀ e hstart hrun).2
    have hafter := ((Run.forall₂_and_right.mp (hiff.mpr halong)).2 f hf).after_signal
    rw [hsubmitted, hquote] at hafter
    exact lt_irrefl _ hafter
  · obtain ⟨⟨e₀, e₁, e₂⟩, hrun, htest⟩ := Run.exists_of_succeeds
      (fun x => x.1.portfolio.pending = [] ∧
        (∀ o ∈ x.2.1.portfolio.pending, o.instrument = 1 ∧ o.submittedAt = 1 ∧ o.eligibleAt = 1) ∧
        x.2.2.portfolio.trades.length = 1) otherRun (by decide +kernel)
    obtain ⟨hnone, hone, htrades⟩ := of_decide_eq_true htest
    obtain ⟨hstart, hreplay, halong⟩ := otherRun_printedSince hrun hnone hone
    have hiff := ((fills_fresh_iff_printed_since 0 (-1) sellOtherAtOne).1 { costs := some noCosts } quietSession
      quietSession_contract.ascending e₀ e₂ hstart hreplay).2
    exact ⟨e₂, hreplay, htrades, hiff.mpr halong⟩

end Volforge
