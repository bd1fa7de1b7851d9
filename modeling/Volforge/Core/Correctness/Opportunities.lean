import Volforge.Core.Correctness.Fills

/-!
# `Core.Correctness.Opportunities` — an order fills at its first opportunity

A queued order has an opportunity at a timestamp where it is due and the fill model prices its instrument's standing
quote. The loop processes the whole queue before anything else happens at a timestamp: so an order fills at the first
opportunity after the instant it was submitted, in the same session, and one that still waits has had none.

## Contents
- **One pass.** `processPending_pending`: the pass keeps the orders without an opportunity.
- **One session.** `Attended`, its step and its run lemma.
- **The run.** `AttendedRun`, from one date to the next.
- **Main result.** `fills_at_first_opportunity`.
-/

namespace Volforge

variable {F : Type} [Double F] {σ : Type}

open Portfolio

/-! ## One pass -/

/-- The pass over the queue keeps the orders it does not fill. -/
theorem processPending_pending {market : MarketView} {p p' : Portfolio F} (h : p.processPending market = .ok p') :
    p'.pending = p.pending.filter (fun o => (fillOf p.fills market o).isNone) := by
  have hloop := Run.foldlM_inv_rest
    (I := fun rest q => q.fills = p.fills ∧
      q.pending ++ rest.filter (fun o => (fillOf p.fills market o).isNone) =
        p.pending.filter (fun o => (fillOf p.fills market o).isNone)) ?_ ⟨rfl, rfl⟩ h
  · simpa using hloop.2
  · rintro q o rest q' ⟨hmodel, hkept⟩ hstep
    obtain ⟨hmodel', _⟩ := processOrder_fills hstep
    refine ⟨hmodel'.trans hmodel, ?_⟩
    rw [← hkept, List.filter_cons, ← hmodel]
    unfold processOrder at hstep
    unfold fillOf
    split at hstep
    · next heq =>
        cases hstep
        simp [heq, keep]
    · next q₀ price heq =>
        obtain ⟨spec, _, hstep⟩ := Run.bind_eq_ok.mp hstep
        cases hstep
        simp [heq]

/-- What happens without a market only adds orders of the same instant. -/
theorem Portfolio.Moves.pending_cases {c : Scope} {p p' : Portfolio F} (hm : Moves c p p') {o : PendingOrder}
    (ho : o ∈ p'.pending) : o ∈ p.pending ∨ o.submittedAt = c.now := by
  have hall : ∀ o ∈ p'.pending, o ∈ p.pending ∨ o.submittedAt = c.now := by
    refine hm.inv (fun q => ∀ o ∈ q.pending, o ∈ p.pending ∨ o.submittedAt = c.now) ?_ (fun _ ho => .inl ho)
    intro q q' hq hmove o ho
    rcases hmove.pending_cases ho with ho | ⟨hnow, _⟩
    · exact hq o ho
    · exact .inr hnow
  exact hall o ho

/-! ## One session -/

/-- The order has had no opportunity at these timestamps. -/
def NoneMissed (fills : FillModel F) (s : SessionData) (done : List Timestamp) (o : PendingOrder) : Prop :=
  ∀ u ∈ done, o.submittedAt < u → fillOf fills (s.view u) o = none

/-- The execution is the first opportunity its order had at these timestamps. -/
structure FirstOf (fills : FillModel F) (delay : Int) (s : SessionData) (done : List Timestamp) (f : Fill) : Prop where
  step : f.time ∈ done
  signalled : f.order.submittedAt < f.time
  delayed : f.order.eligibleAt = f.order.submittedAt + delay
  taken : fillOf fills (s.view f.time) f.order = some f
  first : NoneMissed fills s (done.filter (· < f.time)) f.order

omit [Double F] in
/-- Later timestamps do not come before an execution. -/
theorem FirstOf.concat {fills : FillModel F} {delay : Int} {s : SessionData} {done : List Timestamp} {f : Fill}
    (h : FirstOf fills delay s done f) {t : Timestamp} (ht : f.time ≤ t) : FirstOf fills delay s (done ++ [t]) f where
  step := List.mem_append_left _ h.step
  signalled := h.signalled
  delayed := h.delayed
  taken := h.taken
  first := by
    have hlater : [t].filter (· < f.time) = [] := by
      simp [ht]
    rw [List.filter_append, hlater, List.append_nil]
    exact h.first

namespace Engine

/-- **The invariant of a session's steps**: no order of the queue has missed an opportunity, and every execution of the
    session took its order's first one. -/
structure Attended (e₀ : Engine F σ) (done rest : List Timestamp) (e : Engine F σ) : Prop where
  day : Day e₀ rest e
  behind : ∀ u ∈ done, u ≤ e.clock
  waiting : ∀ o ∈ e.portfolio.pending, NoneMissed e₀.portfolio.fills e₀.session done o
  taken : ∃ new, e.portfolio.journal.fills = e₀.portfolio.journal.fills ++ new ∧
    ∀ f ∈ new, FirstOf e₀.portfolio.fills e₀.portfolio.delay e₀.session done f

/-- The step lemma. -/
theorem Attended.step {e₀ e e' : Engine F σ} {done rest : List Timestamp} {t : Timestamp}
    (h : Attended e₀ done (t :: rest) e) (hstep : Stepped e t e') : Attended e₀ (done ++ [t]) rest e' := by
  obtain ⟨p, hp, hquiet⟩ := hstep.portfolio
  have hkept := processPending_pending hp
  have hnew := hstep.fills
  have hsession := h.day.session
  have hterms := h.day.terms
  rw [hterms.fills, hsession] at hkept hnew
  have hbehind : ∀ u ∈ done ++ [t], u ≤ t := by
    intro u hu
    rcases List.mem_append.mp hu with hu | hu
    · exact le_trans (h.behind u hu) hstep.forward
    · exact le_of_eq (List.mem_singleton.mp hu)
  refine ⟨h.day.step hstep, ?_, ?_, ?_⟩
  · rw [hstep.clock]
    exact hbehind
  · intro o ho u hu hsignal
    rcases hquiet.moves.pending_cases ho with ho | hnow
    · rw [hkept, List.mem_filter] at ho
      rcases List.mem_append.mp hu with hu | hu
      · exact h.waiting o ho.1 u hu hsignal
      · rw [List.mem_singleton.mp hu]
        simpa using ho.2
    · -- submitted at this very instant
      have hsubmitted : o.submittedAt = t := hnow
      exact absurd (hbehind u hu) (not_le.mpr (hsubmitted ▸ hsignal))
  · obtain ⟨old, hold, hall⟩ := h.taken
    refine ⟨old ++ e.portfolio.pending.filterMap (fillOf e₀.portfolio.fills (e₀.session.view t)), ?_, ?_⟩
    · rw [hnew, hold, List.append_assoc]
    · intro f hf
      rcases List.mem_append.mp hf with hf | hf
      · exact (hall f hf).concat (hbehind f.time (List.mem_append_left _ (hall f hf).step))
      · obtain ⟨o, ho, hfill⟩ := List.mem_filterMap.mp hf
        obtain ⟨_, rfl, htime, _, _⟩ := fillOf_eq_some.mp hfill
        have htime : f.time = t := htime
        have hclock : e.clock < t := by
          rcases h.day.waiting with hempty | hlater
          · simp [hempty] at ho
          · exact hlater t (List.mem_cons_self ..)
        refine ⟨?_, ?_, ?_, ?_, ?_⟩
        · rw [htime]
          exact List.mem_append_right _ (List.mem_singleton_self t)
        · rw [htime]
          exact lt_of_le_of_lt (h.day.submitted f.order ho).2 hclock
        · rw [h.day.delayed f.order ho, hterms.delay]
        · rw [htime]
          exact hfill
        · intro u hu hsignal
          obtain ⟨hu, hlt⟩ := List.mem_filter.mp hu
          rcases List.mem_append.mp hu with hu | hu
          · exact h.waiting f.order ho u hu hsignal
          · simp [List.mem_singleton.mp hu, htime] at hlt

/-- The run lemma. -/
theorem Attended.run {desk : Desk F} {resume : σ → Script F σ} {marks : Bool} {e₀ e e' : Engine F σ}
    {done rest : List Timestamp} (h : Attended e₀ done rest e)
    (hrun : rest.foldlM (Engine.step desk resume marks) e = .ok e') : Attended e₀ (done ++ rest) [] e' := by
  induction rest generalizing done e with
  | nil =>
      cases hrun
      rwa [List.append_nil]
  | cons t rest ih =>
      obtain ⟨e₁, hstep, hrun⟩ := Run.foldlM_cons_ok.mp hrun
      have h' := ih (h.step (step_cases hstep)) hrun
      rwa [List.append_assoc] at h'

/-- A session begins with orders submitted before its first timestamp, if any. -/
theorem attended_start {e : Engine F σ} {steps : List Timestamp} (hdelayed : Delayed e.portfolio)
    (hsubmitted : SubmittedIn e.clock e.clock e.portfolio)
    (hwaiting : e.portfolio.pending = [] ∨ ∀ t ∈ steps, e.clock < t) (hasc : steps.Pairwise (· < ·)) :
    Attended e [] steps e where
  day := {
    session := rfl
    date := rfl
    forward := le_refl _
    reach := .init
    terms := .refl _
    delayed := hdelayed
    submitted := hsubmitted
    trades := ⟨[], by simp, .nil, by simp⟩
    waiting := hwaiting
    ascending := hasc }
  behind u hu := by cases hu
  waiting o _ u hu := by cases hu
  taken := ⟨[], by simp, fun f hf => by cases hf⟩

end Engine

/-! ## The run -/

/-- Every execution of the run took its order's first opportunity, in one of the sessions. -/
def AllFirst (loaded : SessionData → Prop) (fills : FillModel F) (delay : Int) (p : Portfolio F) : Prop :=
  ∀ f ∈ p.journal.fills, ∃ s, loaded s ∧ FirstOf fills delay s s.steps f

/-- A session adds executions that took their orders' first opportunities. -/
theorem Engine.Attended.allFirst {loaded : SessionData → Prop} {e₀ e : Engine F σ} (hloaded : loaded e₀.session)
    (h : Engine.Attended e₀ e₀.session.steps [] e)
    (hall : AllFirst loaded e₀.portfolio.fills e₀.portfolio.delay e₀.portfolio) :
    AllFirst loaded e₀.portfolio.fills e₀.portfolio.delay e.portfolio := by
  obtain ⟨new, hnew, hfirst⟩ := h.taken
  intro f hf
  rw [hnew] at hf
  rcases List.mem_append.mp hf with hf | hf
  · exact hall f hf
  · exact ⟨e₀.session, hloaded, hfirst f hf⟩

/-- The step lemma of the run. -/
theorem Campaign.nextDate_allFirst {desk : Desk F} {config : BacktestConfig F} {source : DataSource}
    {resume : σ → Script F σ} {fills fills₀ : FillModel F} {delay : Int} {costs : CostPolicy}
    {loaded : SessionData → Prop} {c c' : Campaign F σ} {date : Date} (hc : Orderly fills₀ delay costs c)
    (hmodel : c.engine.portfolio.fills = fills)
    (hsource : ∀ s, source.load date = .ok (some s) → s.Ascends ∧ loaded s)
    (hall : AllFirst loaded fills delay c.engine.portfolio)
    (h : c.nextDate desk config source resume date = .ok c') :
    c'.engine.portfolio.fills = fills ∧ AllFirst loaded fills delay c'.engine.portfolio := by
  obtain ⟨found, hload, h⟩ := Run.bind_eq_ok.mp h
  cases found with
  | none =>
      cases h
      exact ⟨hmodel, hall⟩
  | some session =>
      obtain ⟨⟨e', n⟩, hday, h⟩ := Run.bind_eq_ok.mp h
      cases h
      obtain ⟨e₁, hsteps, hend⟩ := Run.bind_eq_ok.mp hday
      obtain ⟨⟨hasc, hpos⟩, hloaded⟩ := hsource session hload
      have hwaiting : c.engine.portfolio.pending = [] ∨ ∀ t ∈ session.steps, c.engine.clock < t := by
        rcases hc.waiting with hempty | hzero
        · exact .inl hempty
        · exact .inr (fun t ht => hzero ▸ hpos t ht)
      have hstart : Engine.Attended (c.engine.bindSession session date) [] session.steps
          (c.engine.bindSession session date) :=
        Engine.attended_start hc.delayed hc.submitted hwaiting hasc
      have hdone := hstart.run hsteps
      rw [List.nil_append] at hdone
      have hmat : Matched noneExpired e₁.portfolio :=
        hdone.day.reach.inv (Matched noneExpired) hc.reach.matched (fun _ _ _ hp hs => (apply_moves hp hs).2)
      have hended := Engine.endSession_cases hmat hend
      have hbound : (c.engine.bindSession session date).portfolio = c.engine.portfolio := rfl
      have hloaded : loaded (c.engine.bindSession session date).session := hloaded
      have hfirst := hdone.allFirst hloaded (by rwa [hbound, hmodel, hc.delay_eq])
      rw [hbound, hmodel, hc.delay_eq] at hfirst
      refine ⟨?_, ?_⟩
      · have hterms := hdone.day.terms.trans hended.closing.terms
        exact hterms.fills.trans hmodel
      · -- the end of the session fills nothing
        intro f hf
        have hsame : e'.portfolio.journal.fills = e₁.portfolio.journal.fills := hended.closing.fills
        exact hfirst f (hsame ▸ hf)

/-- Before the first session nothing has filled. -/
theorem Campaign.startCampaign_fills {desk : Desk F} {source : DataSource} {strategy : Strategy F} {front : Date}
    {c : Campaign F strategy.State} (h : startCampaign desk source strategy front = .ok c) :
    c.engine.portfolio.fills = desk.config.fills.getD crossSpreadFill ∧ c.engine.portfolio.journal.fills = [] := by
  obtain ⟨loaded, _, h⟩ := Run.bind_eq_ok.mp h
  cases loaded with
  | none => cases h
  | some session =>
      obtain ⟨e, hstart, h⟩ := Run.bind_eq_ok.mp h
      cases h
      obtain ⟨p₀, hp₀, _, _, _, hquiet⟩ := Engine.start_cases hstart
      obtain ⟨_, rfl⟩ := new_eq_ok.mp hp₀
      exact ⟨hquiet.moves.sameTerms.fills, hquiet.fills_eq⟩

/-! ## Main result -/

/-- The trade was made at the first of these timestamps, after its signal and the execution delay, at which the fill
    model prices the standing quote of its instrument, and at that price. -/
structure TookFirst (fills : FillModel F) (delay : Int) (s : SessionData) (steps : List Timestamp) (t : TradeRecord) :
    Prop where
  step : t.fillTs ∈ steps
  signalled : t.signalTs < t.fillTs
  due : t.signalTs + delay ≤ t.fillTs
  priced : ∃ q, (s.view t.fillTs).current t.instrument = some q ∧ fills.fill q t.side t.qty = some t.price
  first : ∀ u ∈ steps, t.signalTs < u → t.signalTs + delay ≤ u → u < t.fillTs →
    ∀ q, (s.view u).current t.instrument = some q → fills.fill q t.side t.qty = none

omit [Double F] in
theorem FirstOf.tookFirst {fills : FillModel F} {delay : Int} {s : SessionData} {steps : List Timestamp} {f : Fill}
    (h : FirstOf fills delay s steps f) {t : TradeRecord} (ht : Records t f) : TookFirst fills delay s steps t := by
  obtain ⟨hdue, _, _, hquote, hprice⟩ := fillOf_eq_some.mp h.taken
  have hdue : f.order.eligibleAt ≤ f.time := hdue
  constructor
  · rw [ht.fillTs]
    exact h.step
  · rw [ht.signalTs, ht.fillTs]
    exact h.signalled
  · rw [ht.signalTs, ht.fillTs, ← h.delayed]
    exact hdue
  · rw [ht.fillTs, ht.instrument, ht.side, ht.qty, ht.price]
    exact ⟨f.quote, hquote, hprice⟩
  · intro u hu hsignal heligible hbefore q hq
    rw [ht.signalTs] at hsignal heligible
    rw [ht.fillTs] at hbefore
    rw [ht.instrument] at hq
    rw [ht.side, ht.qty]
    have hnone := h.first u (List.mem_filter.mpr ⟨hu, decide_eq_true hbefore⟩) hsignal
    cases hmodel : fills.fill q f.order.side f.order.qty with
    | none => rfl
    | some price =>
        have hsome : fillOf fills (s.view u) f.order =
            some { order := f.order, quote := q, price := price, time := u } :=
          fillOf_eq_some.mpr ⟨by rwa [h.delayed], rfl, rfl, hq, hmodel⟩
        rw [hnone] at hsome
        cases hsome

omit [Double F] in
/-- Every trade that is no settlement records an execution. -/
theorem Portfolio.Accounted.records {p : Portfolio F} (h : Accounted p) {t : TradeRecord} (ht : t ∈ p.trades)
    (hset : t.settled = false) : ∃ f ∈ p.journal.fills, Records t f := by
  have hmem : t ∈ p.orderTrades := List.mem_filter.mpr ⟨ht, by simp [hset]⟩
  obtain ⟨i, hi, rfl⟩ := List.getElem_of_mem hmem
  obtain ⟨hlen, hall⟩ := List.forall₂_iff_get.mp h.traded
  exact ⟨_, List.getElem_mem (hlen ▸ hi), hall i hi (hlen ▸ hi)⟩

/-- **An order fills at its first opportunity.** At every moment of a run over one session, every trade was made at the
    first timestamp, after its signal and the execution delay, at which the fill model prices the standing quote of its
    instrument; and no order that waits has had such a timestamp. In a run over many sessions the same is true of every
    trade that is no settlement, within one of the sessions. -/
theorem fills_at_first_opportunity (underlying : UnderlyingId) (spot : InstrumentId) (strategy : Strategy F) :
    (∀ (config : RunConfig F) (session : SessionData), session.Ascends →
      ∀ e₀, Engine.start { underlying, spot, config } strategy session session.date = .ok e₀ →
      ∀ done rest, session.steps = done ++ rest →
      ∀ e, done.foldlM (Engine.step { underlying, spot, config } strategy.resume false) e₀ = .ok e →
        (∀ t ∈ e.portfolio.trades, t.settled = false →
          TookFirst (config.fills.getD crossSpreadFill) config.executionDelayNanos session done t) ∧
        ∀ o ∈ e.portfolio.pending, NoneMissed (config.fills.getD crossSpreadFill) session done o) ∧
    (∀ (config : BacktestConfig F) (source : DataSource) (dates : List Date) (result : BacktestResult),
      (∀ s, source.On (if dates.isEmpty then source.sessions else dates) s → s.Ascends) →
      runBacktest source underlying spot strategy config dates = .ok result →
      ∀ t ∈ result.tradeLog, t.settled = false →
        ∃ s, source.On (if dates.isEmpty then source.sessions else dates) s ∧
          TookFirst (config.fills.getD crossSpreadFill) config.executionDelayNanos s s.steps t) := by
  refine ⟨?_, ?_⟩
  · intro config session hasc e₀ hstart done rest hsteps e hrun
    obtain ⟨p₀, hp₀, hsession, _, hclock, hquiet⟩ := Engine.start_cases hstart
    obtain ⟨_, rfl⟩ := new_eq_ok.mp hp₀
    obtain ⟨hsorted, hpos⟩ := hasc
    rw [hsteps] at hsorted hpos
    have hnone : ∀ o ∈ (Portfolio.empty (F := F) (config.fills.getD crossSpreadFill) config.executionDelayNanos
        (config.costs.getD (defaultCostPolicy F))).pending, False := by
      simp [Portfolio.empty]
    have hsubmitted : SubmittedIn e₀.clock e₀.clock e₀.portfolio := by
      rw [hclock]
      exact hquiet.moves.submittedIn (le_refl 0) (le_refl 0) (fun o ho => (hnone o ho).elim)
    have hwaiting : ∀ t ∈ done, e₀.clock < t := fun t ht => hclock ▸ hpos t (List.mem_append_left _ ht)
    have hattended := (Engine.attended_start (hquiet.moves.delayed (fun o ho => (hnone o ho).elim)) hsubmitted
      (.inr hwaiting) (List.pairwise_append.mp hsorted).1).run hrun
    have hmodel : e₀.portfolio.fills = config.fills.getD crossSpreadFill := hquiet.moves.sameTerms.fills
    have hdelay : e₀.portfolio.delay = config.executionDelayNanos := hquiet.moves.sameTerms.delay
    have hkept : WellKept e.portfolio :=
      (hquiet.reach.trans hattended.day.reach).inv WellKept (wellKept_empty _ _ _) (fun _ _ _ hp hs => hp.apply hs)
    have hnofills : e₀.portfolio.journal.fills = [] := hquiet.fills_eq
    obtain ⟨new, hnew, hfirst⟩ := hattended.taken
    rw [hnofills, List.nil_append] at hnew
    rw [hmodel, hdelay, hsession, List.nil_append] at hfirst
    refine ⟨?_, ?_⟩
    · intro t ht hset
      obtain ⟨f, hf, hrecords⟩ := hkept.accounted.records ht hset
      rw [hnew] at hf
      exact (hfirst f hf).tookFirst hrecords
    · intro o ho
      have hwaits := hattended.waiting o ho
      rwa [hmodel, hsession, List.nil_append] at hwaits
  · intro config source dates result hsource h
    unfold runBacktest at h
    dsimp only at h
    generalize (if dates.isEmpty then source.sessions else dates) = days at h hsource ⊢
    obtain ⟨_, h⟩ := Run.guard_eq_ok.mp h
    obtain ⟨_, _, h⟩ := Run.bind_eq_ok.mp h
    cases days with
    | nil =>
        cases h
        intro t ht
        cases ht
    | cons front rest =>
        obtain ⟨c₀, hstart, h⟩ := Run.bind_eq_ok.mp h
        obtain ⟨c, hrun, h⟩ := Run.bind_eq_ok.mp h
        cases h
        obtain ⟨fills, costs, horderly⟩ := Campaign.startCampaign_orderly hstart
        obtain ⟨hmodel, hnofills⟩ := Campaign.startCampaign_fills hstart
        have hall : AllFirst (source.On (front :: rest)) (config.fills.getD crossSpreadFill) config.executionDelayNanos
            c₀.engine.portfolio := by
          intro f hf
          rw [hnofills] at hf
          cases hf
        have hend := Run.foldlM_inv_mem
          (fun c : Campaign F strategy.State => Orderly fills config.executionDelayNanos costs c ∧
            c.engine.portfolio.fills = config.fills.getD crossSpreadFill ∧
            AllFirst (source.On (front :: rest)) (config.fills.getD crossSpreadFill) config.executionDelayNanos
              c.engine.portfolio) (front :: rest) ?_ ⟨horderly, hmodel, hall⟩ hrun
        · obtain ⟨horderly', _, hall'⟩ := hend
          intro t ht hset
          have hkept : WellKept c.engine.portfolio :=
            horderly'.reach.inv WellKept (wellKept_empty _ _ _) (fun _ _ _ hp hs => hp.apply hs)
          obtain ⟨f, hf, hrecords⟩ := hkept.accounted.records ht hset
          obtain ⟨s, hs, hfirst⟩ := hall' f hf
          exact ⟨s, hs, hfirst.tookFirst hrecords⟩
        · rintro c₁ d hd c₂ ⟨horderly₁, hmodel₁, hall₁⟩ hstep
          have hday : ∀ s, source.load d = .ok (some s) → s.Ascends ∧ source.On (front :: rest) s :=
            fun s hs => ⟨hsource s ⟨d, hd, hs⟩, d, hd, hs⟩
          obtain ⟨hmodel₂, hall₂⟩ := Campaign.nextDate_allFirst horderly₁ hmodel₁ hday hall₁ hstep
          exact ⟨(Campaign.nextDate_cases horderly₁ (fun s hs => (hday s hs).1) hstep).1, hmodel₂, hall₂⟩

/-- One order in a run over one session, and one in a run over many. -/
theorem fills_at_first_opportunity_bought :
    (∃ e, replaySession quietDesk sellAtOne quietSession = .ok e ∧ e.portfolio.trades.length = 1 ∧
      ∀ t ∈ e.portfolio.trades, t.settled = false →
        TookFirst (crossSpreadFill (F := ℚ)) 0 quietSession quietSession.steps t) ∧
    ∃ result, runBacktest undatedSource 0 (-1) buyFirst undatedConfig [] = .ok result ∧ result.tradeLog.length = 1 ∧
      ∀ t ∈ result.tradeLog, t.settled = false →
        ∃ s, undatedSource.On undatedSource.sessions s ∧ TookFirst (crossSpreadFill (F := ℚ)) 0 s s.steps t := by
  constructor
  · obtain ⟨e, hrun, htest⟩ := Run.exists_of_succeeds (fun e => e.portfolio.trades.length == 1)
      (replaySession quietDesk sellAtOne quietSession) (by decide +kernel)
    obtain ⟨e₀, hstart, hsteps⟩ := Run.bind_eq_ok.mp hrun
    have hasc : quietSession.Ascends := ⟨by decide +kernel, by decide +kernel⟩
    exact ⟨e, hrun, beq_iff_eq.mp htest, ((fills_at_first_opportunity 0 (-1) sellAtOne).1 quietDesk.config
      quietSession hasc e₀ hstart quietSession.steps [] (by simp) e hsteps).1⟩
  · obtain ⟨result, h, htest⟩ := Run.exists_of_succeeds (fun r : BacktestResult => r.tradeLog.length == 1)
      (runBacktest undatedSource 0 (-1) buyFirst undatedConfig []) (by decide +kernel)
    refine ⟨result, h, beq_iff_eq.mp htest, ?_⟩
    exact (fills_at_first_opportunity 0 (-1) buyFirst).2 undatedConfig undatedSource [] result
      (fun s ⟨d, hd, hs⟩ => undatedSource_ascends d hd s hs) h

end Volforge
