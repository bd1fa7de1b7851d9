import Volforge.Core.Correctness.Books
import Volforge.Core.Correctness.Sessions

/-!
# `Core.Correctness.DailyAccounts` — the sessions of a run add up to it

A run reports each of its sessions, and at the end itself. The trade log is what both are about: it falls into one
part for each session, and every figure of a session is what the parts up to it say.

## Contents
- **What is logged.** Cancelling logs nothing, a settlement counts the legs it logs.
- **One session.** `runDay_logs`: the trades it adds, and how many of them settle.
- **The run.** `Accounts`, its step and its run lemma.
- **Main result.** `sessions_add_up`.
-/

namespace Volforge

variable {F : Type} [Double F] {σ : Type}

open Portfolio

/-! ## What is logged -/

namespace Portfolio

/-- Nothing was logged, and nothing settled. -/
def SameLog (p q : Portfolio F) : Prop := q.trades = p.trades ∧ q.settledLegs = p.settledLegs

omit [Double F] in
theorem abandonOrder_sameLog (acc : Portfolio F × List PositionId) (o : PendingOrder) :
    SameLog acc.1 (abandonOrder acc o).1 := by
  unfold abandonOrder
  dsimp only
  split
  · exact ⟨rfl, rfl⟩
  · split_ifs <;> exact ⟨rfl, rfl⟩

omit [Double F] in
theorem cancelWorkingOrders_sameLog {p p' : Portfolio F} {n : Nat} (h : p.cancelWorkingOrders = .ok (p', n)) :
    SameLog p p' := by
  have hloop : SameLog p (p.pending.foldl abandonOrder ({ p with pending := [] }, [])).1 := by
    apply Run.foldl_inv (fun acc : Portfolio F × List PositionId => SameLog p acc.1)
    · intro acc o _ hacc
      have hstep := abandonOrder_sameLog acc o
      exact ⟨hstep.1.trans hacc.1, hstep.2.trans hacc.2⟩
    · exact ⟨rfl, rfl⟩
  obtain ⟨rules, _, h⟩ := Run.bind_eq_ok.mp h
  cases h
  exact hloop

omit [Double F] in
theorem dropIfExpired_sameLog {market : MarketView} {expiry : Date} {p p' : Portfolio F} {o : PendingOrder}
    (h : dropIfExpired market expiry p o = .ok p') : SameLog p p' := by
  obtain ⟨spec, _, h⟩ := Run.bind_eq_ok.mp h
  split at h
  · split at h
    · split at h
      · cases h
        exact ⟨rfl, rfl⟩
      · cases h
        exact ⟨rfl, rfl⟩
    · cases h
      exact ⟨rfl, rfl⟩
  · cases h
    exact ⟨rfl, rfl⟩

/-- What a settlement logs, and how many legs it counts. -/
structure Settles (p p' : Portfolio F) (n : Nat) : Prop where
  log : ∃ new, p'.trades = p.trades ++ new ∧ (∀ t ∈ new, t.settled = true) ∧ new.length = n
  count : p'.settledLegs = p.settledLegs + n

theorem settleIfDue_settles {market : MarketView} {expiry : Date} {level : F} {now : Timestamp} {p p' : Portfolio F}
    {slot : PositionId × Nat} (h : settleIfDue market expiry level now p slot = .ok p') :
    SameLog p p' ∨ Settles p p' 1 := by
  unfold settleIfDue at h
  split at h
  · cases h
    exact .inl ⟨rfl, rfl⟩
  · split at h
    · cases h
      exact .inl ⟨rfl, rfl⟩
    · obtain ⟨spec, _, h⟩ := Run.bind_eq_ok.mp h
      split at h
      · cases h
        exact .inl ⟨rfl, rfl⟩
      · cases h
        refine .inr ⟨⟨[_], rfl, ?_, rfl⟩, rfl⟩
        intro t ht
        rw [List.mem_singleton.mp ht]

/-- A settlement answers with the number of legs it logs. -/
theorem settleExpiry_settles {market : MarketView} {expiry : Date} {level : F} {now : Timestamp} {p p' : Portfolio F}
    {n : Nat} (h : p.settleExpiry market expiry level now = .ok (p', n)) : Settles p p' n := by
  obtain ⟨p₁, hlegs, h⟩ := Run.bind_eq_ok.mp h
  obtain ⟨p₂, horders, h⟩ := Run.bind_eq_ok.mp h
  cases h
  have hsettled : ∃ k, Settles p p₁ k := by
    refine Run.foldlM_inv (fun q => ∃ k, Settles p q k) ?_ _ _ _ ⟨0, ⟨[], by simp, nofun, rfl⟩, rfl⟩ hlegs
    rintro q slot q' ⟨k, ⟨new, hnew, hall, hlen⟩, hcount⟩ hstep
    rcases settleIfDue_settles hstep with ⟨hlog, hlegs⟩ | ⟨⟨more, hmore, hall', hlen'⟩, hcount'⟩
    · exact ⟨k, ⟨new, hlog.trans hnew, hall, hlen⟩, hlegs.trans hcount⟩
    · refine ⟨k + 1, ⟨new ++ more, ?_, ?_, ?_⟩, ?_⟩
      · rw [hmore, hnew, List.append_assoc]
      · intro t ht
        rcases List.mem_append.mp ht with hold | hin
        · exact hall t hold
        · exact hall' t hin
      · rw [List.length_append, hlen, hlen']
      · rw [hcount', hcount, Nat.add_assoc]
  have hdropped : SameLog p₁ p' := by
    have hstart : SameLog p₁ { p₁ with pending := [] } := ⟨rfl, rfl⟩
    refine Run.foldlM_inv (fun q => SameLog p₁ q) ?_ _ _ _ hstart horders
    intro q o q' hq hstep
    have hdrop := dropIfExpired_sameLog hstep
    exact ⟨hdrop.1.trans hq.1, hdrop.2.trans hq.2⟩
  obtain ⟨k, ⟨new, hnew, hall, hlen⟩, hcount⟩ := hsettled
  have hanswer : p₁.settledLegs - p.settledLegs = k := by omega
  rw [hanswer]
  exact ⟨⟨new, hdropped.1.trans hnew, hall, hlen⟩, hdropped.2.trans hcount⟩

end Portfolio

/-! ## One session -/

/-- What a session adds to the log, of which `n` trades are settlements. -/
structure Logs (p p' : Portfolio F) (n : Nat) : Prop where
  reach : Run.Reach apply p p'
  log : ∃ new, p'.trades = p.trades ++ new ∧ (new.filter (·.settled)).length = n

theorem Logs.trans {p q r : Portfolio F} {m n : Nat} (h : Logs p q m) (h' : Logs q r n) : Logs p r (m + n) := by
  obtain ⟨new, hnew, hm⟩ := h.log
  obtain ⟨more, hmore, hn⟩ := h'.log
  refine ⟨h.reach.trans h'.reach, new ++ more, ?_, ?_⟩
  · rw [hmore, hnew, List.append_assoc]
  · rw [List.filter_append, List.length_append, hm, hn]

theorem Logs.refl (p : Portfolio F) : Logs p p 0 := ⟨.init, [], by simp, rfl⟩

namespace Engine

/-- A step settles nothing. -/
theorem Stepped.logs {e e' : Engine F σ} {t : Timestamp} (h : Stepped e t e') : Logs e.portfolio e'.portfolio 0 := by
  refine ⟨h.reach, ?_⟩
  obtain ⟨p, hp, hquiet⟩ := h.portfolio
  obtain ⟨new, hnew, hall⟩ := processPending_trades hp
  refine ⟨new, hquiet.trades_eq.trans hnew, ?_⟩
  rw [List.length_eq_zero_iff, List.filter_eq_nil_iff]
  intro x hx
  simp [(hall x hx).1]

/-- The steps of a session, in the session and on the date they started with. -/
theorem steps_logs {desk : Desk F} {resume : σ → Script F σ} {steps : List Timestamp} {e e' : Engine F σ}
    (h : steps.foldlM (Engine.step desk resume true) e = .ok e') :
    Logs e.portfolio e'.portfolio 0 ∧ e'.date = e.date := by
  refine Run.foldlM_inv (fun q : Engine F σ => Logs e.portfolio q.portfolio 0 ∧ q.date = e.date) ?_ _ _ _
    ⟨.refl _, rfl⟩ h
  rintro q t q' ⟨hlogs, hdate⟩ hstep
  have hstepped := step_cases hstep
  exact ⟨hlogs.trans hstepped.logs, hstepped.date.trans hdate⟩

/-- The settlements at the end of a session log as many trades as they count. -/
theorem settleDues_logs {desk : Desk F} {handling : ExpiryHandling} {due : List Date} {e : Engine F σ}
    {acc : Engine F σ × Nat} (h : due.foldlM (settleDue desk handling) (e, 0) = .ok acc) :
    Logs e.portfolio acc.1.portfolio acc.2 ∧ acc.1.date = e.date := by
  refine Run.foldlM_inv (fun acc : Engine F σ × Nat => Logs e.portfolio acc.1.portfolio acc.2 ∧ acc.1.date = e.date)
    ?_ _ _ _ ⟨.refl _, rfl⟩ h
  rintro ⟨q, k⟩ expiry acc' ⟨hlogs, hdate⟩ hstep
  unfold settleDue at hstep
  dsimp only at hstep
  obtain ⟨_, hstep⟩ := Run.guard_eq_ok.mp hstep
  split at hstep
  · cases hstep
  · next level hlevel =>
    obtain ⟨⟨p, n⟩, hsettle, hstep⟩ := Run.bind_eq_ok.mp hstep
    cases hstep
    refine ⟨hlogs.trans ⟨?_, ?_⟩, hdate⟩
    · exact .step (e := .settleExpiry q.market expiry level q.clock) .init (by simp [apply, hsettle])
    · obtain ⟨new, hnew, hall, hlen⟩ := (settleExpiry_settles hsettle).log
      refine ⟨new, hnew, ?_⟩
      rw [List.filter_eq_self.mpr hall, hlen]

/-- **One session** logs its fills and its settlements, and counts the latter. -/
theorem runDay_logs {desk : Desk F} {config : BacktestConfig F} {resume : σ → Script F σ} {e e' : Engine F σ}
    {session : SessionData} {date : Date} {n : Nat} (h : e.runDay desk config resume session date = .ok (e', n)) :
    Logs e.portfolio e'.portfolio n ∧ e'.date = date := by
  obtain ⟨e₁, hsteps, hend⟩ := Run.bind_eq_ok.mp h
  obtain ⟨hlogs, hdate⟩ := steps_logs hsteps
  unfold endSession at hend
  dsimp only at hend
  obtain ⟨_, hdate₀, hportfolio₀, _⟩ := toSettlement_cases config e₁
  obtain ⟨due, _, hend⟩ := Run.bind_eq_ok.mp hend
  obtain ⟨⟨e₂, k⟩, hsettle, hend⟩ := Run.bind_eq_ok.mp hend
  obtain ⟨e₃, hcancel, hend⟩ := Run.bind_eq_ok.mp hend
  cases hend
  obtain ⟨hsettled, hdate₂⟩ := settleDues_logs hsettle
  rw [hportfolio₀] at hsettled
  obtain ⟨hportfolio₃, _, hdate₃, _⟩ := operate_cases hcancel
  obtain ⟨m, hportfolio₃⟩ := fst_map_eq_ok hportfolio₃
  have hsame := cancelWorkingOrders_sameLog hportfolio₃
  have hcancelled : Logs e₂.portfolio e'.portfolio 0 :=
    ⟨.step (e := .cancelWorkingOrders) .init (by simp [apply, hportfolio₃]), [], by simp [hsame.1], rfl⟩
  have hall := hlogs.trans (hsettled.trans hcancelled)
  rw [Nat.zero_add, Nat.add_zero] at hall
  exact ⟨hall, hdate₃.trans (hdate₂.trans (hdate₀.trans hdate))⟩

end Engine

/-! ## The run -/

omit [Double F] in
/-- With no position open nothing is held. -/
theorem legSum_of_flat {p : Portfolio F} (hflat : p.openPositions = 0) (f : Leg → Int)
    (hf : ∀ l : Leg, l.live = false → f l = 0) : legSum f p = 0 := by
  unfold legSum
  apply List.sum_eq_zero
  intro x hx
  obtain ⟨pos, hpos, rfl⟩ := List.mem_map.mp hx
  apply List.sum_eq_zero
  intro y hy
  obtain ⟨l, hl, rfl⟩ := List.mem_map.mp hy
  apply hf
  by_contra hlive
  have hopen : pos.isOpen = true := by
    unfold Position.isOpen
    exact List.any_eq_true.mpr ⟨l, hl, by simp [hlive]⟩
  have hmem : pos ∈ p.positions.filter (·.isOpen) := List.mem_filter.mpr ⟨hpos, hopen⟩
  rw [List.length_eq_zero_iff.mp hflat] at hmem
  cases hmem

/-- What the log, in parts for the sessions, says of session `k`. -/
structure SessionAccounted (parts : List (List TradeRecord)) (k : Nat) (s : SessionSummary) (part : List TradeRecord) :
    Prop where
  trades : s.trades = part.length
  settled : s.settledLegs = (part.filter (·.settled)).length
  costs : s.costsToDate = ((parts.take (k + 1)).flatten.map (·.cost)).sum
  /-- On a night with nothing open the cash of all trades so far is what was realised. -/
  flat : s.openPositions = 0 →
    s.realizedToDate = ((parts.take (k + 1)).flatten.map TradeRecord.cash).sum ∧
      s.equity = s.realizedToDate - s.costsToDate

/-- **The invariant between two sessions**: the log falls into a part for each. -/
structure Accounts (fills : FillModel F) (delay : Int) (costs : CostPolicy) (source : DataSource) (dates : List Date)
    (parts : List (List TradeRecord)) (c : Campaign F σ) : Prop where
  reach : Reachable fills delay costs c.engine.portfolio
  log : parts.flatten = c.engine.portfolio.trades
  counted : c.tradesSeen = c.engine.portfolio.trades.length
  length : parts.length = c.daily.length
  daily : ∀ k s part, c.daily[k]? = some s → parts[k]? = some part → SessionAccounted parts k s part
  peak : c.peakMargin = (c.daily.map (·.peakMargin)).foldl max 0
  dated : c.daily.map (·.date) = c.sessions
  loaded : c.sessions = dates.filter (fun d => Run.succeeds Option.isSome (source.load d))
  last : ∀ s, c.daily.getLast? = some s → s.openPositions = c.engine.portfolio.openPositions ∧
    s.realizedToDate = c.engine.portfolio.realized ∧ s.costsToDate = c.engine.portfolio.totalCosts

/-- The session that has just ended, by the log with its own part at the end. -/
theorem sessionAccounted_summary {fills : FillModel F} (hfills : NonNegative fills) {delay : Int} {costs : CostPolicy}
    {c : Campaign F σ} {e : Engine F σ} {n : Nat} (hreach : Reachable fills delay costs e.portfolio)
    (hseen : c.tradesSeen = c.engine.portfolio.trades.length) {parts : List (List TradeRecord)}
    (hlog : parts.flatten = c.engine.portfolio.trades) {new : List TradeRecord}
    (hnew : e.portfolio.trades = c.engine.portfolio.trades ++ new) (hn : (new.filter (·.settled)).length = n) :
    SessionAccounted (parts ++ [new]) parts.length (c.summary e n) new := by
  have hbalanced := hreach.balanced hfills
  have htake : ((parts ++ [new]).take (parts.length + 1)).flatten = e.portfolio.trades := by
    rw [List.take_of_length_le (by simp), List.flatten_append, hlog, hnew, List.flatten_singleton]
  refine ⟨?_, hn.symm, ?_, ?_⟩
  · simp [Campaign.summary, hseen, hnew]
  · rw [htake]
    exact hbalanced.costs
  · intro hflat
    have hcost : legSum Leg.cost e.portfolio = 0 := legSum_of_flat hflat _ (fun _ => Leg.cost_of_not_live)
    have hvalue : legSum (Leg.value e.market) e.portfolio = 0 := by
      apply legSum_of_flat hflat
      intro l hl
      simp [Leg.value, hl]
    have hcash := hbalanced.cash
    have hequity := hbalanced.equity_eq e.market
    rw [hcost, sub_zero] at hcash
    rw [hvalue, add_zero, hcash] at hequity
    refine ⟨?_, hequity⟩
    rw [htake]
    exact hcash.symm

/-- What was accounted stays so when a part is added. -/
theorem SessionAccounted.concat {parts : List (List TradeRecord)} {k : Nat} {s : SessionSummary}
    {part : List TradeRecord} (h : SessionAccounted parts k s part) (hk : k < parts.length) (new : List TradeRecord) :
    SessionAccounted (parts ++ [new]) k s part := by
  obtain ⟨htrades, hsettled, hcosts, hflat⟩ := h
  have htake : (parts ++ [new]).take (k + 1) = parts.take (k + 1) := List.take_append_of_le_length hk
  refine ⟨htrades, hsettled, ?_, ?_⟩
  · rw [htake]
    exact hcosts
  · rw [htake]
    exact hflat

/-- The step lemma of the run. -/
theorem Accounts.step {desk : Desk F} {config : BacktestConfig F} {source : DataSource} {resume : σ → Script F σ}
    {fills : FillModel F} (hfills : NonNegative fills) {delay : Int} {costs : CostPolicy} {dates : List Date}
    {parts : List (List TradeRecord)} {c c' : Campaign F σ} {date : Date}
    (h : Accounts fills delay costs source dates parts c) (hstep : c.nextDate desk config source resume date = .ok c') :
    ∃ parts', Accounts fills delay costs source (dates ++ [date]) parts' c' := by
  obtain ⟨loaded, hload, hstep⟩ := Run.bind_eq_ok.mp hstep
  cases loaded with
  | none =>
      cases hstep
      refine ⟨parts, { h with loaded := ?_ }⟩
      rw [List.filter_append, ← h.loaded]
      simp [Run.succeeds, hload]
  | some session =>
      obtain ⟨⟨e', n⟩, hday, hstep⟩ := Run.bind_eq_ok.mp hstep
      cases hstep
      obtain ⟨hlogs, hdate⟩ := Engine.runDay_logs hday
      obtain ⟨new, hnew, hn⟩ := hlogs.log
      have hreach : Reachable fills delay costs e'.portfolio := h.reach.trans hlogs.reach
      refine ⟨parts ++ [new], {
        reach := hreach
        log := ?_
        counted := rfl
        length := ?_
        daily := ?_
        peak := ?_
        dated := ?_
        loaded := ?_
        last := ?_ }⟩
      · rw [List.flatten_append, h.log, List.flatten_singleton]
        exact hnew.symm
      · simp [h.length]
      · intro k s part hs hpart
        rcases Nat.lt_trichotomy k parts.length with hlt | rfl | hgt
        · rw [List.getElem?_append_left (h.length ▸ hlt)] at hs
          rw [List.getElem?_append_left hlt] at hpart
          exact (h.daily k s part hs hpart).concat hlt new
        · rw [List.getElem?_append_right (le_refl _)] at hpart
          rw [h.length, List.getElem?_append_right (le_refl _)] at hs
          simp only [Nat.sub_self, List.getElem?_cons_zero, Option.some.injEq] at hs hpart
          subst hs hpart
          exact sessionAccounted_summary hfills hreach h.counted h.log hnew hn
        · rw [List.getElem?_eq_none (by simp; omega)] at hpart
          cases hpart
      · rw [List.map_append, List.foldl_append, ← h.peak]
        rfl
      · rw [List.map_append, h.dated]
        simp [Campaign.summary, hdate]
      · rw [List.filter_append, ← h.loaded]
        simp [Run.succeeds, hload]
      · intro s hs
        rw [List.getLast?_concat, Option.some.injEq] at hs
        subst hs
        exact ⟨rfl, rfl, rfl⟩

/-- The run lemma. -/
theorem Accounts.run {desk : Desk F} {config : BacktestConfig F} {source : DataSource} {strategy : Strategy F}
    {fills : FillModel F} (hfills : NonNegative fills) {delay : Int} {costs : CostPolicy} {done dates : List Date}
    {parts : List (List TradeRecord)} {c c' : Campaign F strategy.State}
    (h : Accounts fills delay costs source done parts c)
    (hrun : replayDates desk config source strategy dates c = .ok c') :
    ∃ parts', Accounts fills delay costs source (done ++ dates) parts' c' := by
  unfold replayDates at hrun
  induction dates generalizing done parts c with
  | nil =>
      cases hrun
      exact ⟨parts, by rwa [List.append_nil]⟩
  | cons date dates ih =>
      obtain ⟨c₁, hstep, hrun⟩ := Run.foldlM_cons_ok.mp hrun
      obtain ⟨parts₁, h₁⟩ := h.step hfills hstep
      obtain ⟨parts', h'⟩ := ih h₁ hrun
      rw [List.append_assoc] at h'
      exact ⟨parts', h'⟩

/-- Before the first session nothing is logged. -/
theorem accounts_start {desk : Desk F} {source : DataSource} {strategy : Strategy F} {front : Date}
    {c : Campaign F strategy.State} (h : startCampaign desk source strategy front = .ok c) :
    Accounts (desk.config.fills.getD crossSpreadFill) desk.config.executionDelayNanos
      (desk.config.costs.getD (defaultCostPolicy F)) source [] [] c := by
  obtain ⟨loaded, _, h⟩ := Run.bind_eq_ok.mp h
  cases loaded with
  | none => cases h
  | some session =>
      obtain ⟨e, hstart, h⟩ := Run.bind_eq_ok.mp h
      cases h
      obtain ⟨p₀, hp₀, _, _, _, hquiet⟩ := Engine.start_cases hstart
      obtain ⟨_, rfl⟩ := new_eq_ok.mp hp₀
      have htrades : e.portfolio.trades = [] := hquiet.trades_eq
      refine ⟨hquiet.reach, htrades.symm, ?_, rfl, nofun, rfl, rfl, rfl, nofun⟩
      simp [htrades]

/-- A run over no dates reports nothing; any other one ends in accounts of at least one session. -/
theorem accounts_of_run {source : DataSource} {underlying : UnderlyingId} {spot : InstrumentId} {strategy : Strategy F}
    {config : BacktestConfig F} (hfills : NonNegative (config.fills.getD crossSpreadFill)) {dates : List Date}
    {result : BacktestResult} (h : runBacktest source underlying spot strategy config dates = .ok result) :
    ((if dates.isEmpty then source.sessions else dates) = [] ∧ result = {}) ∨
    ∃ (c : Campaign F strategy.State) (parts : List (List TradeRecord)), result = c.result ∧ c.daily ≠ [] ∧
      Accounts (config.fills.getD crossSpreadFill) config.executionDelayNanos (config.costs.getD (defaultCostPolicy F))
        source (if dates.isEmpty then source.sessions else dates) parts c := by
  unfold runBacktest at h
  dsimp only at h
  generalize (if dates.isEmpty then source.sessions else dates) = days at h ⊢
  obtain ⟨_, h⟩ := Run.guard_eq_ok.mp h
  obtain ⟨p, _, h⟩ := Run.bind_eq_ok.mp h
  cases days with
  | nil =>
      cases h
      exact Or.inl ⟨rfl, rfl⟩
  | cons front rest =>
      obtain ⟨c₀, hstart, h⟩ := Run.bind_eq_ok.mp h
      obtain ⟨c, hrun, h⟩ := Run.bind_eq_ok.mp h
      cases h
      obtain ⟨parts, haccounts⟩ := (accounts_start hstart).run hfills hrun
      refine Or.inr ⟨c, parts, rfl, ?_, haccounts⟩
      -- the first date loaded once already, when the strategy was entered
      obtain ⟨loaded, hload, hstart⟩ := Run.bind_eq_ok.mp hstart
      intro hnone
      have hdated := haccounts.dated
      rw [hnone, haccounts.loaded, List.map_nil] at hdated
      have hfront := List.filter_eq_nil_iff.mp hdated.symm front (by simp)
      cases loaded with
      | none => cases hstart
      | some session => simp [Run.succeeds, hload] at hfront

/-- **The sessions add up to the run.** A run reports exactly the dates that load, in their order. Its trade log falls
    into a part for each: the session's trades, of which the settlements are its settled legs. Costs to date are those
    of the trades so far; on a night with nothing open so is what was realised, and equity is that less costs. The
    run's peak margin is the largest of its sessions', and it ends as its last session did. -/
theorem sessions_add_up {source : DataSource} {underlying : UnderlyingId} {spot : InstrumentId} {strategy : Strategy F}
    {config : BacktestConfig F} (hfills : NonNegative (config.fills.getD crossSpreadFill)) {dates : List Date}
    {result : BacktestResult} (h : runBacktest source underlying spot strategy config dates = .ok result) :
    result.sessions = (if dates.isEmpty then source.sessions else dates).filter
      (fun d => Run.succeeds Option.isSome (source.load d)) ∧
    result.daily.map (·.date) = result.sessions ∧
    result.peakMargin = (result.daily.map (·.peakMargin)).foldl max 0 ∧
    (∀ s, result.daily.getLast? = some s → result.finalEquity = s.equity ∧ result.realized = s.realizedToDate ∧
      result.costs = s.costsToDate ∧ result.openPositions = s.openPositions) ∧
    ∃ parts : List (List TradeRecord), parts.flatten = result.tradeLog ∧ parts.length = result.daily.length ∧
      ∀ k s part, result.daily[k]? = some s → parts[k]? = some part → SessionAccounted parts k s part := by
  rcases accounts_of_run hfills h with ⟨hnone, rfl⟩ | ⟨c, parts, rfl, _, haccounts⟩
  · rw [hnone]
    exact ⟨rfl, rfl, rfl, nofun, [], rfl, rfl, nofun⟩
  · refine ⟨haccounts.loaded, haccounts.dated, haccounts.peak, ?_, parts, haccounts.log, haccounts.length,
      haccounts.daily⟩
    intro s hs
    obtain ⟨hopen, hrealized, hcosts⟩ := haccounts.last s hs
    refine ⟨?_, hrealized.symm, hcosts.symm, hopen.symm⟩
    have hs' : c.daily.getLast? = some s := hs
    simp [Campaign.result, hs']

/-- A call settles on the first night, which ends flat; a pair is sold in the second session. -/
theorem sessions_add_up_two_days :
    ∃ result, runBacktest twoDaySource 0 0 callThenStraddle undatedConfig [] = .ok result ∧
      result.daily.map (fun s => (s.trades, s.settledLegs, s.openPositions)) = [(2, 1, 0), (2, 0, 1)] ∧
      ∃ parts : List (List TradeRecord), parts.flatten = result.tradeLog ∧ parts.length = 2 ∧
        ∀ k s part, result.daily[k]? = some s → parts[k]? = some part → SessionAccounted parts k s part := by
  obtain ⟨result, h, htest⟩ := Run.exists_of_succeeds
    (fun r => r.daily.map (fun s => (s.trades, s.settledLegs, s.openPositions)) = [(2, 1, 0), (2, 0, 1)])
    (runBacktest twoDaySource 0 0 callThenStraddle undatedConfig []) (by decide +kernel)
  have hdaily := of_decide_eq_true htest
  have hfills : NonNegative (undatedConfig.fills.getD crossSpreadFill) := crossSpreadFill_nonNegative
  obtain ⟨_, _, _, _, parts, hlog, hlength, hall⟩ := sessions_add_up hfills h
  refine ⟨result, h, hdaily, parts, hlog, ?_, hall⟩
  rw [hlength, ← List.length_map (f := fun s : SessionSummary => (s.trades, s.settledLegs, s.openPositions)), hdaily]
  rfl

end Volforge
