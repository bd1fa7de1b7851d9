import Volforge.Core.Backtest
import Volforge.Core.Correctness.Engine
import Volforge.Core.Correctness.Events

/-!
# `Core.Correctness.Twins` — what a run can see of a session

A run reads the quotes of a session, whether an instrument has printed, the registry, the steps and the number of
observations. Which instruments are listed, and whether there is a precomputed order or a timeline, it does not see.
Sessions that agree on the former are `Same`, and putting one in the place of the other commutes with everything
the engine does.

## Contents
- **Sessions.** `Same`, and why sessions that keep the contract and have the same rows are.
- **Lock step.** `Engine.on d` commutes with each thing the engine does.
- **Runs.** `runSession_same`, and `runBacktest_same` for sources of the same sessions.
-/

namespace Volforge

/-! ## Sessions -/

namespace SessionData

/-- What a run can see of the two is the same. -/
structure Same (s d : SessionData) : Prop where
  date : d.date = s.date
  registry : d.registry = s.registry
  quotes : d.quotes = s.quotes
  printedBy : d.printedBy = s.printedBy
  steps : d.steps = s.steps
  observations : d.observations = s.observations

/-- The markets of the two are the same at every instant. -/
theorem Same.view {s d : SessionData} (h : s.Same d) (t : Timestamp) : d.view t = s.view t := by
  unfold SessionData.view
  rw [h.registry, h.quotes, h.printedBy]

/-- No row has the time that stands for none. -/
def Timed (s : SessionData) : Prop := ∀ t, s.PrintsAt t → kNoTime < t

/-- Every observation of the session, instrument by instrument. -/
def located (s : SessionData) : List Event :=
  s.instruments.flatMap (fun id => (List.range (s.quotes id).size).map (fun row => ⟨(s.quotes id).time row, id, row⟩))

/-- `located` lists what the session locates. -/
theorem mem_located {s : SessionData} {e : Event} : e ∈ s.located ↔ s.Locates e := by
  unfold located Locates
  rw [List.mem_flatMap]
  constructor
  · rintro ⟨id, hid, he⟩
    obtain ⟨row, hrow, rfl⟩ := List.mem_map.mp he
    exact ⟨hid, List.mem_range.mp hrow, rfl⟩
  · rintro ⟨hid, hrow, hts⟩
    refine ⟨e.instrument, hid, List.mem_map.mpr ⟨e.row, List.mem_range.mpr hrow, ?_⟩⟩
    rw [← hts]

/-- It lists nothing twice: instruments are distinct, and so are rows. -/
theorem nodup_located {s : SessionData} (hc : s.Contract) : s.located.Nodup := by
  unfold located
  rw [List.nodup_flatMap]
  refine ⟨fun id _ => List.nodup_range.map (fun a b h => congrArg Event.row h), hc.nodup.imp (fun {a b} hne => ?_)⟩
  rw [Function.onFun, List.disjoint_left]
  rintro e ha hb
  obtain ⟨_, _, rfl⟩ := List.mem_map.mp ha
  obtain ⟨_, _, heq⟩ := List.mem_map.mp hb
  exact hne (congrArg Event.instrument heq).symm

/-- It has as many entries as the session counts observations. -/
theorem length_located {s : SessionData} (hc : s.Contract) : s.located.length = s.totalObservations := by
  unfold located
  rw [List.length_flatMap, hc.total]
  simp

/-- A replay that yields nothing twice yields as many observations as the session says. -/
theorem length_events {s : SessionData} (hc : s.Contract) (honce : s.eventOrder.Nodup) :
    s.events.length = s.totalObservations := by
  have hnodup : s.events.Nodup := by
    unfold events EventCursor.new
    by_cases hcached : s.eventOrder = []
    · simp only [hcached, List.isEmpty_nil, Bool.not_true, Bool.false_eq_true, if_false]
      obtain ⟨hpair, _⟩ := merge_spec hc (Nat.le_add_left _ s.eventOrder.length)
      refine hpair.imp (fun {a b} hab heq => ?_)
      rw [heq] at hab
      unfold Event.Earlier at hab
      lia
    · have hne : (!s.eventOrder.isEmpty) = true := by simpa using hcached
      have hall : s.eventOrder.length ≤ s.eventBound := Nat.le_add_right ..
      rw [if_pos hne, EventCursor.drain_order hcached, List.drop_zero, List.take_of_length_le hall]
      exact honce
  have hmem := (events_spec hc).2
  have hperm : s.events.Perm s.located :=
    (List.perm_ext_iff_of_nodup hnodup (nodup_located hc)).mpr (fun e => (hmem e).trans mem_located.symm)
  rw [hperm.length_eq, length_located hc]

theorem observations_eq {s : SessionData} (hc : s.Contract) (honce : s.eventOrder.Nodup) :
    s.observations = s.totalObservations := by
  unfold observations
  split_ifs
  · exact length_events hc honce
  · rfl

/-- The steps of a session without untimed rows are its distinct times. -/
theorem Timed.steps {s : SessionData} (h : s.Timed) (hc : s.Contract) : s.IsTimeline s.steps := by
  obtain ⟨hasc, hmem⟩ := steps_spec hc
  refine ⟨hasc, fun t => ⟨fun ht => ?_, fun ht => (hmem t (h t ht)).mpr ht⟩⟩
  unfold SessionData.steps at ht
  by_cases htl : s.timeline.isEmpty = true
  · rw [if_pos htl] at ht
    exact (((mergedTimes_spec hc).2 t).mp ht).2
  · rw [if_neg htl] at ht
    exact ((hc.timeline.resolve_left (by simpa using htl)).mem_iff t).mp ht

end SessionData

/-! ## Lock step

`e.on d` is the engine `e` with the data of `d`. Each function of the engine on `e.on d` is what it is on `e`,
with the session replaced in what it returns. -/

variable {F : Type} [Double F] {σ : Type}

namespace Engine

/-- The engine with other data. -/
def on (d : SessionData) (e : Engine F σ) : Engine F σ := { e with session := d }

variable {e : Engine F σ} {d : SessionData}

omit [Double F] in
@[simp] theorem on_portfolio : (e.on d).portfolio = e.portfolio := rfl

omit [Double F] in
@[simp] theorem on_date : (e.on d).date = e.date := rfl

omit [Double F] in
@[simp] theorem on_clock : (e.on d).clock = e.clock := rfl

omit [Double F] in
@[simp] theorem on_task : (e.on d).task = e.task := rfl

omit [Double F] in
theorem on_market (h : e.session.Same d) : (e.on d).market = e.market := h.view e.clock

theorem on_ctx (h : e.session.Same d) (desk : Desk F) : (e.on d).ctx desk = e.ctx desk := by
  unfold ctx
  rw [on_market h]
  rfl

/-- A command does the same. -/
theorem on_perform (h : e.session.Same d) (desk : Desk F) (cmd : Command F) :
    (e.on d).perform desk cmd = ((e.perform desk cmd).1.on d, (e.perform desk cmd).2) := by
  obtain ⟨id, intervalSeconds, source, hcmd⟩ | hcmd := @perform_cases F _ σ cmd
  · have hbars : (e.on d).buildBars desk id intervalSeconds source = e.buildBars desk id intervalSeconds source := by
      unfold buildBars on
      dsimp only
      rw [h.quotes]
      rfl
    rw [hcmd, hcmd, hbars]
    cases e.buildBars desk id intervalSeconds source <;> rfl
  · rw [hcmd, hcmd, on_ctx h]
    cases cmd.submit (e.ctx desk) <;> rfl

/-- A stretch of the strategy. -/
theorem on_exec (h : e.session.Same d) (desk : Desk F) (s : Script F σ) :
    s.exec desk (e.on d) = on d <$> s.exec desk e := by
  induction s generalizing e with
  | look k ih =>
      unfold Script.exec
      rw [on_ctx h]
      exact ih (e.ctx desk) h
  | order cmd k ih =>
      unfold Script.exec
      rw [on_perform h]
      dsimp only
      refine ih _ ?_
      rw [(perform_entered desk e cmd).session]
      exact h
  | await cond s => rfl
  | finish => rfl
  | throw_ err => rfl

/-- The loop that resumes the strategy does the same, at every instant. -/
theorem on_resumeLoop (h : e.session.Same d) (desk : Desk F) (resume : σ → Script F σ) (left : Nat) :
    (e.on d).resumeLoop desk resume left = on d <$> e.resumeLoop desk resume left := by
  induction left using Nat.strong_induction_on generalizing e with
  | _ left ih =>
      rcases ht : e.task with ⟨cond, s⟩ | _
      · rw [resumeLoop_suspended desk resume left ht, resumeLoop_suspended desk resume left (e := e.on d) ht, on_ctx h]
        by_cases hvalid : (!cond.valid) = true
        · rw [if_pos hvalid, if_pos hvalid]
          rfl
        rw [if_neg hvalid, if_neg hvalid]
        cases cond.eval (e.ctx desk) with
        | error err => rfl
        | ok holds =>
            cases holds with
            | false => rfl
            | true =>
                have hexec := on_exec (e := { e with conditionEvals := e.conditionEvals + 1 }) h desk (resume s)
                simp only [Run.ok_bind, Bool.not_true, Bool.false_eq_true, if_false]
                cases hrun : (resume s).exec desk { e with conditionEvals := e.conditionEvals + 1 } with
                | error err =>
                    rw [hrun] at hexec
                    exact congrArg (· >>= _) hexec
                | ok e₁ =>
                    rw [hrun] at hexec
                    refine (congrArg (· >>= _) hexec).trans ?_
                    cases left with
                    | zero => rfl
                    | succ left =>
                        have hsession : e₁.session = e.session := (exec_entered hrun).session
                        exact ih left (Nat.lt_succ_self left) (e := { e₁ with resumes := e₁.resumes + 1 })
                          (by rw [hsession]; exact h)
      · have hdone : ∀ e' : Engine F σ, e'.task = .done → e'.resumeLoop desk resume left = .ok e' := by
          intro e' ht'
          unfold resumeLoop
          rw [ht']
        rw [hdone e ht, hdone (e.on d) ht]
        rfl

omit [Double F] in
theorem on_operate (op op' : Portfolio F → Except Error (Portfolio F)) (hop : op' e.portfolio = op e.portfolio) :
    (e.on d).operate op' = on d <$> e.operate op := by
  unfold operate
  rw [on_portfolio, hop]
  cases op e.portfolio <;> rfl

theorem on_sampleMargin (h : e.session.Same d) (desk : Desk F) :
    (e.on d).sampleMargin desk = on d <$> e.sampleMargin desk := by
  unfold sampleMargin
  rw [on_ctx h]
  have hnext : (e.on d).nextMargin = e.nextMargin := rfl
  rw [on_clock, hnext]
  split_ifs
  · rfl
  · cases (e.ctx desk).marginNow <;> rfl

/-- **One step.** -/
theorem on_step (h : e.session.Same d) (desk : Desk F) (resume : σ → Script F σ) (marks : Bool) (t : Timestamp) :
    (e.on d).step desk resume marks t = on d <$> e.step desk resume marks t := by
  unfold step settleStep advanceTo
  rw [on_clock]
  by_cases hback : t < e.clock
  · rw [if_pos hback, if_pos hback]
    rfl
  rw [if_neg hback, if_neg hback]
  simp only [Run.ok_bind]
  -- one operation of the engine after the other, each on the data it finds
  let e₀ : Engine F σ := { e with clock := t, steps := e.steps + 1 }
  have hchain : ∀ {x : Except Error (Engine F σ)} {x' : Except Error (Engine F σ)}
      {f f' : Engine F σ → Except Error (Engine F σ)}, x' = on d <$> x →
      (∀ e₁, x = .ok e₁ → f' (e₁.on d) = on d <$> f e₁) → (x' >>= f') = on d <$> (x >>= f) := by
    intro x x' f f' hx hf
    rw [hx]
    cases hx' : x with
    | error err => rfl
    | ok e₁ => exact hf e₁ hx'
  have hpending : (e₀.on d).operate (fun p => p.processPending (e₀.on d).market) =
      on d <$> e₀.operate (fun p => p.processPending e₀.market) := by
    refine on_operate _ _ ?_
    rw [on_market (e := e₀) h]
  refine hchain (hchain hpending (fun e₁ h₁ => ?_)) (fun e₄ h₄ => ?_)
  · obtain ⟨_, hs₁, _⟩ := operate_cases h₁
    have hsame₁ : e₁.session.Same d := hs₁ ▸ h
    refine hchain (on_operate _ _ ?_) (fun e₂ h₂ => ?_)
    · rw [on_market hsame₁]
    obtain ⟨_, hs₂, _⟩ := operate_cases h₂
    have hsame₂ : e₂.session.Same d := hs₂ ▸ hsame₁
    refine hchain (on_operate _ _ ?_) (fun e₃ h₃ => ?_)
    · rw [on_market hsame₂]
    obtain ⟨_, hs₃, _⟩ := operate_cases h₃
    exact on_sampleMargin (hs₃ ▸ hsame₂) desk
  · refine on_resumeLoop ?_ desk resume _
    obtain ⟨e₁, h₁, h₄⟩ := Run.bind_eq_ok.mp h₄
    obtain ⟨e₂, h₂, h₄⟩ := Run.bind_eq_ok.mp h₄
    obtain ⟨e₃, h₃, h₄⟩ := Run.bind_eq_ok.mp h₄
    rw [(sampleMargin_entered h₄).session, (operate_cases h₃).2.1, (operate_cases h₂).2.1, (operate_cases h₁).2.1]
    exact h

/-- **A replay.** -/
theorem on_replay (h : e.session.Same d) (desk : Desk F) (resume : σ → Script F σ) (marks : Bool) (ts : List Timestamp) :
    ts.foldlM (step desk resume marks) (e.on d) = on d <$> ts.foldlM (step desk resume marks) e :=
  Run.foldlM_commutes (on d) (fun e' => e'.session.Same d) (fun _ t h' => on_step h' desk resume marks t)
    (fun _ _ _ h' hstep => by rw [(step_cases hstep).session]; exact h') h

theorem on_result (h : e.session.Same d) (desk : Desk F) : (e.on d).result desk = e.result desk := by
  unfold result
  rw [on_ctx h, on_market h]
  have hdate : (e.on d).session.date = e.session.date := h.date
  have hobservations : (e.on d).session.observations = e.session.observations := h.observations
  rw [hdate, hobservations]
  rfl

theorem start_on {s : SessionData} (h : s.Same d) (desk : Desk F) (strategy : Strategy F) (date : Date) :
    start desk strategy d date = on d <$> start desk strategy s date := by
  unfold start
  cases desk.config.portfolio with
  | error err => rfl
  | ok p => exact on_exec (e := { session := s, date := date, portfolio := p }) h desk strategy.start

/-! ### The end of a session -/

theorem on_toSettlement (config : BacktestConfig F) : (e.on d).toSettlement config = (e.toSettlement config).on d := by
  unfold toSettlement on
  dsimp only
  split_ifs <;> rfl

/-- A settlement does the same. -/
theorem on_settleDue (h : e.session.Same d) (desk : Desk F) (handling : ExpiryHandling) (n : Nat) (expiry : Date) :
    settleDue desk handling (e.on d, n) expiry = (fun x => (x.1.on d, x.2)) <$> settleDue desk handling (e, n) expiry := by
  unfold settleDue
  dsimp only
  rw [on_ctx h, on_market h]
  split_ifs
  · rfl
  · cases settlementLevel (e.ctx desk) desk.spot expiry with
    | none => rfl
    | some level =>
        dsimp only
        rw [on_portfolio, on_clock]
        cases e.portfolio.settleExpiry e.market expiry level e.clock <;> rfl

/-- A settlement binds no other session. -/
theorem settleDue_session {desk : Desk F} {handling : ExpiryHandling} {acc acc' : Engine F σ × Nat} {expiry : Date}
    (h : settleDue desk handling acc expiry = .ok acc') : acc'.1.session = acc.1.session := by
  unfold settleDue at h
  dsimp only at h
  split_ifs at h
  cases hlevel : settlementLevel (acc.1.ctx desk) desk.spot expiry with
  | none =>
      rw [hlevel] at h
      cases h
  | some level =>
      rw [hlevel] at h
      obtain ⟨_, _, h⟩ := Run.bind_eq_ok.mp h
      cases h
      rfl

/-- The end of a session does the same. -/
theorem on_endSession (h : e.session.Same d) (desk : Desk F) (config : BacktestConfig F) :
    (e.on d).endSession desk config = (fun x => (x.1.on d, x.2)) <$> e.endSession desk config := by
  have hend : (e.toSettlement config).session.Same d := by
    unfold toSettlement
    dsimp only
    split_ifs
    · exact h
    · exact h
  unfold endSession
  rw [on_toSettlement]
  generalize e.toSettlement config = e₀ at hend
  have hregistry : (e₀.on d).session.registry = e₀.session.registry := hend.registry
  dsimp only
  rw [on_portfolio, on_date, hregistry]
  cases dueExpiries e₀.portfolio e₀.session.registry e₀.date with
  | error err => rfl
  | ok due =>
      simp only [Run.ok_bind]
      have hstep : ∀ (x : Engine F σ × Nat) (expiry : Date), x.1.session.Same d →
          settleDue desk config.expiry (x.1.on d, x.2) expiry =
            (fun x : Engine F σ × Nat => (x.1.on d, x.2)) <$> settleDue desk config.expiry x expiry :=
        fun x expiry hx => on_settleDue hx desk config.expiry x.2 expiry
      have hsettled : due.foldlM (settleDue desk config.expiry) (e₀.on d, 0) =
          (fun x : Engine F σ × Nat => (x.1.on d, x.2)) <$> due.foldlM (settleDue desk config.expiry) (e₀, 0) :=
        Run.foldlM_commutes _ (fun x : Engine F σ × Nat => x.1.session.Same d) hstep
          (fun x expiry x' hx hsettle => by rw [settleDue_session hsettle]; exact hx) (s := (e₀, 0)) hend
      refine (congrArg (· >>= _) hsettled).trans ?_
      cases due.foldlM (settleDue desk config.expiry) (e₀, 0) with
      | error err => rfl
      | ok x =>
          obtain ⟨e₁, n⟩ := x
          show ((e₁.on d).operate _ >>= fun e => _) = _ <$> (e₁.operate _ >>= fun e => _)
          have hcancel := on_operate (e := e₁) (d := d) (fun p => (·.1) <$> p.cancelWorkingOrders)
            (fun p => (·.1) <$> p.cancelWorkingOrders) rfl
          refine (congrArg (· >>= _) hcancel).trans ?_
          cases e₁.operate (fun p => (·.1) <$> p.cancelWorkingOrders) <;> rfl

/-- The end of a session binds no other one. -/
theorem endSession_session {desk : Desk F} {config : BacktestConfig F} {x : Engine F σ × Nat}
    (h : e.endSession desk config = .ok x) : x.1.session = e.session := by
  have hclock : (e.toSettlement config).session = e.session := by
    unfold toSettlement
    dsimp only
    split_ifs <;> rfl
  obtain ⟨due, _, h⟩ := Run.bind_eq_ok.mp h
  obtain ⟨acc, hsettled, h⟩ := Run.bind_eq_ok.mp h
  obtain ⟨e₁, hcancel, h⟩ := Run.bind_eq_ok.mp h
  cases h
  refine (operate_cases hcancel).2.1.trans (Eq.trans ?_ hclock)
  refine Run.foldlM_inv (fun acc : Engine F σ × Nat => acc.1.session = (e.toSettlement config).session) ?_ _ _ _ rfl hsettled
  intro acc expiry acc' hacc hstep
  rw [settleDue_session hstep]
  exact hacc

theorem replay_session {desk : Desk F} {resume : σ → Script F σ} {marks : Bool} {ts : List Timestamp} {e e' : Engine F σ}
    (h : ts.foldlM (step desk resume marks) e = .ok e') : e'.session = e.session := by
  refine Run.foldlM_inv (fun e' : Engine F σ => e'.session = e.session) ?_ _ _ _ rfl h
  intro e₁ t e₂ he hstep
  rw [(step_cases hstep).session]
  exact he

theorem runDay_session {desk : Desk F} {config : BacktestConfig F} {resume : σ → Script F σ} {s : SessionData} {date : Date}
    {x : Engine F σ × Nat} (h : e.runDay desk config resume s date = .ok x) : x.1.session = s := by
  obtain ⟨e₁, hrun, h⟩ := Run.bind_eq_ok.mp h
  exact (endSession_session h).trans (replay_session hrun)

/-- **A day.** What the engine held before is not looked at. -/
theorem on_runDay {s : SessionData} (h : s.Same d) (d₀ : SessionData) (desk : Desk F) (config : BacktestConfig F)
    (resume : σ → Script F σ) (date : Date) :
    (e.on d₀).runDay desk config resume d date =
      (fun x => (x.1.on d, x.2)) <$> e.runDay desk config resume s date := by
  unfold runDay
  have hbind : (e.on d₀).bindSession d date = (e.bindSession s date).on d := rfl
  rw [hbind, h.steps, on_replay (e := e.bindSession s date) h]
  cases hrun : s.steps.foldlM (step desk resume true) (e.bindSession s date) with
  | error err => rfl
  | ok e₁ =>
      have hsession : e₁.session = s := replay_session hrun
      exact on_endSession (hsession ▸ h) desk config

end Engine

/-! ## Runs -/

/-- **Sessions that are the same run alike.** -/
theorem runSession_same {s d : SessionData} (h : s.Same d) (underlying : UnderlyingId) (spot : InstrumentId)
    (strategy : Strategy F) (config : RunConfig F) :
    runSession d underlying spot strategy config = runSession s underlying spot strategy config := by
  unfold runSession replaySession
  dsimp only
  generalize ({ underlying := underlying, spot := spot, config := config } : Desk F) = desk
  rw [Engine.start_on h, h.date, h.steps]
  cases hstart : Engine.start desk strategy s s.date with
  | error err => rfl
  | ok e =>
      have hsession : e.session = s := by
        obtain ⟨p, _, hexec⟩ := Run.bind_eq_ok.mp hstart
        exact (Engine.exec_entered hexec).session
      have hreplay := Engine.on_replay (e := e) (d := d) (hsession ▸ h) desk strategy.resume false s.steps
      refine (congrArg (· >>= _) hreplay).trans ?_
      cases hrun : s.steps.foldlM (Engine.step desk strategy.resume false) e with
      | error err =>
          refine Eq.trans ?_ (congrArg (· >>= _) hrun).symm
          rfl
      | ok e₁ =>
          have hsession₁ : e₁.session = s := (Engine.replay_session hrun).trans hsession
          refine Eq.trans ?_ (congrArg (· >>= _) hrun).symm
          exact Engine.on_result (hsession₁ ▸ h) desk

theorem alike_eq {ε α : Type} {x y : Except ε α} (h : Run.Alike (fun a b => b = a) x y) : y = x := by
  cases h with
  | error err => rfl
  | ok hab => rw [hab]

/-- Sources that list the same dates and load the same sessions. -/
structure DataSource.Same (source other : DataSource) : Prop where
  sessions : other.sessions = source.sessions
  load : ∀ date, Run.Alike (Option.Rel SessionData.Same) (source.load date) (other.load date)

/-- The campaigns differ in the session that is bound at most, and that is the same. -/
def Campaign.Twin (c c' : Campaign F σ) : Prop := ∃ d, c' = { c with engine := c.engine.on d }

/-- **A date.** Both sources load it or neither does, and the campaigns stay twins. -/
theorem Campaign.Twin.nextDate {source other : DataSource} (hsource : source.Same other) {c c' : Campaign F σ}
    (h : c.Twin c') (desk : Desk F) (config : BacktestConfig F) (resume : σ → Script F σ) (date : Date) :
    Run.Alike Campaign.Twin (c.nextDate desk config source resume date) (c'.nextDate desk config other resume date) := by
  obtain ⟨d₀, rfl⟩ := h
  unfold Campaign.nextDate
  refine (hsource.load date).bind (fun found found' hfound => ?_)
  cases hfound with
  | none => exact .ok ⟨d₀, rfl⟩
  | @some s d hsame =>
      dsimp only
      rw [Engine.on_runDay hsame]
      cases hrun : c.engine.runDay desk config resume s date with
      | error err => exact .error err
      | ok x =>
          obtain ⟨e, n⟩ := x
          have hsession : e.session = s := Engine.runDay_session hrun
          have hsummary : (Campaign.summary { c with engine := c.engine.on d₀ } (e.on d) n) = c.summary e n := by
            unfold Campaign.summary
            rw [Engine.on_market (hsession ▸ hsame)]
            rfl
          refine .ok ⟨d, ?_⟩
          dsimp only
          rw [hsummary, hsame.observations]
          rfl

/-- **Sources of the same sessions run alike.** -/
theorem runBacktest_same {source other : DataSource} (hsource : source.Same other) (underlying : UnderlyingId)
    (spot : InstrumentId) (strategy : Strategy F) (config : BacktestConfig F) (dates : List Date) :
    runBacktest other underlying spot strategy config dates = runBacktest source underlying spot strategy config dates := by
  unfold runBacktest
  rw [hsource.sessions]
  generalize (if dates.isEmpty then source.sessions else dates) = dates
  dsimp only
  split_ifs
  · rfl
  cases config.portfolio with
  | error err => rfl
  | ok p =>
      cases dates with
      | nil => rfl
      | cons front rest =>
          simp only [Run.ok_bind]
          generalize backtestDesk underlying spot config (front :: rest) = desk
          have hstart : Run.Alike Campaign.Twin (startCampaign desk source strategy front)
              (startCampaign desk other strategy front) := by
            unfold startCampaign
            refine (hsource.load front).bind (fun found found' hfound => ?_)
            cases hfound with
            | none => exact .error _
            | @some s d hsame =>
                dsimp only
                rw [Engine.start_on hsame]
                cases Engine.start desk strategy s front with
                | error err => exact .error err
                | ok e => exact .ok ⟨d, rfl⟩
          have hresult : Run.Alike (fun result result' : BacktestResult => result' = result)
              (startCampaign desk source strategy front >>= fun c =>
                replayDates desk config source strategy (front :: rest) c >>= fun c => pure c.result)
              (startCampaign desk other strategy front >>= fun c =>
                replayDates desk config other strategy (front :: rest) c >>= fun c => pure c.result) := by
            refine hstart.bind (fun c c' h => Run.Alike.bind (R := Campaign.Twin) ?_ ?_)
            · exact Run.foldlM_alike Campaign.Twin (C := fun _ _ => True)
                (fun c c' date h _ => h.nextDate hsource desk config strategy.resume date) h
                (Run.along_of_inv (fun _ => True) (fun _ _ _ => trivial) (fun _ _ _ _ _ => trivial) _ _ trivial)
            · rintro c c' ⟨d, rfl⟩
              exact .ok rfl
          exact alike_eq hresult

end Volforge
