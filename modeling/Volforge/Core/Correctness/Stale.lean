import Volforge.Core.Correctness.Fills

/-!
# `Core.Correctness.Stale` — bar series of earlier sessions

A strategy keeps its series over the sessions of a run. The only guard of a series is a deadline: a day after the
open of the session it was obtained in. `Grown` follows the list of series through a run, and
`series_refuse_iff_deadline_passed` says exactly when a series of an earlier session refuses to answer.
-/

namespace Volforge

variable {F : Type} [Double F] {σ : Type}

/-! ## The deadline -/

/-- The last instant a series obtained in the session of `date` answers about. -/
def Desk.seriesEnd (desk : Desk F) (date : Date) : Timestamp :=
  timestampOf date desk.config.sessionOpenSec kISTOffsetSeconds + fromSeconds (24 * 3600)

/-- The series, and every indicator built on it, throws at `t`. -/
structure BarSeries.Refuses (F : Type) [Double F] (s : BarSeries) (t : Timestamp) : Prop where
  knownCount : ∃ err, s.knownCount t = .error err
  completed : ∀ back, ∃ err, s.completed t back = .error err
  forming : ∃ err, s.forming t = .error err
  indicator : ∀ ind : BarIndicator F, ind.bars = s → ∀ back, ∃ err, ind.valueAt t back = .error err

/-- A series refuses to answer exactly when it has a deadline and is past it. -/
theorem BarSeries.refuses_iff {s : BarSeries} {t : Timestamp} :
    s.Refuses F t ↔ s.validUntil ≠ 0 ∧ s.validUntil < t := by
  constructor
  · rintro ⟨⟨err, h⟩, _⟩
    unfold BarSeries.knownCount at h
    by_contra hpassed
    rw [if_neg hpassed] at h
    cases h
  · intro hpassed
    have hcount : s.knownCount t = .error (.logicError
        "bar series belongs to an earlier session; re-acquire it for the current one") := by
      unfold BarSeries.knownCount
      rw [if_pos hpassed]
    refine ⟨⟨_, hcount⟩, fun back => ?_, ?_, ?_⟩
    · unfold BarSeries.completed
      split
      · exact ⟨_, rfl⟩
      · rw [hcount]
        exact ⟨_, rfl⟩
    · unfold BarSeries.forming
      rw [hcount]
      exact ⟨_, rfl⟩
    · rintro ind rfl back
      unfold BarIndicator.valueAt
      split
      · exact ⟨_, rfl⟩
      · rw [hcount]
        exact ⟨_, rfl⟩

namespace Engine

/-! ## The list of series

Series are never dropped: a strategy refers to one by its place, over all the sessions of its run. -/

/-- Series are only added, with the deadline of the session that is bound. -/
structure Grown (desk : Desk F) (e e' : Engine F σ) : Prop where
  date : e'.date = e.date
  series : ∃ new, e'.series = e.series ++ new ∧ ∀ s ∈ new, s.validUntil = desk.seriesEnd e.date

theorem Grown.of_eq {desk : Desk F} {e e' : Engine F σ} (hdate : e'.date = e.date)
    (hseries : e'.series = e.series) : Grown desk e e' :=
  ⟨hdate, [], by rw [hseries, List.append_nil], by simp⟩

theorem Grown.trans {desk : Desk F} {e₁ e₂ e₃ : Engine F σ} (h : Grown desk e₁ e₂) (h' : Grown desk e₂ e₃) :
    Grown desk e₁ e₃ := by
  obtain ⟨new, hnew, hall⟩ := h.series
  obtain ⟨new', hnew', hall'⟩ := h'.series
  refine ⟨h'.date.trans h.date, new ++ new', by rw [hnew', hnew, List.append_assoc], fun s hs => ?_⟩
  obtain hs | hs := List.mem_append.mp hs
  · exact hall s hs
  · rw [hall' s hs, h.date]

/-- A series is built with the deadline of the session that is bound. -/
theorem buildBars_validUntil {desk : Desk F} {e : Engine F σ} {id : InstrumentId} {intervalSeconds : Int}
    {source : BarPrice} {s : BarSeries} (h : e.buildBars desk id intervalSeconds source = .ok s) :
    s.validUntil = desk.seriesEnd e.date := by
  obtain ⟨_, h⟩ := Run.guard_eq_ok.mp h
  obtain ⟨_, h⟩ := Run.guard_eq_ok.mp h
  cases h
  rfl

/-- The strategy adds series, and takes none away. -/
theorem grown_stable (desk : Desk F) : Stable desk (Grown (σ := σ) desk) where
  refl _ := .of_eq rfl rfl
  trans _ _ _ := .trans
  perform e cmd := by
    obtain ⟨id, intervalSeconds, source, hcmd⟩ | hcmd := @perform_cases F _ σ cmd
    · rw [hcmd]
      cases hbuild : e.buildBars desk id intervalSeconds source with
      | error err => exact .of_eq rfl rfl
      | ok s =>
          refine ⟨rfl, [s], rfl, fun s' hs' => ?_⟩
          rw [List.mem_singleton.mp hs']
          exact buildBars_validUntil hbuild
    · rw [hcmd]
      cases cmd.submit (e.ctx desk) with
      | error err => exact .of_eq rfl rfl
      | ok x => exact .of_eq rfl rfl
  task _ _ := .of_eq rfl rfl
  evals _ _ := .of_eq rfl rfl
  resumes _ _ := .of_eq rfl rfl

theorem operate_grown {desk : Desk F} {e e' : Engine F σ} {op : Portfolio F → Except Error (Portfolio F)}
    (h : e.operate op = .ok e') : Grown desk e e' := by
  obtain ⟨p, _, h⟩ := Run.bind_eq_ok.mp h
  cases h
  exact .of_eq rfl rfl

theorem step_grown {desk : Desk F} {resume : σ → Script F σ} {marks : Bool} {e e' : Engine F σ}
    {t : Timestamp} (h : e.step desk resume marks t = .ok e') : Grown desk e e' := by
  obtain ⟨e₄, h, hloop⟩ := Run.bind_eq_ok.mp h
  obtain ⟨e₀, hclock, h⟩ := Run.bind_eq_ok.mp h
  obtain ⟨_, rfl⟩ := advanceTo_eq_ok.mp hclock
  obtain ⟨e₁, hpending, h⟩ := Run.bind_eq_ok.mp h
  obtain ⟨e₂, hmarks, h⟩ := Run.bind_eq_ok.mp h
  obtain ⟨e₃, hrules, hmargin⟩ := Run.bind_eq_ok.mp h
  have hstart : Grown desk e { e with clock := t, steps := e.steps + 1 } := .of_eq rfl rfl
  have hsample : Grown desk e₃ e₄ := by
    unfold sampleMargin at hmargin
    split at hmargin
    · cases hmargin
      exact .of_eq rfl rfl
    · obtain ⟨m, _, hmargin⟩ := Run.bind_eq_ok.mp hmargin
      cases hmargin
      exact .of_eq rfl rfl
  exact (((hstart.trans (operate_grown hpending)).trans (operate_grown hmarks)).trans
    (operate_grown hrules)).trans (hsample.trans ((grown_stable desk).resumeLoop hloop))

theorem steps_grown {desk : Desk F} {resume : σ → Script F σ} {marks : Bool} {e e' : Engine F σ}
    {steps : List Timestamp} (h : steps.foldlM (Engine.step desk resume marks) e = .ok e') : Grown desk e e' :=
  Run.foldlM_inv (Grown desk e) (fun _ _ _ hg hstep => hg.trans (step_grown hstep)) steps e e'
    (.of_eq rfl rfl) h

/-- A settlement builds no series. -/
theorem settleDue_series {desk : Desk F} {handling : ExpiryHandling} {acc acc' : Engine F σ × Nat}
    {expiry : Date} (h : settleDue desk handling acc expiry = .ok acc') :
    acc'.1.date = acc.1.date ∧ acc'.1.series = acc.1.series := by
  obtain ⟨e, n⟩ := acc
  unfold settleDue at h
  dsimp only at h
  split at h
  · cases h
  · split at h
    · cases h
    · obtain ⟨⟨p, settled⟩, _, h⟩ := Run.bind_eq_ok.mp h
      cases h
      exact ⟨rfl, rfl⟩

/-- The end of a session adds no series of another one. -/
theorem endSession_grown {desk : Desk F} {config : BacktestConfig F} {e e' : Engine F σ} {n : Nat}
    (h : e.endSession desk config = .ok (e', n)) : Grown desk e e' := by
  have hclock : Grown desk e (e.toSettlement config) := by
    unfold toSettlement
    dsimp only
    split_ifs
    · exact .of_eq rfl rfl
    · exact .of_eq rfl rfl
  obtain ⟨due, _, h⟩ := Run.bind_eq_ok.mp h
  obtain ⟨⟨e₁, k⟩, hsettle, h⟩ := Run.bind_eq_ok.mp h
  obtain ⟨e₂, hcancel, h⟩ := Run.bind_eq_ok.mp h
  cases h
  have hsettled := Run.foldlM_inv (fun acc : Engine F σ × Nat => Grown desk e acc.1)
    (fun acc _ acc' hg hstep => hg.trans (.of_eq (settleDue_series hstep).1 (settleDue_series hstep).2))
    due _ _ hclock hsettle
  exact hsettled.trans (operate_grown hcancel)

end Engine

namespace Campaign

/-- A date adds the series of its own session. -/
theorem nextDate_series {desk : Desk F} {config : BacktestConfig F} {source : DataSource}
    {resume : σ → Script F σ} {c c' : Campaign F σ} {date : Date}
    (h : c.nextDate desk config source resume date = .ok c') :
    ∃ new, c'.engine.series = c.engine.series ++ new ∧ ∀ s ∈ new, s.validUntil = desk.seriesEnd date := by
  obtain ⟨loaded, _, h⟩ := Run.bind_eq_ok.mp h
  cases loaded with
  | none =>
      cases h
      exact ⟨[], by simp⟩
  | some session =>
      obtain ⟨⟨e, n⟩, hday, h⟩ := Run.bind_eq_ok.mp h
      cases h
      obtain ⟨e₁, hsteps, hend⟩ := Run.bind_eq_ok.mp hday
      exact ((Engine.steps_grown hsteps).trans (Engine.endSession_grown hend)).series

/-- A run keeps the series it has, in their places. -/
theorem replayDates_series {desk : Desk F} {config : BacktestConfig F} {source : DataSource}
    {strategy : Strategy F} {dates : List Date} {c c' : Campaign F strategy.State}
    (h : replayDates desk config source strategy dates c = .ok c') : c.engine.series <+: c'.engine.series := by
  refine Run.foldlM_inv (fun c' : Campaign F strategy.State => c.engine.series <+: c'.engine.series)
    (fun c₁ d c₂ hclip hnext => ?_) dates c c' (List.prefix_refl _) h
  obtain ⟨new, hnew, _⟩ := nextDate_series hnext
  exact hclip.trans ⟨new, hnew.symm⟩

theorem startCampaign_series {desk : Desk F} {source : DataSource} {strategy : Strategy F} {front : Date}
    {c : Campaign F strategy.State} (h : startCampaign desk source strategy front = .ok c) :
    ∀ s ∈ c.engine.series, s.validUntil = desk.seriesEnd front := by
  obtain ⟨loaded, _, h⟩ := Run.bind_eq_ok.mp h
  cases loaded with
  | none => cases h
  | some session =>
      obtain ⟨e, he, h⟩ := Run.bind_eq_ok.mp h
      cases h
      obtain ⟨p₀, _, hexec⟩ := Run.bind_eq_ok.mp he
      obtain ⟨new, hnew, hall⟩ := ((Engine.grown_stable desk).exec hexec).series
      rw [hnew]
      exact hall

end Campaign

/-! ## Later sessions -/

/-- The engine at the last of the timestamps `upTo` of a session that starts from campaign `c`. -/
def Campaign.during (desk : Desk F) (strategy : Strategy F) (c : Campaign F strategy.State)
    (session : SessionData) (date : Date) (upTo : List Timestamp) : Except Error (Engine F strategy.State) :=
  upTo.foldlM (Engine.step desk strategy.resume true) (c.engine.bindSession session date)

/-- **A series of an earlier session refuses exactly after its deadline.** `c₁` and `c₂` are the run before and
    after the session of `d`, and `e` is the engine at the step `t` of a later session `d'`, after the steps
    `before`: the series obtained while `d` was bound, or by the strategy's first stretch while `front` was, are
    still held, and each throws at `t` exactly when a day has passed since the open of its session. -/
theorem series_refuse_iff_deadline_passed {source : DataSource} {underlying : UnderlyingId}
    {spot : InstrumentId} {strategy : Strategy F} {config : BacktestConfig F} {dates : List Date}
    {front d d' : Date} {c₀ c₁ c₂ c₃ : Campaign F strategy.State} {ds₁ ds₂ : List Date}
    (hstart : startCampaign (backtestDesk underlying spot config dates) source strategy front = .ok c₀)
    (h₁ : replayDates (backtestDesk underlying spot config dates) config source strategy ds₁ c₀ = .ok c₁)
    (h₂ : replayDates (backtestDesk underlying spot config dates) config source strategy [d] c₁ = .ok c₂)
    (h₃ : replayDates (backtestDesk underlying spot config dates) config source strategy ds₂ c₂ = .ok c₃)
    {session : SessionData} {before : List Timestamp} {t : Timestamp} {e : Engine F strategy.State}
    (he : c₃.during (backtestDesk underlying spot config dates) strategy session d' (before ++ [t]) = .ok e) :
    e.clock = t ∧
    (∀ k, c₁.engine.series.length ≤ k → k < c₂.engine.series.length → ∃ s, e.series[k]? = some s ∧
      (s.Refuses F t ↔ (backtestDesk underlying spot config dates).seriesEnd d ≠ 0 ∧
        (backtestDesk underlying spot config dates).seriesEnd d < t)) ∧
    ∀ k < c₀.engine.series.length, ∃ s, e.series[k]? = some s ∧
      (s.Refuses F t ↔ (backtestDesk underlying spot config dates).seriesEnd front ≠ 0 ∧
        (backtestDesk underlying spot config dates).seriesEnd front < t) := by
  generalize backtestDesk underlying spot config dates = desk at *
  obtain ⟨m, _, hlast⟩ := Run.foldlM_ok_concat.mp he
  have hheld : c₃.engine.series <+: e.series := by
    obtain ⟨new, hnew, _⟩ := (Engine.steps_grown he).series
    exact ⟨new, hnew.symm⟩
  have hclip₀ : c₀.engine.series <+: e.series :=
    (Campaign.replayDates_series h₁).trans ((Campaign.replayDates_series h₂).trans
      ((Campaign.replayDates_series h₃).trans hheld))
  have hclip₂ : c₂.engine.series <+: e.series := (Campaign.replayDates_series h₃).trans hheld
  have hnext : c₁.nextDate desk config source strategy.resume d = .ok c₂ := by
    obtain ⟨c, hc, hnil⟩ := Run.foldlM_cons_ok.mp h₂
    rw [Run.foldlM_nil_ok.mp hnil]
    exact hc
  obtain ⟨new, hnew, hall⟩ := Campaign.nextDate_series hnext
  have hat : ∀ {xs : List BarSeries} {k : Nat} {s : BarSeries}, xs <+: e.series → xs[k]? = some s →
      e.series[k]? = some s := by
    rintro xs k s ⟨rest, hrest⟩ hk
    rw [← hrest, List.getElem?_append_left (List.getElem?_eq_some_iff.mp hk).1]
    exact hk
  refine ⟨(Engine.step_cases hlast).clock, fun k hlo hhi => ?_, fun k hk => ?_⟩
  · obtain ⟨s, hk⟩ : ∃ s, c₂.engine.series[k]? = some s := ⟨_, List.getElem?_eq_getElem hhi⟩
    refine ⟨s, hat hclip₂ hk, ?_⟩
    have hmem : s ∈ new := by
      rw [hnew, List.getElem?_append_right hlo] at hk
      exact List.mem_of_getElem? hk
    rw [BarSeries.refuses_iff, hall _ hmem]
  · refine ⟨_, hat hclip₀ (List.getElem?_eq_getElem hk), ?_⟩
    rw [BarSeries.refuses_iff, Campaign.startCampaign_series hstart _ (List.getElem_mem hk)]

/-! ### The open of the next day -/

def firstDay : SessionData := flatSession ⟨20250701⟩ [1751341500000000000, 1751341560000000000]

/-- It begins exactly a day after the open of the first session. -/
def secondDay : SessionData := flatSession ⟨20250702⟩ [1751427900000000000, 1751427960000000000]

def dailySource : DataSource where
  sessions := [⟨20250701⟩, ⟨20250702⟩]
  load d := .ok (if d = ⟨20250701⟩ then some firstDay else if d = ⟨20250702⟩ then some secondDay else none)

/-- Obtains a series of one-minute bars and keeps it. -/
def keepBars : Strategy ℚ where
  State := Unit
  start := .order (.bars 0 60 .Last) fun _ => .finish
  resume _ := .finish

def dailyDesk : Desk ℚ := backtestDesk 0 (-1) undatedConfig [⟨20250701⟩, ⟨20250702⟩]

/-- The run over the first session, and the engine after some steps of the second one. -/
def dailyRun (steps : List Timestamp) : Except Error (Campaign ℚ Unit × Campaign ℚ Unit × Engine ℚ Unit) := do
  let c₀ ← startCampaign dailyDesk dailySource keepBars ⟨20250701⟩
  let c₁ ← replayDates dailyDesk undatedConfig dailySource keepBars [⟨20250701⟩] c₀
  let e ← c₁.during dailyDesk keepBars secondDay ⟨20250702⟩ steps
  return (c₀, c₁, e)

theorem dailyRun_eq_ok {steps : List Timestamp} {c₀ c₁ : Campaign ℚ Unit} {e : Engine ℚ Unit}
    (h : dailyRun steps = .ok (c₀, c₁, e)) :
    startCampaign dailyDesk dailySource keepBars ⟨20250701⟩ = .ok c₀ ∧
      replayDates dailyDesk undatedConfig dailySource keepBars [⟨20250701⟩] c₀ = .ok c₁ ∧
      c₁.during dailyDesk keepBars secondDay ⟨20250702⟩ steps = .ok e := by
  obtain ⟨a, ha, h⟩ := Run.bind_eq_ok.mp h
  obtain ⟨b, hb, h⟩ := Run.bind_eq_ok.mp h
  obtain ⟨c, hc, h⟩ := Run.bind_eq_ok.mp h
  cases h
  exact ⟨ha, hb, hc⟩

/-- At the opening print of the second session the series of the first one still answers. -/
theorem opening_print_reads_earlier_session :
    firstDay.Contract ∧ secondDay.Contract ∧
    ∃ c₀ c₁ e s, dailyRun [1751427900000000000] = .ok (c₀, c₁, e) ∧ c₀.engine.series = [s] ∧ e.series = [s] ∧
      e.clock = 1751427900000000000 ∧ s.knownCount e.clock = .ok 2 := by
  refine ⟨flatSession_contract _ (by decide) (by decide), flatSession_contract _ (by decide) (by decide), ?_⟩
  obtain ⟨⟨c₀, c₁, e⟩, hrun, htest⟩ := Run.exists_of_succeeds
    (fun x => ∃ s ∈ x.1.engine.series, x.1.engine.series = [s] ∧ x.2.2.series = [s] ∧
      x.2.2.clock = 1751427900000000000 ∧ s.knownCount x.2.2.clock = .ok 2)
    (dailyRun [1751427900000000000]) (by decide +kernel)
  obtain ⟨s, _, hs⟩ := of_decide_eq_true htest
  exact ⟨c₀, c₁, e, s, hrun, hs⟩

/-- At the print after it, it refuses. -/
theorem series_refuse_iff_deadline_passed_daily :
    (∃ c₀ c₁ e, dailyRun [1751427900000000000] = .ok (c₀, c₁, e) ∧
      ∀ k < c₀.engine.series.length, ∃ s, e.series[k]? = some s ∧ ¬ s.Refuses ℚ 1751427900000000000) ∧
    ∃ c₀ c₁ e, dailyRun [1751427900000000000, 1751427960000000000] = .ok (c₀, c₁, e) ∧
      c₀.engine.series.length = 1 ∧
      ∀ k < c₀.engine.series.length, ∃ s, e.series[k]? = some s ∧ s.Refuses ℚ 1751427960000000000 := by
  have hnone : ∀ c : Campaign ℚ Unit,
      replayDates dailyDesk undatedConfig dailySource keepBars [] c = .ok c := fun _ => rfl
  constructor
  · obtain ⟨⟨c₀, c₁, e⟩, hrun, _⟩ := Run.exists_of_succeeds (fun _ => true) (dailyRun [1751427900000000000])
      (by decide +kernel)
    obtain ⟨hstart, hday, hduring⟩ := dailyRun_eq_ok hrun
    refine ⟨c₀, c₁, e, hrun, fun k hk => ?_⟩
    have hduring : c₁.during dailyDesk keepBars secondDay ⟨20250702⟩ ([] ++ [1751427900000000000]) = .ok e := hduring
    obtain ⟨_, _, hfront⟩ := series_refuse_iff_deadline_passed hstart (hnone c₀) hday (hnone c₁) hduring
    obtain ⟨s, hs, hiff⟩ := hfront k hk
    exact ⟨s, hs, fun hrefuses => absurd (hiff.mp hrefuses).2 (by decide)⟩
  · obtain ⟨⟨c₀, c₁, e⟩, hrun, htest⟩ := Run.exists_of_succeeds (fun x => x.1.engine.series.length = 1)
      (dailyRun [1751427900000000000, 1751427960000000000]) (by decide +kernel)
    obtain ⟨hstart, hday, hduring⟩ := dailyRun_eq_ok hrun
    refine ⟨c₀, c₁, e, hrun, of_decide_eq_true htest, fun k hk => ?_⟩
    have hduring : c₁.during dailyDesk keepBars secondDay ⟨20250702⟩
        ([1751427900000000000] ++ [1751427960000000000]) = .ok e := hduring
    obtain ⟨_, _, hfront⟩ := series_refuse_iff_deadline_passed hstart (hnone c₀) hday (hnone c₁) hduring
    obtain ⟨s, hs, hiff⟩ := hfront k hk
    exact ⟨s, hs, hiff.mpr (by decide)⟩

end Volforge
