import Volforge.Core.Correctness.Causal
import Volforge.Core.Correctness.Closings
import Volforge.Core.Correctness.Engine
import Volforge.Core.Correctness.Events
import Volforge.Core.Correctness.Fills

/-!
# `Core.Correctness.Truncation` — a truncated run is a prefix of the run

A causal strategy is run over a session and over the session cut off at `T`. The two engines stay twins
(`Engine.Twin`) up to `T`: the second has the truncated session behind it and the clipped series, and is the
same in everything else. After `T` the first goes on alone, and every trade it makes is later than `T`.

## Contents
- **Twins.** `ctx_agree`, and one lemma for each thing the engine does.
- **Resolved portfolios.** What is held has an entry in the registry, so the final margin can be computed.
- **The prefix.** `replaySession_truncate`, and the detector.
-/

namespace Volforge

variable {F : Type} [Double F] {σ : Type}

open Portfolio

/-- Two strategies wait alike. -/
inductive Task.Same (R : σ → σ → Prop) : Task F σ → Task F σ → Prop where
  | suspended {cond cond' s s'} (hcond : cond.Same cond') (hs : R s s') :
      Same R (.suspended cond s) (.suspended cond' s')
  | done : Same R .done .done

namespace Engine

/-! ## Twins -/

/-- `e'` is `e` over the session truncated at `T`. -/
structure Twin (T : Timestamp) (R : σ → σ → Prop) (e e' : Engine F σ) : Prop where
  contract : e.session.Contract
  session : e'.session = e.session.truncate T
  clock_le : e.clock ≤ T
  same : e' = { e with session := e'.session, series := e'.series, task := e'.task }
  series : List.Forall₂ (fun long short => BarSeries.Clipped T short long) e.series e'.series
  task : e.task.Same R e'.task

variable {T : Timestamp} {R : σ → σ → Prop} {e e' : Engine F σ}

omit [Double F] in
theorem Twin.date (h : Twin T R e e') : e'.date = e.date := by rw [h.same]

omit [Double F] in
theorem Twin.clock (h : Twin T R e e') : e'.clock = e.clock := by rw [h.same]

omit [Double F] in
theorem Twin.portfolio (h : Twin T R e e') : e'.portfolio = e.portfolio := by rw [h.same]

omit [Double F] in
/-- The market looks the same. -/
theorem Twin.market (h : Twin T R e e') : e'.market = e.market := by
  unfold Engine.market
  rw [h.session, h.clock]
  exact SessionData.view_truncate h.contract h.clock_le

theorem view_past (s : SessionData) (now : Timestamp) (id : InstrumentId) (back : Nat) (q : Quote)
    (h : (s.view now).quote id back = some q) : q.ts ≤ now := by
  have h : (s.quotes id).quoteAt now back = some q := h
  unfold QuoteColumns.quoteAt at h
  split at h
  · cases h
  · split at h
    · cases h
    · next idx hidx =>
        split at h
        · cases h
        · cases h
          apply QuoteColumns.time_le_of_lt_upperBound
          rw [QuoteColumns.indexAtOrBefore_eq_some.mp hidx]
          omega

/-- **Twins hand out agreeing contexts.** -/
theorem Twin.ctx_agree (h : Twin T R e e') (desk : Desk F) : (e.ctx desk).Agree (e'.ctx desk) where
  rest := by
    unfold Engine.ctx Engine.anchor
    rw [h.market, h.portfolio, h.date]
  series := by
    show List.Forall₂ _ (e.series.map BarSeries.view) (e'.series.map BarSeries.view)
    rw [List.forall₂_map_left_iff, List.forall₂_map_right_iff]
    exact h.series.imp (fun _ _ hclip => hclip.view_agree.mono h.clock_le)
  past := view_past _ _

omit [Double F] in
/-- Where both go on from the same update of their common part, they are still twins. -/
theorem Twin.update (h : Twin T R e e') {f f' : Engine F σ} (hsession : f.session = e.session)
    (hsession' : f'.session = e'.session) (hclock : f.clock ≤ T)
    (hsame : f' = { f with session := f'.session, series := f'.series, task := f'.task })
    (hseries : f.series = e.series) (hseries' : f'.series = e'.series) (htask : f.task.Same R f'.task) :
    Twin T R f f' where
  contract := by
    rw [hsession]
    exact h.contract
  session := by rw [hsession, hsession', h.session]
  clock_le := hclock
  same := hsame
  series := by
    rw [hseries, hseries']
    exact h.series
  task := htask

omit [Double F] in
theorem Twin.answer (h : Twin T R e e') (x : Except Error (Portfolio F × Option Nat)) :
    Twin T R (e.answer x).1 (e'.answer x).1 ∧ (e'.answer x).2 = (e.answer x).2 := by
  cases x with
  | error err => exact ⟨h, rfl⟩
  | ok x =>
      have hsame := congrArg (fun e : Engine F σ => { e with portfolio := x.1 }) h.same
      exact ⟨h.update rfl rfl h.clock_le hsame rfl rfl h.task, rfl⟩

theorem Twin.buildBars (h : Twin T R e e') (desk : Desk F) (id : InstrumentId) (intervalSeconds : Int)
    (source : BarPrice) : Run.Alike (fun long short => BarSeries.Clipped T short long)
      (e.buildBars desk id intervalSeconds source) (e'.buildBars desk id intervalSeconds source) := by
  unfold Engine.buildBars Engine.anchor
  by_cases hint : intervalSeconds ≤ 0
  · rw [if_pos hint, if_pos hint]
    exact .error _
  · rw [if_neg hint, if_neg hint, h.date, h.session, SessionData.truncate_quotes h.contract]
    exact BarSeries.clipped_build (h.contract.ascending id) T _ _ _ _

omit [Double F] in
theorem Twin.hold (h : Twin T R e e') {x y : Except Error BarSeries}
    (hxy : Run.Alike (fun long short => BarSeries.Clipped T short long) x y) :
    Twin T R (e.hold x).1 (e'.hold y).1 ∧ (e'.hold y).2 = (e.hold x).2 := by
  cases hxy with
  | error err => exact ⟨h, rfl⟩
  | @ok long short hclip =>
      have hsame := congrArg (fun x : Engine F σ => { x with series := e'.series ++ [short] }) h.same
      refine ⟨⟨h.contract, h.session, h.clock_le, hsame, ?_, h.task⟩, ?_⟩
      · exact List.rel_append h.series (.cons hclip .nil)
      · show Except.ok (some e'.series.length) = Except.ok (some e.series.length)
        rw [h.series.length_eq]

/-- **Twins run the same command**, and get the same reply. -/
theorem Twin.perform (h : Twin T R e e') (desk : Desk F) (cmd : Command F) :
    Twin T R (e.perform desk cmd).1 (e'.perform desk cmd).1 ∧
      (e'.perform desk cmd).2 = (e.perform desk cmd).2 := by
  obtain ⟨id, intervalSeconds, source, hcmd⟩ | hcmd := @perform_cases F _ σ cmd
  · rw [hcmd desk e, hcmd desk e']
    exact h.hold (h.buildBars desk id intervalSeconds source)
  · rw [hcmd desk e, hcmd desk e', (h.ctx_agree desk).submit cmd]
    exact h.answer _

/-- **Twins run the same stretch** of strategy code. -/
theorem Twin.exec (desk : Desk F) {s s' : Script F σ} (hs : s.Same R s') (h : Twin T R e e') {f : Engine F σ}
    (hf : s.exec desk e = .ok f) : ∃ f', s'.exec desk e' = .ok f' ∧ Twin T R f f' := by
  induction hs generalizing e e' with
  | look _ ih => exact ih _ _ (h.ctx_agree desk) h hf
  | @order cmd k k' _ ih =>
      obtain ⟨htwin, hreply⟩ := h.perform desk cmd
      obtain ⟨f', hf', hff'⟩ := ih _ htwin hf
      refine ⟨f', ?_, hff'⟩
      show (k' (e'.perform desk cmd).2).exec desk (e'.perform desk cmd).1 = .ok f'
      rw [hreply]
      exact hf'
  | @await cond cond' s s' hcond hs =>
      cases hf
      have hsame := congrArg (fun x : Engine F σ => { x with task := .suspended cond' s' }) h.same
      exact ⟨_, rfl, h.update rfl rfl h.clock_le hsame rfl rfl (.suspended hcond hs)⟩
  | finish =>
      cases hf
      have hsame := congrArg (fun x : Engine F σ => { x with task := (.done : Task F σ) }) h.same
      exact ⟨_, rfl, h.update rfl rfl h.clock_le hsame rfl rfl .done⟩
  | throw_ err => cases hf

/-- **Twins enter the strategy equally often.** -/
theorem Twin.resumeLoop (desk : Desk F) {resume : σ → Script F σ}
    (hresume : ∀ s s', R s s' → (resume s).Same R (resume s')) (left : Nat) (h : Twin T R e e')
    {f : Engine F σ} (hf : e.resumeLoop desk resume left = .ok f) :
    ∃ f', e'.resumeLoop desk resume left = .ok f' ∧ Twin T R f f' := by
  induction left using Nat.strong_induction_on generalizing e e' with
  | _ left ih =>
      have htask := h.task
      generalize ht : e.task = task at htask
      generalize ht' : e'.task = task' at htask
      cases htask with
      | @suspended cond cond' s s' hcond hs =>
          rw [resumeLoop_suspended desk resume left ht] at hf
          rw [resumeLoop_suspended desk resume left ht', ← hcond.valid]
          by_cases hvalid : (!cond.valid) = true
          · rw [if_pos hvalid] at hf ⊢
            cases hf
            exact ⟨e', rfl, h⟩
          rw [if_neg hvalid] at hf ⊢
          obtain ⟨holds, heval, hf⟩ := Run.bind_eq_ok.mp hf
          rw [← hcond.eval _ _ (h.ctx_agree desk), heval]
          have hsame := congrArg
            (fun x : Engine F σ => { x with conditionEvals := x.conditionEvals + 1 }) h.same
          have hcounted : Twin T R { e with conditionEvals := e.conditionEvals + 1 }
              { e' with conditionEvals := e'.conditionEvals + 1 } :=
            h.update rfl rfl h.clock_le hsame rfl rfl h.task
          cases holds with
          | false =>
              cases hf
              exact ⟨_, rfl, hcounted⟩
          | true =>
              obtain ⟨g, hg, hf⟩ := Run.bind_eq_ok.mp hf
              obtain ⟨g', hg', htwin⟩ := hcounted.exec desk (hresume s s' hs) hg
              have hsame := congrArg (fun x : Engine F σ => { x with resumes := x.resumes + 1 }) htwin.same
              have hentered : Twin T R { g with resumes := g.resumes + 1 } { g' with resumes := g'.resumes + 1 } :=
                htwin.update rfl rfl htwin.clock_le hsame rfl rfl htwin.task
              cases left with
              | zero => cases hf
              | succ left =>
                  obtain ⟨f', hf', hff'⟩ := ih left (Nat.lt_succ_self left) hentered hf
                  exact ⟨f', Run.bind_eq_ok.mpr ⟨true, rfl, Run.bind_eq_ok.mpr ⟨g', hg', hf'⟩⟩, hff'⟩
      | done =>
          unfold Engine.resumeLoop at hf ⊢
          rw [ht] at hf
          rw [ht']
          cases hf
          exact ⟨e', rfl, h⟩

omit [Double F] in
theorem Twin.operate (h : Twin T R e e') {op : Portfolio F → Except Error (Portfolio F)} {f : Engine F σ}
    (hf : e.operate op = .ok f) : ∃ f', e'.operate op = .ok f' ∧ Twin T R f f' := by
  obtain ⟨p, hp, hf⟩ := Run.bind_eq_ok.mp hf
  cases hf
  have hsame := congrArg (fun x : Engine F σ => { x with portfolio := p }) h.same
  refine ⟨{ e' with portfolio := p }, Run.bind_eq_ok.mpr ⟨p, ?_, rfl⟩,
    h.update rfl rfl h.clock_le hsame rfl rfl h.task⟩
  rw [h.portfolio]
  exact hp

theorem Twin.sampleMargin (desk : Desk F) (h : Twin T R e e') {f : Engine F σ}
    (hf : e.sampleMargin desk = .ok f) : ∃ f', e'.sampleMargin desk = .ok f' ∧ Twin T R f f' := by
  have hnext : e'.nextMargin = e.nextMargin := by rw [h.same]
  have hpeak : e'.peakMargin = e.peakMargin := by rw [h.same]
  unfold Engine.sampleMargin at hf ⊢
  rw [h.clock, hnext]
  by_cases hwait : e.clock < e.nextMargin
  · rw [if_pos hwait] at hf ⊢
    cases hf
    exact ⟨e', rfl, h⟩
  · rw [if_neg hwait] at hf ⊢
    obtain ⟨m, hm, hf⟩ := Run.bind_eq_ok.mp hf
    cases hf
    rw [(h.ctx_agree desk).marginNow] at hm
    have hsame := congrArg (fun x : Engine F σ =>
      { x with
        clock := e.clock
        peakMargin := max e.peakMargin m.total
        nextMargin := e.clock + desk.config.marginInterval }) h.same
    refine ⟨_, Run.bind_eq_ok.mpr ⟨m, hm, rfl⟩, ?_⟩
    rw [hpeak]
    exact h.update rfl rfl h.clock_le hsame rfl rfl h.task

/-- **Twins step together** up to the cutoff. -/
theorem Twin.step (desk : Desk F) {resume : σ → Script F σ}
    (hresume : ∀ s s', R s s' → (resume s).Same R (resume s')) {marks : Bool} (h : Twin T R e e')
    {t : Timestamp} (ht : t ≤ T) {f : Engine F σ} (hf : e.step desk resume marks t = .ok f) :
    ∃ f', e'.step desk resume marks t = .ok f' ∧ Twin T R f f' := by
  obtain ⟨e₄, hsettle, hloop⟩ := Run.bind_eq_ok.mp hf
  obtain ⟨e₀, hclock, hsettle⟩ := Run.bind_eq_ok.mp hsettle
  obtain ⟨hforward, rfl⟩ := advanceTo_eq_ok.mp hclock
  obtain ⟨e₁, hpending, hsettle⟩ := Run.bind_eq_ok.mp hsettle
  obtain ⟨e₂, hmarks, hsettle⟩ := Run.bind_eq_ok.mp hsettle
  obtain ⟨e₃, hrules, hmargin⟩ := Run.bind_eq_ok.mp hsettle
  have hclock' : e'.advanceTo t = .ok { e' with clock := t } :=
    advanceTo_eq_ok.mpr ⟨by rw [h.clock]; exact hforward, rfl⟩
  have hsame := congrArg (fun x : Engine F σ => { x with clock := t, steps := x.steps + 1 }) h.same
  have h₀ : Twin T R { e with clock := t, steps := e.steps + 1 } { e' with clock := t, steps := e'.steps + 1 } :=
    h.update rfl rfl ht hsame rfl rfl h.task
  obtain ⟨e₁', hpending', h₁⟩ := h₀.operate hpending
  obtain ⟨e₂', hmarks', h₂⟩ := h₁.operate hmarks
  obtain ⟨e₃', hrules', h₃⟩ := h₂.operate hrules
  obtain ⟨e₄', hmargin', h₄⟩ := h₃.sampleMargin desk hmargin
  obtain ⟨f', hloop', hff'⟩ := h₄.resumeLoop desk hresume _ hloop
  refine ⟨f', Run.bind_eq_ok.mpr ⟨e₄', ?_, hloop'⟩, hff'⟩
  refine Run.bind_eq_ok.mpr ⟨_, hclock', ?_⟩
  rw [← h₀.market] at hpending'
  rw [← h₁.market] at hmarks'
  rw [← h₂.market] at hrules'
  exact Run.bind_eq_ok.mpr ⟨e₁', hpending', Run.bind_eq_ok.mpr ⟨e₂', hmarks', Run.bind_eq_ok.mpr
    ⟨e₃', hrules', hmargin'⟩⟩⟩

end Engine

/-! ## Resolved portfolios -/

/-- Everything held has an entry in the registry. -/
def Resolved (registry : InstrumentRegistry) (p : Portfolio F) : Prop :=
  ∀ id i leg, p.leg? id i = some leg → leg.live = true → ∃ spec, registry.spec leg.instrument = .ok spec

theorem Ctx.greeks_total (c : Ctx F) {id : InstrumentId} {spec : InstrumentSpec}
    (h : c.registry.spec id = .ok spec) : ∃ g, c.greeks id = .ok g := by
  unfold Ctx.greeks
  rw [h, Run.ok_bind]
  split
  · exact ⟨_, rfl⟩
  · split
    · exact ⟨_, rfl⟩
    · split
      · exact ⟨_, rfl⟩
      · split
        · exact ⟨_, rfl⟩
        · dsimp only
          split
          · exact ⟨_, rfl⟩
          · exact ⟨_, rfl⟩

/-- The margin of a resolved portfolio can be computed. -/
theorem Ctx.marginNow_total (c : Ctx F) (h : Resolved c.registry c.portfolio) : ∃ m, c.marginNow = .ok m := by
  have hstep : ∀ acc, ∀ leg ∈ c.portfolio.positions.flatMap (·.legs), ∃ acc', c.addMarginLeg acc leg = .ok acc' := by
    intro acc leg hleg
    obtain ⟨id, i, hleg⟩ := Portfolio.mem_legs.mp hleg
    unfold Ctx.addMarginLeg
    by_cases hlive : leg.live = true
    · obtain ⟨spec, hspec⟩ := h id i leg hleg hlive
      obtain ⟨g, hg⟩ := c.greeks_total hspec
      simp only [hlive, Bool.not_true, Bool.false_eq_true, if_false, hspec, Run.ok_bind, hg]
      split
      · exact ⟨_, rfl⟩
      · cases g with
        | none => exact ⟨_, rfl⟩
        | some g => exact ⟨_, rfl⟩
    · exact ⟨acc, by simp [hlive]⟩
  obtain ⟨legs, hlegs, _⟩ := Run.foldlM_total (fun _ => True) _
    (fun acc leg hleg _ => (hstep acc leg hleg).imp (fun _ h => ⟨h, trivial⟩)) trivial
  exact ⟨_, Run.bind_eq_ok.mpr ⟨legs, hlegs, rfl⟩⟩

/-- What fills resolves: an order executes only where its instrument has an entry. -/
theorem Resolved.processPending {p p' : Portfolio F} (market : MarketView) (h : Resolved market.registry p)
    (hmat : Matched noneExpired p) (hop : p.processPending market = .ok p') : Resolved market.registry p' := by
  -- the quotes of the other instruments can be left out
  let c : Scope := { stillScope market.now with
    quote := fun id => match market.registry.spec id with
      | .ok _ => market.current id
      | .error _ => none }
  have hquote : ∀ id spec, market.registry.spec id = .ok spec → c.quote id = market.current id := by
    intro id spec hspec
    simp only [c, hspec]
  have hm : Moves c p p' := processPending_moves rfl hquote (fun _ hno => hno) hop
  intro id i leg' hleg' hlive'
  obtain ⟨leg, hleg, hlive, hinst⟩ | ⟨q, hq⟩ := hm.held_or_traded hmat hleg' hlive'
  · rw [← hinst]
    exact h id i leg hleg hlive
  · cases hspec : market.registry.spec leg'.instrument with
    | ok spec => exact ⟨spec, rfl⟩
    | error err => simp only [c, hspec] at hq; cases hq

omit [Double F] in
theorem Resolved.heldFrom {registry : InstrumentRegistry} {p p' : Portfolio F} (h : Resolved registry p)
    (hheld : HeldFrom p p') : Resolved registry p' := by
  intro id i leg' hleg' hlive'
  obtain ⟨leg, hleg, hlive, hinst⟩ := hheld id i leg' hleg' hlive'
  rw [← hinst]
  exact h id i leg hleg hlive

theorem Portfolio.Quiet.heldFrom {now : Timestamp} {p p' : Portfolio F} (h : Quiet now p p') (hmat : Matched noneExpired p) :
    HeldFrom p p' :=
  h.moves.heldFrom (fun _ ⟨_, hq⟩ => by cases hq) hmat

namespace Engine

variable {T : Timestamp} {R : σ → σ → Prop} {e e' : Engine F σ}

/-- What a run preserves so that its margin can be computed. -/
structure Held (e : Engine F σ) : Prop where
  matched : Matched noneExpired e.portfolio
  resolved : Resolved e.session.registry e.portfolio

theorem Stepped.held {t : Timestamp} (h : Stepped e t e') (he : Held e) : Held e' := by
  obtain ⟨p, hp, hquiet⟩ := h.portfolio
  have happly : e.portfolio.apply (.processPending (e.session.view t)) = .ok p := hp
  have hmat : Matched noneExpired p := (apply_moves he.matched happly).2
  have hres : Resolved e.session.registry p :=
    Resolved.processPending (e.session.view t) he.resolved he.matched hp
  refine ⟨hmat.moves hquiet.moves, ?_⟩
  rw [h.session]
  exact hres.heldFrom (hquiet.heldFrom hmat)

/-! ## The prefix -/

/-- Time only moves forward along a run. -/
theorem clock_le_of_run {desk : Desk F} {resume : σ → Script F σ} {marks : Bool} {steps : List Timestamp}
    (h : steps.foldlM (Engine.step desk resume marks) e = .ok e') : ∀ t ∈ steps, e.clock ≤ t := by
  induction steps generalizing e with
  | nil => simp
  | cons t steps ih =>
      obtain ⟨m, hm, hrest⟩ := Run.foldlM_cons_ok.mp h
      have hstep := step_cases hm
      intro t' ht'
      obtain rfl | ht' := List.mem_cons.mp ht'
      · exact hstep.forward
      · have hle := ih hrest t' ht'
        rw [hstep.clock] at hle
        exact le_trans hstep.forward hle

/-- The trades of a run are made at its steps. -/
theorem trades_of_run {desk : Desk F} {resume : σ → Script F σ} {marks : Bool} {steps : List Timestamp}
    (P : Timestamp → Prop) (hP : ∀ t ∈ steps, P t)
    (h : steps.foldlM (Engine.step desk resume marks) e = .ok e') :
    ∃ new, e'.portfolio.trades = e.portfolio.trades ++ new ∧ ∀ x ∈ new, P x.fillTs := by
  refine Run.foldlM_inv_mem (fun e' : Engine F σ => ∃ new, e'.portfolio.trades = e.portfolio.trades ++ new ∧
    ∀ x ∈ new, P x.fillTs) steps ?_ ⟨[], by simp⟩ h
  rintro m t ht m' ⟨old, hold, hall⟩ hstep
  obtain ⟨new, hnew, hts⟩ := (step_cases hstep).trades
  refine ⟨old ++ new, by rw [hnew, hold, List.append_assoc], fun x hx => ?_⟩
  obtain hx | hx := List.mem_append.mp hx
  · exact hall x hx
  · rw [hts x hx]
    exact hP t ht

/-- The engine before the first timestamp: nothing is held, and nothing has traded. -/
theorem start_held {desk : Desk F} {strategy : Strategy F} {session : SessionData} {date : Date}
    {e : Engine F strategy.State} (h : Engine.start desk strategy session date = .ok e) :
    e.Held ∧ e.portfolio.trades = [] := by
  obtain ⟨p₀, hp₀, _, _, _, hquiet⟩ := start_cases h
  obtain ⟨_, rfl⟩ := Portfolio.new_eq_ok.mp hp₀
  have hmat := matched_empty (F := F) (desk.config.fills.getD crossSpreadFill) desk.config.executionDelayNanos
    (desk.config.costs.getD (defaultCostPolicy F))
  refine ⟨⟨hmat.moves hquiet.moves, ?_⟩, hquiet.trades_eq⟩
  intro id i leg hleg hlive
  obtain ⟨leg₀, hleg₀, _⟩ := hquiet.heldFrom hmat id i leg hleg hlive
  simp [leg?, empty] at hleg₀

/-- Twins from the start. -/
theorem start_twin {desk : Desk F} {strategy : Strategy F} {session : SessionData} {date : Date}
    {R : strategy.State → strategy.State → Prop} (hc : session.Contract) (hT : 0 ≤ T)
    (hstart : strategy.start.Same R strategy.start) {e : Engine F strategy.State}
    (h : Engine.start desk strategy session date = .ok e) :
    ∃ e', Engine.start desk strategy (session.truncate T) date = .ok e' ∧ Twin T R e e' := by
  obtain ⟨p₀, hp₀, hexec⟩ := Run.bind_eq_ok.mp h
  have h₀ : Twin T R ({ session := session, date := date, portfolio := p₀ } : Engine F strategy.State)
      { session := session.truncate T, date := date, portfolio := p₀ } :=
    ⟨hc, rfl, hT, rfl, .nil, .done⟩
  obtain ⟨e', he', htwin⟩ := h₀.exec desk hstart hexec
  exact ⟨e', Run.bind_eq_ok.mpr ⟨p₀, hp₀, he'⟩, htwin⟩

end Engine

open Engine in
/-- **A truncated run is a prefix of the run.** -/
theorem replaySession_truncate {desk : Desk F} {strategy : Strategy F} {session : SessionData}
    (hc : session.Contract) (hcausal : strategy.Causal) {T : Timestamp} (hT : 0 ≤ T)
    {e : Engine F strategy.State} (h : replaySession desk strategy session = .ok e) :
    ∃ e', replaySession desk strategy (session.truncate T) = .ok e' ∧ e'.Held ∧
      e'.portfolio.trades = e.portfolio.trades.filter (fun x => x.fillTs ≤ T) := by
  obtain ⟨R, hstart, hresume⟩ := hcausal
  obtain ⟨e₀, he₀, hrun⟩ := Run.bind_eq_ok.mp h
  obtain ⟨e₀', he₀', htwin⟩ := start_twin hc hT hstart he₀
  obtain ⟨_, hnone⟩ := start_held he₀
  obtain ⟨hheld', _⟩ := start_held he₀'
  obtain ⟨_, _, _, _, hclock, _⟩ := start_cases he₀
  have hpos : ∀ t ∈ session.steps, kNoTime < t := by
    intro t ht
    have hle := clock_le_of_run hrun t ht
    rw [hclock] at hle
    exact lt_of_lt_of_le (by decide) hle
  -- the run up to the cutoff, and the rest of it
  obtain ⟨hasc, _⟩ := SessionData.steps_spec hc
  have hsplit : session.steps.filter (fun t => decide (t ≤ T)) ++
      session.steps.filter (fun t => !decide (t ≤ T)) = session.steps := by
    refine Sorted.filter_append_filter_not (hasc.imp (fun {a b} hab hb => ?_))
    simp only [decide_eq_true_eq] at hb ⊢
    exact le_trans (le_of_lt hab) hb
  rw [← hsplit] at hrun
  obtain ⟨m, hfront, hback⟩ := Run.foldlM_ok_append.mp hrun
  have hle : ∀ t ∈ session.steps.filter (fun t => decide (t ≤ T)), t ≤ T := fun t ht => by
    simpa using (List.mem_filter.mp ht).2
  have hlate : ∀ t ∈ session.steps.filter (fun t => !decide (t ≤ T)), T < t := fun t ht => by
    simpa using (List.mem_filter.mp ht).2
  obtain ⟨m', hfront', hmm'⟩ := Run.foldlM_sim (Twin T R) _
    (fun e₁ e₂ t ht e₁' htw hstep => htw.step desk hresume (hle t ht) hstep) htwin hfront
  have hheld := Run.foldlM_inv Held (fun _ _ _ hs hstep => (step_cases hstep).held hs) _ e₀' m' hheld' hfront'
  refine ⟨m', Run.bind_eq_ok.mpr ⟨e₀', he₀', ?_⟩, hheld, ?_⟩
  · rw [SessionData.steps_truncate hc T hpos]
    exact hfront'
  · obtain ⟨old, hold, hallOld⟩ := trades_of_run (· ≤ T) hle hfront
    obtain ⟨new, hnew, hallNew⟩ := trades_of_run (T < ·) hlate hback
    have hkeep : old.filter (fun x => decide (x.fillTs ≤ T)) = old := by
      rw [List.filter_eq_self]
      exact fun x hx => decide_eq_true (hallOld x hx)
    have hdrop : new.filter (fun x => decide (x.fillTs ≤ T)) = [] := by
      rw [List.filter_eq_nil_iff]
      exact fun x hx => by simpa using hallNew x hx
    rw [hmm'.portfolio, hnew, List.filter_append, hold, hnone, List.nil_append, hkeep, hdrop, List.append_nil]

/-! ## Any cutoff -/

/-- A session cut off before time 0 is the one cut off at 0, if nothing printed in between. -/
theorem SessionData.truncate_eq_zero {s : SessionData} (hc : s.Contract) {T : Timestamp} (hT : T < 0)
    (hquiet : ∀ t, s.PrintsAt t → ¬ (T < t ∧ t ≤ 0)) : s.truncate T = s.truncate 0 := by
  -- a row counted at 0 and not at `T` would have printed in between
  have hcount : ∀ id, (s.quotes id).upperBound T = (s.quotes id).upperBound 0 := by
    intro id
    refine Nat.le_antisymm ((s.quotes id).upperBound_mono (le_of_lt hT)) (not_lt.mp fun hlt => ?_)
    have hsize : (s.quotes id).upperBound T < (s.quotes id).size :=
      lt_of_lt_of_le hlt ((s.quotes id).upperBound_le_size 0)
    have hid : id ∈ s.instruments := by
      by_contra hid
      simp [QuoteColumns.size, hc.listed id hid] at hsize
    have hlate : ¬ (s.quotes id).time ((s.quotes id).upperBound T) ≤ T := by
      rw [← QuoteColumns.lt_upperBound_iff (hc.ascending id) hsize]
      exact lt_irrefl _
    exact hquiet _ ⟨id, hid, _, hsize, rfl⟩ ⟨not_le.mp hlate, QuoteColumns.time_le_of_lt_upperBound hlt⟩
  have hidx : ∀ id, (s.quotes id).indexAtOrBefore T = (s.quotes id).indexAtOrBefore 0 := by
    intro id
    unfold QuoteColumns.indexAtOrBefore
    rw [hcount]
  have hkeeps : s.keeps T = s.keeps 0 := by
    funext id
    unfold keeps
    rw [hidx]
  have hclip : s.clipCount T = s.clipCount 0 := by
    funext id
    unfold clipCount
    rw [hidx]
  have hquotes : s.clipQuotes T = s.clipQuotes 0 := by
    funext id
    unfold clipQuotes
    rw [hkeeps, hclip]
  unfold truncate
  rw [hkeeps, hclip, hquotes]

/-- The cutoffs that separate what a run sees at its start from what it sees later: the clock starts at 0. -/
def SessionData.Separates (s : SessionData) (T : Timestamp) : Prop :=
  0 ≤ T ∨ ∀ t, s.PrintsAt t → ¬ (T < t ∧ t ≤ 0)

/-- The trades of a run are made when something prints. -/
theorem replaySession_trades {desk : Desk F} {strategy : Strategy F} {session : SessionData}
    (hc : session.Contract) {e : Engine F strategy.State} (h : replaySession desk strategy session = .ok e) :
    (∀ t ∈ session.steps, 0 ≤ t ∧ session.PrintsAt t) ∧
      ∀ x ∈ e.portfolio.trades, 0 ≤ x.fillTs ∧ session.PrintsAt x.fillTs := by
  obtain ⟨e₀, he₀, hrun⟩ := Run.bind_eq_ok.mp h
  obtain ⟨_, _, _, _, hclock, _⟩ := Engine.start_cases he₀
  obtain ⟨_, hnone⟩ := Engine.start_held he₀
  have hsteps : ∀ t ∈ session.steps, 0 ≤ t ∧ session.PrintsAt t := by
    intro t ht
    have hle := Engine.clock_le_of_run hrun t ht
    rw [hclock] at hle
    exact ⟨hle, ((SessionData.steps_spec hc).2 t (lt_of_lt_of_le (by decide) hle)).mp ht⟩
  obtain ⟨new, hnew, hall⟩ := Engine.trades_of_run (fun t => 0 ≤ t ∧ session.PrintsAt t) hsteps hrun
  rw [hnone, List.nil_append] at hnew
  rw [hnew]
  exact ⟨hsteps, hall⟩

/-- **A truncated run completes, with a prefix of the trades.** -/
theorem runSession_truncate {session : SessionData} {underlying : UnderlyingId} {spot : InstrumentId}
    {strategy : Strategy F} {config : RunConfig F} (hc : session.Contract) (hcausal : strategy.Causal)
    {full : RunResult} (h : runSession session underlying spot strategy config = .ok full) {T : Timestamp}
    (hT : session.Separates T) :
    ∃ r, runSession (session.truncate T) underlying spot strategy config = .ok r ∧
      r.tradeLog = full.tradeLog.filter (fun x => x.fillTs ≤ T) := by
  obtain ⟨e, hrun, hresult⟩ := Run.bind_eq_ok.mp h
  obtain ⟨_, _, hresult⟩ := Run.bind_eq_ok.mp hresult
  cases hresult
  have hpast : ∀ T, 0 ≤ T → ∃ r, runSession (session.truncate T) underlying spot strategy config = .ok r ∧
      r.tradeLog = e.portfolio.trades.filter (fun x => x.fillTs ≤ T) := by
    intro T hT
    obtain ⟨e', hrun', hheld, htrades⟩ := replaySession_truncate hc hcausal hT hrun
    obtain ⟨m, hm⟩ := (e'.ctx { underlying := underlying, spot := spot, config := config }).marginNow_total
      hheld.resolved
    exact ⟨_, Run.bind_eq_ok.mpr ⟨e', hrun', Run.bind_eq_ok.mpr ⟨m, hm, rfl⟩⟩, htrades⟩
  obtain hT | hquiet := hT
  · exact hpast T hT
  · by_cases hneg : 0 ≤ T
    · exact hpast T hneg
    · -- nothing printed between the cutoff and the start of the clock, and nothing traded
      have hneg : T < 0 := not_le.mp hneg
      obtain ⟨r, hr, hlog⟩ := hpast 0 (le_refl 0)
      rw [SessionData.truncate_eq_zero hc hneg hquiet]
      refine ⟨r, hr, hlog.trans (List.filter_congr (fun x hx => ?_))⟩
      obtain ⟨hpos, hprint⟩ := (replaySession_trades hc hrun).2 x hx
      have h₀ : ¬ x.fillTs ≤ 0 := fun hle => hquiet _ hprint ⟨lt_of_lt_of_le hneg hpos, hle⟩
      have hT : ¬ x.fillTs ≤ T := fun hle => h₀ (le_trans hle (le_of_lt hneg))
      rw [decide_eq_false h₀, decide_eq_false hT]

/-! ## The detector -/

theorem mem_insertCutoff {t u : Timestamp} {chosen : List Timestamp} :
    u ∈ insertCutoff t chosen ↔ u = t ∨ u ∈ chosen := by
  induction chosen with
  | nil => simp [insertCutoff]
  | cons v vs ih =>
      unfold insertCutoff
      split_ifs with hlt heq
      · simp
      · simp [heq]
      · simp only [List.mem_cons, ih]
        tauto

theorem getD_times (P : Timestamp → Prop) {times : List Timestamp} (h₀ : P 0) (htimes : ∀ t ∈ times, P t)
    (k : Nat) : P (times.getD k 0) := by
  rw [List.getD_eq_getElem?_getD]
  cases hk : times[k]? with
  | none => exact h₀
  | some t => exact htimes t (List.mem_of_getElem? hk)

/-- The boundaries next to a fill are times of the session, or 0. -/
theorem cutAround_mem (P : Timestamp → Prop) {times : List Timestamp} (h₀ : P 0) (htimes : ∀ t ∈ times, P t)
    {chosen : List Timestamp} (hchosen : ∀ t ∈ chosen, P t) (x : TradeRecord) :
    ∀ t ∈ cutAround times chosen x, P t := by
  have hinsert : ∀ (c : Timestamp) (cs : List Timestamp), P c → (∀ t ∈ cs, P t) → ∀ t ∈ insertCutoff c cs, P t := by
    intro c cs hc hcs t ht
    obtain rfl | ht := mem_insertCutoff.mp ht
    · exact hc
    · exact hcs t ht
  unfold cutAround
  dsimp only
  generalize (times.takeWhile (· < x.fillTs)).length = k
  cases hk : times[k]? with
  | none =>
      cases k with
      | zero => exact hchosen
      | succ k => exact hinsert _ _ (getD_times P h₀ htimes k) hchosen
  | some c =>
      have hnext := hinsert c chosen (htimes c (List.mem_of_getElem? hk)) hchosen
      cases k with
      | zero => exact hnext
      | succ k => exact hinsert _ _ (getD_times P h₀ htimes k) hnext

/-- Whatever is drawn, the cutoffs are times of the session, or 0. -/
theorem drawCutoffs_mem (P : Timestamp → Prop) {times : List Timestamp} (h₀ : P 0) (htimes : ∀ t ∈ times, P t)
    (cutoffs : Int) (draws : List Nat) {chosen : List Timestamp} (hchosen : ∀ t ∈ chosen, P t) :
    ∀ t ∈ drawCutoffs times cutoffs draws chosen, P t := by
  induction draws generalizing chosen with
  | nil => exact hchosen
  | cons draw draws ih =>
      have hmore : ∀ t ∈ insertCutoff (times.getD draw 0) chosen, P t := by
        intro t ht
        obtain rfl | ht := mem_insertCutoff.mp ht
        · exact getD_times P h₀ htimes draw
        · exact hchosen t ht
      unfold drawCutoffs
      dsimp only
      split_ifs
      · exact hmore
      · exact ih hmore
      · exact hchosen

theorem fst_eq_snd_of_mem_zip {α : Type} {xs : List α} {x : α × α} (h : x ∈ xs.zip xs) : x.1 = x.2 := by
  induction xs with
  | nil => cases h
  | cons a xs ih =>
      obtain rfl | h := List.mem_cons.mp h
      · rfl
      · exact ih h

/-- A log compared with itself. -/
theorem LookaheadReport.compare_self (r : LookaheadReport) (cutoff : Timestamp) (log : List TradeRecord) :
    r.compare cutoff log log = { r with tradesCompared := r.tradesCompared + log.length } := by
  have hsame : (log.zip log).find? (fun x => !sameTrade x.1 x.2) = none := by
    rw [List.find?_eq_none]
    intro x hx
    have heq := fst_eq_snd_of_mem_zip hx
    simp [sameTrade, heq]
  unfold LookaheadReport.compare
  simp [hsame]

/-- **The detector reports nothing** about a causal strategy. -/
theorem checkLookahead_clean {session : SessionData} {underlying : UnderlyingId} {spot : InstrumentId}
    {strategy : Strategy F} {config : RunConfig F} (hc : session.Contract) (hcausal : strategy.Causal)
    {full : RunResult} (h : runSession session underlying spot strategy config = .ok full) (cutoffs : Int)
    (draws : List Nat) :
    ∃ report, checkLookahead session underlying spot strategy config cutoffs draws = .ok report ∧
      report.clean = true ∧ report.violations = [] := by
  obtain ⟨e, hrun, _⟩ := Run.bind_eq_ok.mp h
  -- every cutoff is a time of the session or next to a trade, so none is before 0
  have htimes : ∀ t ∈ SessionData.dropRepeats kNoTime session.events, 0 ≤ t := by
    intro t ht
    obtain ⟨hlt, hprint⟩ := ((SessionData.mergedTimes_spec hc).2 t).mp ht
    exact ((replaySession_trades hc hrun).1 t (((SessionData.steps_spec hc).2 t hlt).mpr hprint)).1
  unfold checkLookahead
  rw [h, Run.ok_bind]
  dsimp only
  split
  · exact ⟨{}, rfl, rfl, rfl⟩
  · have hstart : ∀ t ∈ full.tradeLog.foldl (cutAround (SessionData.dropRepeats kNoTime session.events)) [],
        0 ≤ t :=
      Run.foldl_inv (fun chosen : List Timestamp => ∀ t ∈ chosen, 0 ≤ t) _
        (fun chosen x _ hchosen => cutAround_mem (0 ≤ ·) (le_refl 0) htimes hchosen x) (by simp)
    have hcut := drawCutoffs_mem (0 ≤ ·) (le_refl 0) htimes cutoffs draws hstart
    refine Run.foldlM_total (fun r : LookaheadReport => r.clean = true ∧ r.violations = []) _ ?_ ⟨rfl, rfl⟩
    rintro r T hT ⟨hclean, hnone⟩
    unfold checkCutoff
    dsimp only
    split
    · exact ⟨_, rfl, hclean, hnone⟩
    · obtain ⟨truncated, htr, hlog⟩ := runSession_truncate hc hcausal h (.inl (hcut T hT))
      rw [htr, Run.ok_bind, ← hlog, LookaheadReport.compare_self]
      exact ⟨_, rfl, hclean, hnone⟩

/-- **Causality.** A strategy that asks its series about no later instant trades the same when the session is
    cut off, and the detector is silent about it. -/
theorem causal_runs_are_prefixes {session : SessionData} {underlying : UnderlyingId} {spot : InstrumentId}
    {strategy : Strategy F} {config : RunConfig F} {full : RunResult} (hc : session.Contract)
    (hcausal : strategy.Causal) (h : runSession session underlying spot strategy config = .ok full) :
    (∀ T, session.Separates T →
      ∃ r, runSession (session.truncate T) underlying spot strategy config = .ok r ∧
        r.tradeLog = full.tradeLog.filter (fun x => x.fillTs ≤ T)) ∧
    ∀ cutoffs draws, ∃ report,
      checkLookahead session underlying spot strategy config cutoffs draws = .ok report ∧
        report.clean = true ∧ report.violations = [] :=
  ⟨fun _ hT => runSession_truncate hc hcausal h hT, checkLookahead_clean hc hcausal h⟩

/-- Waits for time 1, then sells a strike. -/
theorem sellAtOne_causal : sellAtOne.Causal :=
  ⟨Eq, .await (causal_atOrAfter 1) rfl, fun _ _ _ => .order _ fun _ => .finish⟩

theorem causal_runs_are_prefixes_quiet :
    ∃ full, runSession quietSession 0 (-1) sellAtOne { costs := some noCosts } = .ok full ∧
      full.tradeLog.length = 1 ∧
      ∃ r, runSession (quietSession.truncate 1) 0 (-1) sellAtOne { costs := some noCosts } = .ok r ∧
        r.tradeLog = full.tradeLog.filter (fun x => x.fillTs ≤ 1) := by
  obtain ⟨full, hfull, htest⟩ := Run.exists_of_succeeds (fun r => r.tradeLog.length = 1)
    (runSession quietSession 0 (-1) sellAtOne { costs := some noCosts }) (by decide +kernel)
  obtain ⟨hclip, _⟩ := causal_runs_are_prefixes quietSession_contract sellAtOne_causal hfull
  exact ⟨full, hfull, of_decide_eq_true htest, hclip 1 (.inl (by decide))⟩

/-! ### A series asked about the future -/

/-- Asks a series about an instant a second ahead, before anything has printed. -/
def peekAhead : Strategy ℚ where
  State := Unit
  start := .order (.bars 1 1 .Last) fun _ => .look fun c =>
    match c.series[0]? with
    | none => .finish
    | some s =>
        match s.completed 1000000000 0 with
        | .ok (some bar) =>
            if bar.observations = 2 then .order (.sell [1] 1 "peek") fun _ => .finish else .finish
        | _ => .finish
  resume _ := .finish

/-- One instrument, which prints at time 0. -/
def zeroSession : SessionData := flatSession ⟨20250701⟩ [0]

/-- Gives up when nothing has printed before the run. -/
def insistOnQuote : Strategy ℚ where
  State := Unit
  start := .look fun c => if c.market.hasQuote 0 then .finish else .throw_ (.runtimeError "no quote")
  resume _ := .finish

theorem insistOnQuote_causal : insistOnQuote.Causal := by
  refine ⟨Eq, .look fun c d h => ?_, fun _ _ _ => .finish⟩
  rw [h.market]
  split
  · exact .finish
  · exact .throw_ _

/-- A strategy that asks about the future sells because of a print the truncated session has not. One that does
    not ask sees, before the run starts, what printed by time 0, also when the session is cut off earlier. -/
theorem peeking_trades_differ_under_truncation :
    (quietSession.Contract ∧ ∃ full truncated,
      runSession quietSession 0 (-1) peekAhead { costs := some noCosts } = .ok full ∧
      runSession (quietSession.truncate 1) 0 (-1) peekAhead { costs := some noCosts } = .ok truncated ∧
      truncated.tradeLog ≠ full.tradeLog.filter (fun x => x.fillTs ≤ 1)) ∧
    zeroSession.Contract ∧ insistOnQuote.Causal ∧ ∃ full err,
      runSession zeroSession 0 (-1) insistOnQuote { costs := some noCosts } = .ok full ∧
      runSession (zeroSession.truncate (-1)) 0 (-1) insistOnQuote { costs := some noCosts } = .error err := by
  refine ⟨?_, flatSession_contract _ (by decide) (by decide), insistOnQuote_causal, ?_⟩
  · obtain ⟨full, hfull, htrades⟩ := Run.exists_of_succeeds
      (fun r => (r.tradeLog.filter (fun x => x.fillTs ≤ 1)).length = 1)
      (runSession quietSession 0 (-1) peekAhead { costs := some noCosts }) (by decide +kernel)
    obtain ⟨truncated, htruncated, hnone⟩ := Run.exists_of_succeeds (fun r => r.tradeLog.length = 0)
      (runSession (quietSession.truncate 1) 0 (-1) peekAhead { costs := some noCosts }) (by decide +kernel)
    refine ⟨quietSession_contract, full, truncated, hfull, htruncated, fun heq => ?_⟩
    have hlen := congrArg List.length heq
    rw [of_decide_eq_true hnone, of_decide_eq_true htrades] at hlen
    cases hlen
  · obtain ⟨full, hfull, _⟩ := Run.exists_of_succeeds (fun _ => true)
      (runSession zeroSession 0 (-1) insistOnQuote { costs := some noCosts }) (by decide +kernel)
    exact ⟨full, .runtimeError "no quote", hfull, rfl⟩

end Volforge
