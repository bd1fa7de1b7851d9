import Volforge.Core.Correctness.Stale

/-!
# `Core.Correctness.Positions` — open, closed, and neither

A position is open while a leg is live or still waits to open, and closed when it is established and not open.
Cancelled legs are not part of a position, so one whose orders were all withdrawn before they filled is
neither. What is not open stays as it is: its legs are at the end of their life, and no operation adds to them.

## Contents
- **Legs.** When a position is open or closed, in terms of its legs.
- **Over.** `Over`, kept by every operation.
- **Waiting.** What entering the strategy does when it awaits `positionClosed`.
- **Main result.** `open_until_closed`, over the turns of a run (`Turn`).
-/

namespace Volforge

/-! ## Legs -/

namespace Position

/-- Something of the position was held, or may still be: not all of its legs were cancelled. -/
def HasLeg (p : Position) : Prop := ∃ leg ∈ p.legs, leg.state ≠ .Cancelled

theorem isOpen_eq_false {p : Position} : p.isOpen = false ↔ ∀ leg ∈ p.legs, leg.state.terminal = true := by
  unfold isOpen
  rw [List.any_eq_false]
  refine forall₂_congr fun leg _ => ?_
  cases h : leg.state <;> simp [Leg.live, LegState.terminal, h]

theorem hasLeg_of_isOpen {p : Position} (h : p.isOpen = true) : p.HasLeg := by
  obtain ⟨leg, hleg, hlive⟩ := List.any_eq_true.mp h
  refine ⟨leg, hleg, fun hst => ?_⟩
  simp [Leg.live, hst] at hlive

/-- A position that is not open is established as soon as a leg of it filled. -/
theorem established_iff_hasLeg {p : Position} (h : p.isOpen = false) : p.established = true ↔ p.HasLeg := by
  have hall : p.legs.all (fun l => l.cancelled || l.filled) = true := by
    rw [List.all_eq_true]
    intro leg hleg
    have ht := isOpen_eq_false.mp h leg hleg
    cases hst : leg.state <;> simp_all [Leg.cancelled, Leg.filled, LegState.terminal]
  unfold established HasLeg
  rw [hall, Bool.true_and, List.any_eq_true]
  simp [Leg.cancelled]

theorem isClosed_iff {p : Position} : p.isClosed = true ↔ p.isOpen = false ∧ p.HasLeg := by
  unfold isClosed
  rw [Bool.and_eq_true, Bool.not_eq_true']
  constructor
  · rintro ⟨hest, hopen⟩
    exact ⟨hopen, (established_iff_hasLeg hopen).mp hest⟩
  · rintro ⟨hopen, hleg⟩
    exact ⟨(established_iff_hasLeg hopen).mpr hleg, hopen⟩

/-- **Open or closed, unless every leg was cancelled.** -/
theorem open_or_closed_iff (p : Position) : p.isOpen = true ∨ p.isClosed = true ↔ p.HasLeg := by
  constructor
  · rintro (hopen | hclosed)
    · exact hasLeg_of_isOpen hopen
    · exact (isClosed_iff.mp hclosed).2
  · intro hleg
    cases hopen : p.isOpen with
    | true => exact .inl rfl
    | false => exact .inr (isClosed_iff.mpr ⟨hopen, hleg⟩)

/-- Whether a position is open or closed depends on the states of its legs only. -/
theorem isOpen_congr {p q : Position} (h : p.legs.map (·.state) = q.legs.map (·.state)) : p.isOpen = q.isOpen := by
  have heq : ∀ r : Position, r.isOpen = (r.legs.map (·.state)).any (fun s => !s.terminal) := by
    intro r
    unfold isOpen
    rw [List.any_map]
    congr 1
    funext leg
    cases hst : leg.state <;> simp [Leg.live, LegState.terminal, hst]
  rw [heq, heq, h]

theorem hasLeg_congr {p q : Position} (h : p.legs.map (·.state) = q.legs.map (·.state)) :
    p.HasLeg ↔ q.HasLeg := by
  have heq : ∀ r : Position, r.HasLeg ↔ ∃ s ∈ r.legs.map (·.state), s ≠ LegState.Cancelled := by
    intro r
    simp [HasLeg]
  rw [heq, heq, h]

theorem isClosed_congr {p q : Position} (h : p.legs.map (·.state) = q.legs.map (·.state)) :
    p.isClosed = q.isClosed := by
  rw [Bool.eq_iff_iff, isClosed_iff, isClosed_iff, isOpen_congr h, hasLeg_congr h]

end Position

variable {F : Type}

namespace Portfolio

/-! ## Over -/

/-- The position exists, its legs are at the end of their life, and they are in the states they had in `p`. -/
structure Over (id : PositionId) (p q : Portfolio F) : Prop where
  exists_ : id < q.positions.length
  spent : ∀ i leg, q.leg? id i = some leg → leg.state.terminal = true
  states : ∀ i, (q.leg? id i).map (·.state) = (p.leg? id i).map (·.state)

theorem over_of_not_open {p : Portfolio F} {id : PositionId} {pos : Position} (hpos : p.positions[id]? = some pos)
    (h : pos.isOpen = false) : Over id p p where
  exists_ := (List.getElem?_eq_some_iff.mp hpos).1
  spent := by
    intro i leg hleg
    rw [leg?_of_position hpos] at hleg
    exact Position.isOpen_eq_false.mp h leg (List.mem_of_getElem? hleg)
  states _ := rfl

/-- The two positions have legs in the same states. -/
theorem Over.legs {p q : Portfolio F} {id : PositionId} (h : Over id p q) {pos : Position}
    (hpos : p.positions[id]? = some pos) :
    ∃ pos', q.positions[id]? = some pos' ∧ pos'.legs.map (·.state) = pos.legs.map (·.state) := by
  have hpos' := List.getElem?_eq_getElem h.exists_
  refine ⟨_, hpos', List.ext_getElem? fun i => ?_⟩
  have hi := h.states i
  rw [leg?_of_position hpos, leg?_of_position hpos'] at hi
  rw [List.getElem?_map, List.getElem?_map]
  exact hi

variable [Double F]

/-- New legs go to new positions, and the old ones have nowhere left to go. -/
theorem Over.move {c : Scope} {id : PositionId} {p q q' : Portfolio F} (h : Over id p q)
    (hmat : Matched c.expired q) (hknown : id < c.known) (hm : Move c q q') : Over id p q' := by
  -- a leg of an old position was there before, and the end of its life is final
  have hstate : ∀ i leg', q'.leg? id i = some leg' →
      ∃ leg, q.leg? id i = some leg ∧ leg'.state = leg.state ∧ leg.state.terminal = true := by
    intro i leg' hleg'
    cases hleg : q.leg? id i with
    | none =>
        have hnew := (hm.leg_new hleg hleg').1
        exact absurd hknown (Nat.not_lt.mpr hnew)
    | some leg =>
        obtain ⟨leg'', hleg'', hstep⟩ := hm.leg_step hmat hleg
        rw [hleg'] at hleg''
        cases hleg''
        have ht := h.spent i leg hleg
        exact ⟨leg, rfl, hstep.next.terminal_eq ht, ht⟩
  refine ⟨Nat.lt_of_lt_of_le h.exists_ hm.positions_le, fun i leg' hleg' => ?_, fun i => ?_⟩
  · obtain ⟨leg, _, hst, ht⟩ := hstate i leg' hleg'
    rw [hst]
    exact ht
  · rw [← h.states i]
    cases hleg : q.leg? id i with
    | none =>
        cases hleg' : q'.leg? id i with
        | none => rfl
        | some leg' =>
            obtain ⟨_, hno, _⟩ := hstate i leg' hleg'
            rw [hleg] at hno
            cases hno
    | some leg =>
        obtain ⟨leg', hleg', hstep⟩ := hm.leg_step hmat hleg
        rw [hleg', Option.map_some, Option.map_some, hstep.next.terminal_eq (h.spent i leg hleg)]

/-- **What is over stays over**, whatever is done later. -/
theorem Over.reach {id : PositionId} {p q : Portfolio F} (hmat : Matched noneExpired p) (h : Over id p p)
    (hreach : Run.Reach apply p q) : Over id p q := by
  have hinv := hreach.inv (fun r => Matched noneExpired r ∧ Over id p r) ⟨hmat, h⟩ ?_
  · exact hinv.2
  · rintro r op r' ⟨hr, hover⟩ hop
    obtain ⟨hmoves, hr'⟩ := apply_moves hr hop
    have hknown : id < (op.scope r).known := by
      rw [Op.scope_known]
      exact hover.exists_
    have hall := hmoves.inv (fun s => Matched (op.scope r).expired s ∧ Over id p s)
      (fun s s' hs hm => ⟨hs.1.move hm, hs.2.move hs.1 hknown hm⟩) ⟨hr.mono, hover⟩
    exact ⟨hr', hall.2⟩

/-- A position that is not open never is again, and is closed exactly when it was. -/
theorem not_open_of_reach {p q : Portfolio F} (hmat : Matched noneExpired p) {id : PositionId} {pos : Position}
    (hpos : p.positions[id]? = some pos) (h : pos.isOpen = false) (hreach : Run.Reach apply p q) :
    ∃ pos', q.positions[id]? = some pos' ∧ pos'.isOpen = false ∧ pos'.isClosed = pos.isClosed := by
  obtain ⟨pos', hpos', hlegs⟩ := ((over_of_not_open hpos h).reach hmat hreach).legs hpos
  exact ⟨pos', hpos', (Position.isOpen_congr hlegs).trans h, Position.isClosed_congr hlegs⟩

end Portfolio

/-! ## Waiting -/

variable [Double F] {σ : Type}

namespace Engine

theorem perform_resumes (desk : Desk F) (e : Engine F σ) (cmd : Command F) :
    (e.perform desk cmd).1.resumes = e.resumes := by
  obtain ⟨id, intervalSeconds, source, hcmd⟩ | hcmd := @perform_cases F _ σ cmd
  · rw [hcmd]
    unfold hold
    split <;> rfl
  · rw [hcmd]
    unfold answer
    split <;> rfl

/-- A stretch of strategy code does not enter the strategy again. -/
theorem exec_resumes {desk : Desk F} {s : Script F σ} {e e' : Engine F σ} (h : s.exec desk e = .ok e') :
    e'.resumes = e.resumes := by
  induction s generalizing e with
  | look k ih => exact ih (e.ctx desk) h
  | order cmd k ih => exact (ih _ h).trans (perform_resumes desk e cmd)
  | await cond s =>
      cases h
      rfl
  | finish =>
      cases h
      rfl
  | throw_ err => cases h

theorem resumeLoop_resumes {desk : Desk F} {resume : σ → Script F σ} {left : Nat} {e e' : Engine F σ}
    (h : e.resumeLoop desk resume left = .ok e') : e.resumes ≤ e'.resumes := by
  induction left using Nat.strong_induction_on generalizing e with
  | _ left ih =>
      rcases ht : e.task with ⟨cond, s⟩ | _
      · rw [resumeLoop_suspended desk resume left ht] at h
        by_cases hvalid : (!cond.valid) = true
        · rw [if_pos hvalid] at h
          cases h
          exact Nat.le_refl _
        rw [if_neg hvalid] at h
        obtain ⟨holds, _, h⟩ := Run.bind_eq_ok.mp h
        cases holds with
        | false =>
            cases h
            exact Nat.le_refl _
        | true =>
            obtain ⟨e₁, hexec, h⟩ := Run.bind_eq_ok.mp h
            have hsame : e₁.resumes = e.resumes := (exec_resumes hexec).trans rfl
            cases left with
            | zero => cases h
            | succ left =>
                have hrest : e₁.resumes + 1 ≤ e'.resumes := ih left (Nat.lt_succ_self left) h
                omega
      · unfold Engine.resumeLoop at h
        rw [ht] at h
        cases h
        exact Nat.le_refl _

/-- **Awaiting a position.** The strategy is resumed exactly when the position is closed, and waits on
    otherwise. -/
theorem resumeLoop_positionClosed {desk : Desk F} {resume : σ → Script F σ} {left : Nat} {e e' : Engine F σ}
    {id : PositionId} {s : σ} (ht : e.task = .suspended (Ctx.positionClosed id) s)
    (h : e.resumeLoop desk resume left = .ok e') :
    ∃ pos, e.portfolio.positions[id]? = some pos ∧ (pos.isClosed = true ↔ e.resumes < e'.resumes) ∧
      (pos.isClosed = false → e'.task = e.task) := by
  rw [resumeLoop_suspended desk resume left ht, if_neg (by simp [Ctx.positionClosed, Cond.valid, Cond.when_])] at h
  obtain ⟨holds, heval, h⟩ := Run.bind_eq_ok.mp h
  obtain ⟨pos, hat, heval⟩ := Run.bind_eq_ok.mp heval
  cases heval
  refine ⟨pos, Portfolio.atId_eq_ok.mp hat, ?_⟩
  cases hclosed : pos.isClosed with
  | false =>
      rw [hclosed] at h
      cases h
      exact ⟨⟨nofun, fun hlt => absurd hlt (Nat.lt_irrefl _)⟩, fun _ => rfl⟩
  | true =>
      rw [hclosed] at h
      obtain ⟨e₁, hexec, h⟩ := Run.bind_eq_ok.mp h
      have hsame : e₁.resumes = e.resumes := (exec_resumes hexec).trans rfl
      refine ⟨⟨fun _ => ?_, fun _ => rfl⟩, nofun⟩
      cases left with
      | zero => cases h
      | succ left =>
          have hrest : e₁.resumes + 1 ≤ e'.resumes := resumeLoop_resumes h
          omega

end Engine

/-! ## Runs -/

/-- The portfolios of one session of a run are reached from the one it began with. -/
theorem Engine.steps_reach {desk : Desk F} {resume : σ → Script F σ} {marks : Bool} {ts : List Timestamp}
    {e e' : Engine F σ} (h : ts.foldlM (Engine.step desk resume marks) e = .ok e') :
    Run.Reach Portfolio.apply e.portfolio e'.portfolio :=
  Run.foldlM_inv (fun e' => Run.Reach Portfolio.apply e.portfolio e'.portfolio)
    (fun _ _ _ hreach hstep => hreach.trans (step_cases hstep).reach) ts e e' .init h

theorem Engine.settleStep_strategy {desk : Desk F} {marks : Bool} {e e' : Engine F σ} {t : Timestamp}
    (h : e.settleStep desk marks t = .ok e') : e'.task = e.task ∧ e'.resumes = e.resumes := by
  obtain ⟨e₀, hclock, h⟩ := Run.bind_eq_ok.mp h
  obtain ⟨e₁, hpending, h⟩ := Run.bind_eq_ok.mp h
  obtain ⟨e₂, hmarks, h⟩ := Run.bind_eq_ok.mp h
  obtain ⟨e₃, hrules, hmargin⟩ := Run.bind_eq_ok.mp h
  obtain ⟨_, rfl⟩ := advanceTo_eq_ok.mp hclock
  obtain ⟨p₁, _, hpending⟩ := Run.bind_eq_ok.mp hpending
  obtain ⟨p₂, _, hmarks⟩ := Run.bind_eq_ok.mp hmarks
  obtain ⟨p₃, _, hrules⟩ := Run.bind_eq_ok.mp hrules
  cases hpending
  cases hmarks
  cases hrules
  unfold sampleMargin at hmargin
  split_ifs at hmargin
  · cases hmargin
    exact ⟨rfl, rfl⟩
  · obtain ⟨m, _, hmargin⟩ := Run.bind_eq_ok.mp hmargin
    cases hmargin
    exact ⟨rfl, rfl⟩

theorem Campaign.nextDate_reach {desk : Desk F} {config : BacktestConfig F} {source : DataSource}
    {resume : σ → Script F σ} {c c' : Campaign F σ} {date : Date}
    (hmat : Portfolio.Matched Portfolio.noneExpired c.engine.portfolio)
    (h : c.nextDate desk config source resume date = .ok c') :
    Run.Reach Portfolio.apply c.engine.portfolio c'.engine.portfolio := by
  obtain ⟨loaded, _, h⟩ := Run.bind_eq_ok.mp h
  cases loaded with
  | none =>
      cases h
      exact .init
  | some session =>
      obtain ⟨⟨e', n⟩, hday, h⟩ := Run.bind_eq_ok.mp h
      cases h
      obtain ⟨e₁, hsteps, hend⟩ := Run.bind_eq_ok.mp hday
      have hreach := Engine.steps_reach hsteps
      have hmat₁ := hreach.inv (Portfolio.Matched Portfolio.noneExpired) hmat
        (fun _ _ _ hp hs => (Portfolio.apply_moves hp hs).2)
      exact hreach.trans (Engine.endSession_cases hmat₁ hend).closing.reach

/-- What is done at a timestamp before the strategy is entered is a sequence of operations too. -/
theorem Engine.settleStep_reach {desk : Desk F} {marks : Bool} {e e' : Engine F σ} {t : Timestamp}
    (h : e.settleStep desk marks t = .ok e') : Run.Reach Portfolio.apply e.portfolio e'.portfolio := by
  obtain ⟨e₀, hclock, h⟩ := Run.bind_eq_ok.mp h
  obtain ⟨e₁, hpending, h⟩ := Run.bind_eq_ok.mp h
  obtain ⟨e₂, hmarks, h⟩ := Run.bind_eq_ok.mp h
  obtain ⟨e₃, hrules, hmargin⟩ := Run.bind_eq_ok.mp h
  obtain ⟨_, rfl⟩ := advanceTo_eq_ok.mp hclock
  obtain ⟨hp₁, _⟩ := operate_cases hpending
  obtain ⟨hp₂, _⟩ := operate_cases hmarks
  obtain ⟨hp₃, _⟩ := operate_cases hrules
  have hop₁ : e.portfolio.apply (.processPending (e.session.view t)) = .ok e₁.portfolio := hp₁
  have hop₃ : e₂.portfolio.apply (.processRiskRules e₂.market) = .ok e₃.portfolio := hp₃
  have hfill : Run.Reach Portfolio.apply e.portfolio e₁.portfolio := .step .init hop₁
  have hmark : Run.Reach Portfolio.apply e₁.portfolio e₂.portfolio := by
    cases marks with
    | true =>
        have hop₂ : e₁.portfolio.apply (.refreshMarks e₁.market) = .ok e₂.portfolio := hp₂
        exact .step .init hop₂
    | false =>
        rw [← show e₁.portfolio = e₂.portfolio from Except.ok.inj hp₂]
        exact .init
  have hrule : Run.Reach Portfolio.apply e₂.portfolio e₃.portfolio := .step .init hop₃
  exact ((hfill.trans hmark).trans hrule).trans (sampleMargin_entered hmargin).quiet.reach

/-- A turn of the loop over the timestamps, in a run over one session or over many: the engine it starts
    with, and the timestamp. `marks` tells the two kinds of run apart. -/
inductive Turn (desk : Desk F) (strategy : Strategy F) : Bool → Engine F strategy.State → Timestamp → Prop where
  | session {session : SessionData} {done rest : List Timestamp} {t : Timestamp} {e₀ e : Engine F strategy.State}
      (hstart : Engine.start desk strategy session session.date = .ok e₀) (hsteps : session.steps = done ++ t :: rest)
      (hdone : done.foldlM (Engine.step desk strategy.resume false) e₀ = .ok e) : Turn desk strategy false e t
  | backtest {config : BacktestConfig F} {source : DataSource} {front date : Date} {before : List Date}
      {c₀ c₁ : Campaign F strategy.State} {session : SessionData} {done rest : List Timestamp} {t : Timestamp}
      {e : Engine F strategy.State} (hstart : startCampaign desk source strategy front = .ok c₀)
      (hbefore : replayDates desk config source strategy before c₀ = .ok c₁)
      (hload : source.load date = .ok (some session)) (hsteps : session.steps = done ++ t :: rest)
      (hdone : c₁.during desk strategy session date done = .ok e) : Turn desk strategy true e t

open Portfolio in
/-- The portfolio of an engine that has just started. -/
theorem Engine.start_reachable {desk : Desk F} {strategy : Strategy F} {session : SessionData} {date : Date}
    {e : Engine F strategy.State} (h : Engine.start desk strategy session date = .ok e) :
    ∃ fills delay costs, Reachable fills delay costs e.portfolio := by
  obtain ⟨p₀, hp₀, _, _, _, hquiet⟩ := start_cases h
  obtain ⟨_, rfl⟩ := Portfolio.new_eq_ok.mp hp₀
  exact ⟨_, _, _, hquiet.reach⟩

open Portfolio in
theorem Turn.reachable {desk : Desk F} {strategy : Strategy F} {marks : Bool} {e : Engine F strategy.State}
    {t : Timestamp} (h : Turn desk strategy marks e t) :
    ∃ fills delay costs, Reachable fills delay costs e.portfolio := by
  cases h with
  | session hstart _ hdone =>
      obtain ⟨fills, delay, costs, hreach⟩ := Engine.start_reachable hstart
      exact ⟨fills, delay, costs, hreach.trans (Engine.steps_reach hdone)⟩
  | @backtest config source front date before c₀ c₁ session done rest t e hstart hbefore _ _ hdone =>
      obtain ⟨loaded, _, hstart⟩ := Run.bind_eq_ok.mp hstart
      cases loaded with
      | none => cases hstart
      | some first =>
          obtain ⟨e₀, hfirst, hc⟩ := Run.bind_eq_ok.mp hstart
          cases hc
          obtain ⟨fills, delay, costs, hreach⟩ := Engine.start_reachable hfirst
          have hrun := Run.foldlM_inv
            (fun c : Campaign F strategy.State => Reachable fills delay costs c.engine.portfolio)
            (fun c d c' hc hstep => hc.trans (Campaign.nextDate_reach hc.matched hstep)) before _ c₁ hreach hbefore
          have hday : Run.Reach apply c₁.engine.portfolio e.portfolio :=
            Engine.steps_reach (e := c₁.engine.bindSession session date) hdone
          exact ⟨fills, delay, costs, hrun.trans hday⟩

/-! ## Main result -/

open Portfolio in
/-- **Positions end once.** In every reachable state a position is open or closed, never both, and it is
    neither only when every leg of it was cancelled. Once it is not open it never is again, and stays closed
    if it was. In a run, a strategy that awaits the closing of a position is resumed at the first timestamp at
    which nothing of it is live or waiting any more and some leg of it filled, and at no other. -/
theorem open_until_closed {fills : FillModel F} {delay : Int} {costs : CostPolicy} {p : Portfolio F}
    (h : Reachable fills delay costs p) :
    (∀ (id : PositionId) (pos : Position), p.positions[id]? = some pos →
      ¬ (pos.isOpen = true ∧ pos.isClosed = true) ∧
      (pos.isOpen = true ∨ pos.isClosed = true ↔ ∃ leg ∈ pos.legs, leg.state ≠ .Cancelled) ∧
      (pos.isOpen = false → ∀ q, Run.Reach apply p q →
        ∃ pos' : Position, q.positions[id]? = some pos' ∧ pos'.isOpen = false ∧ pos'.isClosed = pos.isClosed)) ∧
    ∀ (desk : Desk F) (strategy : Strategy F) (marks : Bool) (e e' : Engine F strategy.State) (t : Timestamp)
      (id : PositionId) (s : strategy.State), Turn desk strategy marks e t →
      e.task = .suspended (Ctx.positionClosed id) s → e.step desk strategy.resume marks t = .ok e' →
      ∃ (e₁ : Engine F strategy.State) (pos : Position), e.settleStep desk marks t = .ok e₁ ∧ Run.Reach apply e.portfolio e₁.portfolio ∧
        e₁.portfolio.positions[id]? = some pos ∧
        (e.resumes < e'.resumes ↔ pos.isOpen = false ∧ ∃ leg ∈ pos.legs, leg.state ≠ .Cancelled) ∧
        (∀ pos₀ : Position, e.portfolio.positions[id]? = some pos₀ → pos₀.isClosed = true → e.resumes < e'.resumes) := by
  refine ⟨fun id pos hpos => ⟨?_, pos.open_or_closed_iff, fun hopen q hq => ?_⟩, ?_⟩
  · rintro ⟨hopen, hclosed⟩
    rw [(Position.isClosed_iff.mp hclosed).1] at hopen
    cases hopen
  · exact not_open_of_reach h.matched hpos hopen hq
  · intro desk strategy marks e e' t id s hturn htask hstep
    obtain ⟨e₁, hsettle, hloop⟩ := Run.bind_eq_ok.mp hstep
    have hreach := Engine.settleStep_reach hsettle
    obtain ⟨htask₁, hresumes⟩ := Engine.settleStep_strategy hsettle
    obtain ⟨pos, hpos, hwoken, _⟩ := Engine.resumeLoop_positionClosed (htask₁.trans htask) hloop
    rw [hresumes] at hwoken
    refine ⟨e₁, pos, hsettle, hreach, hpos, ?_, fun pos₀ hpos₀ hclosed => ?_⟩
    · rw [← hwoken, Position.isClosed_iff]
      exact .rfl
    · -- it was closed already, and no operation changes that
      obtain ⟨fills', delay', costs', hbefore⟩ := hturn.reachable
      obtain ⟨pos', hpos', _, hsame⟩ :=
        not_open_of_reach hbefore.matched hpos₀ (Position.isClosed_iff.mp hclosed).1 hreach
      rw [hpos] at hpos'
      cases hpos'
      exact hwoken.mp (hsame.trans hclosed)

/-! ### An exit by time -/

/-- Sells, has the position closed once it is 09:15, and waits until it is. -/
def sellUntilOpen : Strategy ℚ where
  State := Unit
  start := .order (.sell [0] 1 "short") fun _ =>
    .order (.exitAtOn 0 ⟨20250701⟩ [48, 57, 58, 49, 53]) fun _ => .await (Ctx.positionClosed 0) ()
  resume _ := .finish

/-- Its start, and its state after either print of the session. -/
def exitedRun : Except Error (Engine ℚ Unit × Engine ℚ Unit × Engine ℚ Unit) := do
  let e₀ ← Engine.start quietDesk sellUntilOpen firstDay firstDay.date
  let e₁ ← e₀.step quietDesk sellUntilOpen.resume false 1751341500000000000
  let e₂ ← e₁.step quietDesk sellUntilOpen.resume false 1751341560000000000
  return (e₀, e₁, e₂)

/-- Before the second print the strategy still waits for its position. -/
theorem exitedRun_turn {e₀ e₁ e₂ : Engine ℚ Unit} (h : exitedRun = .ok (e₀, e₁, e₂)) (hsleeps : e₁.resumes = e₀.resumes) :
    Turn quietDesk sellUntilOpen false e₁ 1751341560000000000 ∧ e₁.task = .suspended (Ctx.positionClosed 0) () ∧
      e₁.step quietDesk sellUntilOpen.resume false 1751341560000000000 = .ok e₂ := by
  obtain ⟨_, hstart, h⟩ := Run.bind_eq_ok.mp h
  obtain ⟨_, hfirst, h⟩ := Run.bind_eq_ok.mp h
  obtain ⟨_, hsecond, h⟩ := Run.bind_eq_ok.mp h
  cases h
  refine ⟨?_, ?_, hsecond⟩
  · have hsteps : firstDay.steps = [1751341500000000000] ++ 1751341560000000000 :: [] := rfl
    exact .session hstart hsteps (Run.foldlM_cons_ok.mpr ⟨e₁, hfirst, rfl⟩)
  · have htask : e₀.task = .suspended (Ctx.positionClosed 0) () := by
      obtain ⟨p, _, hstart⟩ := Run.bind_eq_ok.mp hstart
      cases hstart
      rfl
    obtain ⟨m, hsettle, hloop⟩ := Run.bind_eq_ok.mp hfirst
    obtain ⟨hkept, hresumes⟩ := Engine.settleStep_strategy hsettle
    obtain ⟨pos, _, hwoken, hwaits⟩ := Engine.resumeLoop_positionClosed (hkept.trans htask) hloop
    have hopen : pos.isClosed = false := by
      rw [← Bool.not_eq_true, hwoken, hresumes, hsleeps]
      exact Nat.lt_irrefl _
    exact (hwaits hopen).trans (hkept.trans htask)

open Portfolio in
/-- At the second print the position is closed, and the strategy is resumed; it is closed for good. -/
theorem open_until_closed_exited :
    ∃ e₀ e₁ e₂, exitedRun = .ok (e₀, e₁, e₂) ∧ e₁.resumes < e₂.resumes ∧
      (∃ m pos, e₁.settleStep quietDesk false 1751341560000000000 = .ok m ∧ m.portfolio.positions[0]? = some pos ∧
        pos.isOpen = false ∧ ∃ leg ∈ pos.legs, leg.state ≠ .Cancelled) ∧
      ∃ pos : Position, e₂.portfolio.positions[0]? = some pos ∧ pos.isClosed = true ∧
        ∀ q, Run.Reach apply e₂.portfolio q →
          ∃ pos' : Position, q.positions[0]? = some pos' ∧ pos'.isOpen = false ∧ pos'.isClosed = true := by
  obtain ⟨⟨e₀, e₁, e₂⟩, hrun, htest⟩ := Run.exists_of_succeeds
    (fun x => x.2.1.resumes = x.1.resumes ∧ x.2.1.resumes < x.2.2.resumes ∧
      x.2.2.portfolio.positions.map (·.isClosed) = [true]) exitedRun (by decide +kernel)
  obtain ⟨hsleeps, hwoken, hclosed⟩ := of_decide_eq_true htest
  obtain ⟨hturn, htask, hstep⟩ := exitedRun_turn hrun hsleeps
  obtain ⟨fills, delay, costs, hbefore⟩ := hturn.reachable
  have hreach : Reachable fills delay costs e₂.portfolio := hbefore.trans (Engine.step_cases hstep).reach
  obtain ⟨hpositions, hturns⟩ := open_until_closed hreach
  obtain ⟨m, pos, hsettle, _, hpos, hiff, _⟩ := hturns _ _ _ _ _ _ 0 () hturn htask hstep
  refine ⟨e₀, e₁, e₂, hrun, hwoken, ⟨m, pos, hsettle, hpos, hiff.mp hwoken⟩, ?_⟩
  obtain ⟨last, hlast, hover⟩ : ∃ last : Position, e₂.portfolio.positions[0]? = some last ∧ last.isClosed = true := by
    have hfirst := congrArg (·[0]?) hclosed
    rw [List.getElem?_map] at hfirst
    exact Option.map_eq_some_iff.mp hfirst
  refine ⟨last, hlast, hover, fun q hq => ?_⟩
  obtain ⟨hnever, _, hkept⟩ := hpositions 0 last hlast
  have hopen : last.isOpen = false := by
    rw [← Bool.not_eq_true]
    exact fun hopen => hnever ⟨hopen, hover⟩
  obtain ⟨pos', hpos', hopen', hclosed'⟩ := hkept hopen q hq
  exact ⟨pos', hpos', hopen', hclosed'.trans hover⟩

/-! ### A withdrawn order -/

/-- Sells, thinks better of it, and waits until the position is closed. -/
def sellAndWithdraw : Strategy ℚ where
  State := Unit
  start := .order (.sell [0] 1 "short") fun _ => .order (.close 0) fun _ => .await (Ctx.positionClosed 0) ()
  resume _ := .finish

open Portfolio in
/-- An order that is withdrawn before it fills leaves a position that is neither open nor closed, and a
    strategy that waits for it to close waits to the end. -/
theorem withdrawn_position_neither :
    (∃ (p : Portfolio ℚ) (pos : Position), Reachable (crossSpreadFill (F := ℚ)) 1 noCosts p ∧
      p.positions[0]? = some pos ∧ pos.isOpen = false ∧ pos.isClosed = false) ∧
    ∃ e, replaySession quietDesk sellAndWithdraw (flatSession ⟨20250701⟩ [1, 2]) = .ok e ∧
      e.portfolio.positions.length = 1 ∧ e.portfolio.openPositions = 0 ∧ e.portfolio.pending.length = 0 ∧
      e.task.isDone = false := by
  constructor
  · have hrun : [.submitOpen "long" [0] .Buy 2 5, .submitClose 0 6].foldlM apply
        (empty (crossSpreadFill (F := ℚ)) 1 noCosts) = .ok _ := rfl
    exact ⟨_, _, .of_run .init hrun, rfl, rfl, rfl⟩
  · obtain ⟨e, hrun, htest⟩ := Run.exists_of_succeeds
      (fun e => e.portfolio.positions.length == 1 && (e.portfolio.openPositions == 0 &&
        (e.portfolio.pending.length == 0 && !e.task.isDone)))
      (replaySession quietDesk sellAndWithdraw (flatSession ⟨20250701⟩ [1, 2])) (by decide +kernel)
    simp only [Bool.and_eq_true, beq_iff_eq, Bool.not_eq_true'] at htest
    exact ⟨e, hrun, htest⟩

end Volforge
