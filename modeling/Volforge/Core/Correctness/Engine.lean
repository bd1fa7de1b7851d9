import Volforge.Core.Backtest
import Volforge.Core.Correctness.Lifecycle

/-!
# `Core.Correctness.Engine` — what a run does to its portfolio

A step of a run first fills orders against the market of its timestamp; everything after that, the carried
marks, the attached rules and the strategy, happens at the same instant without a market (`Quiet`). The end of
a session is the only place where a leg is settled and an exit is given up.

## Contents
- **Moves.** What a move adds to the queue, to the fills and to the trade log.
- **Fills.** `processPending_fills`: the fills of one pass over the queue, in closed form.
- **Strategy.** Whatever a script does is `Quiet`.
- **Steps.** `step_cases`, the one lemma about a step.
-/

namespace Volforge

variable {F : Type} [Double F]

namespace Portfolio

/-! ## Moves

`Lifecycle` proves its invariants move by move. What follows is read off the same moves: the orders they queue,
the terms they keep, and the trades they book. -/

/-- What a run never changes in its portfolio. -/
structure SameTerms (p p' : Portfolio F) : Prop where
  fills : p'.fills = p.fills
  delay : p'.delay = p.delay

omit [Double F] in
theorem SameTerms.refl (p : Portfolio F) : SameTerms p p := ⟨rfl, rfl⟩

omit [Double F] in
theorem SameTerms.trans {p q r : Portfolio F} (h : SameTerms p q) (h' : SameTerms q r) : SameTerms p r :=
  ⟨h'.fills.trans h.fills, h'.delay.trans h.delay⟩

/-- No move changes the fill model or the delay. -/
theorem Move.sameTerms {c : Scope} {p p' : Portfolio F} (hm : Move c p p') : SameTerms p p' := by
  cases hm with
  | fills => exact ⟨fillOrder_fills _ _ _ _ _ _, fillOrder_delay _ _ _ _ _ _⟩
  | position => exact ⟨rfl, rfl⟩
  | opens => exact ⟨rfl, rfl⟩
  | exits => exact ⟨rfl, rfl⟩
  | withdraws => exact ⟨rfl, rfl⟩
  | abandons => exact ⟨rfl, rfl⟩
  | settles => exact ⟨rfl, rfl⟩
  | drops => exact ⟨rfl, rfl⟩
  | marks => exact ⟨rfl, rfl⟩
  | rules => exact ⟨rfl, rfl⟩

theorem Moves.sameTerms {c : Scope} {p p' : Portfolio F} (hm : Moves c p p') : SameTerms p p' :=
  hm.inv (SameTerms p) (fun _ _ h hmove => h.trans hmove.sameTerms) (.refl p)

/-- An order of the queue was there before the move, or is submitted by it. -/
theorem Move.pending_cases {c : Scope} {p p' : Portfolio F} (hm : Move c p p') {o : PendingOrder}
    (ho : o ∈ p'.pending) :
    o ∈ p.pending ∨ (o.submittedAt = c.now ∧ o.eligibleAt = c.now + p.delay) := by
  cases hm with
  | position => exact .inl ho
  | @opens id side qty inst _ hid _ =>
      have hpos : p.positions[id]? = some p.positions[id] := List.getElem?_eq_getElem hid
      rw [openLeg_pending side qty c.now inst hpos, List.mem_append, List.mem_singleton] at ho
      obtain ho | rfl := ho
      · exact .inl ho
      · exact .inr ⟨rfl, rfl⟩
  | exits =>
      simp only [Portfolio.submit, List.mem_append, List.mem_singleton] at ho
      obtain ho | rfl := ho
      · exact .inl ho
      · exact .inr ⟨rfl, rfl⟩
  | @fills before after x q price spec _ hpend _ _ _ =>
      rw [fillOrder_pending] at ho
      exact .inl (mem_of_taken hpend ho)
  | withdraws hpend _ => exact .inl (mem_of_taken hpend ho)
  | abandons _ _ hpend _ => exact .inl (mem_of_taken hpend ho)
  | settles => exact .inl ho
  | drops hpend _ _ _ => exact .inl (mem_of_taken hpend ho)
  | marks => exact .inl ho
  | rules => exact .inl ho

/-- Orders become eligible the execution delay after they were submitted. -/
def Delayed (p : Portfolio F) : Prop := ∀ o ∈ p.pending, o.eligibleAt = o.submittedAt + p.delay

/-- Every order is queued with the delay of its portfolio. -/
theorem Moves.delayed {c : Scope} {p p' : Portfolio F} (hm : Moves c p p') (h : Delayed p) : Delayed p' := by
  refine hm.inv Delayed ?_ h
  intro q q' hq hmove o ho
  rw [hmove.sameTerms.delay]
  obtain ho | ⟨hs, he⟩ := hmove.pending_cases ho
  · exact hq o ho
  · rw [hs, he]

/-- Every queued order was submitted between `lo` and `hi`. -/
def SubmittedIn (lo hi : Timestamp) (p : Portfolio F) : Prop :=
  ∀ o ∈ p.pending, lo ≤ o.submittedAt ∧ o.submittedAt ≤ hi

theorem Moves.submittedIn {c : Scope} {lo hi : Timestamp} {p p' : Portfolio F} (hm : Moves c p p')
    (hlo : lo ≤ c.now) (hhi : c.now ≤ hi) (h : SubmittedIn lo hi p) : SubmittedIn lo hi p' := by
  refine hm.inv (SubmittedIn lo hi) ?_ h
  intro q q' hq hmove o ho
  obtain ho | ⟨hs, _⟩ := hmove.pending_cases ho
  · exact hq o ho
  · rw [hs]
    exact ⟨hlo, hhi⟩

/-- Without a market the only trades are settlements, booked now. -/
theorem Moves.settlements {c : Scope} {p p' : Portfolio F} (hm : Moves c p p')
    (hquiet : ∀ id, c.quote id = none) :
    ∃ new, p'.trades = p.trades ++ new ∧ ∀ t ∈ new, t.settled = true ∧ t.fillTs = c.now := by
  refine hm.inv (fun q => ∃ new, q.trades = p.trades ++ new ∧
    ∀ t ∈ new, t.settled = true ∧ t.fillTs = c.now) ?_ ⟨[], by simp⟩
  rintro q q' ⟨new, hnew, hall⟩ hmove
  have hsame : q'.trades = q.trades →
      ∃ new, q'.trades = p.trades ++ new ∧ ∀ t ∈ new, t.settled = true ∧ t.fillTs = c.now :=
    fun h => ⟨new, h.trans hnew, hall⟩
  cases hmove with
  | fills _ _ _ hquote _ => simp [hquiet] at hquote
  | @settles id i leg spec level _ _ _ =>
      refine ⟨new ++ [_], (congrArg (· ++ [_]) hnew).trans (List.append_assoc _ _ _), ?_⟩
      intro t ht
      obtain ht | ht := List.mem_append.mp ht
      · exact hall t ht
      · rw [List.mem_singleton] at ht
        subst ht
        exact ⟨rfl, rfl⟩
  | position => exact hsame rfl
  | opens => exact hsame rfl
  | exits => exact hsame rfl
  | withdraws => exact hsame rfl
  | abandons => exact hsame rfl
  | drops => exact hsame rfl
  | marks => exact hsame rfl
  | rules => exact hsame rfl

/-! ## Fills

The pass over the queue treats each order by itself, so its fills are a filter of the queue; the market is
read once, at the timestamp of the pass. -/

/-- The execution of an order that is due, if its instrument has a market. -/
def fillOf (fills : FillModel F) (market : MarketView) (o : PendingOrder) : Option Fill :=
  (executable fills market o).map
    (fun x => { order := o, quote := x.1, price := x.2, time := market.now })

/-- What the pass over the queue does with one order. -/
theorem processOrder_fills {market : MarketView} {p p' : Portfolio F} {o : PendingOrder}
    (h : processOrder market p o = .ok p') :
    p'.fills = p.fills ∧
      p'.journal.fills = p.journal.fills ++ (fillOf p.fills market o).toList := by
  unfold processOrder at h
  unfold fillOf
  split at h
  · next heq =>
      cases h
      simp [heq, keep]
  · next q price heq =>
      obtain ⟨spec, _, h⟩ := Run.bind_eq_ok.mp h
      cases h
      exact ⟨fillOrder_fills _ _ _ _ _ _, by simp [heq, fillOrder_journal]⟩

/-- **One pass over the queue** fills the orders that are due and have a market, in the queue's order. -/
theorem processPending_fills {market : MarketView} {p p' : Portfolio F}
    (h : p.processPending market = .ok p') :
    p'.journal.fills = p.journal.fills ++ p.pending.filterMap (fillOf p.fills market) := by
  have hloop := Run.foldlM_inv_rest
    (I := fun rest q => q.fills = p.fills ∧
      q.journal.fills ++ rest.filterMap (fillOf p.fills market) =
        p.journal.fills ++ p.pending.filterMap (fillOf p.fills market)) ?_ ⟨rfl, rfl⟩ h
  · simpa using hloop.2
  · rintro q o rest q' ⟨hmodel, hfills⟩ hstep
    obtain ⟨hmodel', hfills'⟩ := processOrder_fills hstep
    refine ⟨hmodel'.trans hmodel, ?_⟩
    rw [hfills', ← hfills, List.append_assoc, hmodel, List.filterMap_cons]
    cases fillOf p.fills market o <;> rfl

/-- The trades of one pass over the queue come from orders that were waiting and due. -/
theorem processPending_trades {market : MarketView} {p p' : Portfolio F}
    (h : p.processPending market = .ok p') :
    ∃ new, p'.trades = p.trades ++ new ∧ ∀ t ∈ new, t.settled = false ∧ t.fillTs = market.now ∧
      ∃ o ∈ p.pending, t.signalTs = o.submittedAt ∧ o.eligibleAt ≤ market.now := by
  refine Run.foldlM_inv_mem (fun q => ∃ new, q.trades = p.trades ++ new ∧ ∀ t ∈ new, t.settled = false ∧
    t.fillTs = market.now ∧ ∃ o ∈ p.pending, t.signalTs = o.submittedAt ∧ o.eligibleAt ≤ market.now)
    p.pending ?_ ⟨[], by simp⟩ h
  rintro q o ho q' ⟨new, hnew, hall⟩ hstep
  obtain rfl | ⟨quote, price, spec, hdue, _, _, _, rfl⟩ := processOrder_cases hstep
  · exact ⟨new, hnew, hall⟩
  · refine ⟨new ++ [_], (congrArg (· ++ [_]) hnew).trans (List.append_assoc _ _ _), ?_⟩
    intro t ht
    obtain ht | ht := List.mem_append.mp ht
    · exact hall t ht
    · rw [List.mem_singleton] at ht
      subst ht
      exact ⟨rfl, rfl, o, ho, rfl, hdue⟩

/-! ## At one instant, without a market

What `Quiet` relates differs by moves in a scope that has no quotes and lets nothing expire, and is reached by
operations of the portfolio, so both kinds of invariant pass through it. -/

/-- The scope of what the rules and the strategy do at one instant. -/
def stillScope (now : Timestamp) : Scope where
  known := 0
  now := now
  quote := fun _ => none
  expired := noneExpired
  bell := False
  standing := False

/-- Operations at one instant that fill nothing. -/
structure Quiet (now : Timestamp) (p p' : Portfolio F) : Prop where
  moves : Moves (stillScope now) p p'
  reach : Run.Reach apply p p'

theorem Quiet.refl (now : Timestamp) (p : Portfolio F) : Quiet now p p := ⟨.refl, .init⟩

theorem Quiet.trans {now : Timestamp} {p q r : Portfolio F} (h : Quiet now p q) (h' : Quiet now q r) :
    Quiet now p r :=
  ⟨h.moves.trans h'.moves, h.reach.trans h'.reach⟩

/-- An operation of the portfolio whose moves need no market is quiet. -/
theorem Quiet.of_op {now : Timestamp} {p p' : Portfolio F} (op : Op F) (h : p.apply op = .ok p')
    (hm : Moves (stillScope now) p p') : Quiet now p p' :=
  ⟨hm, .step .init h⟩

/-- What is quiet fills nothing. -/
theorem Quiet.fills_eq {now : Timestamp} {p p' : Portfolio F} (h : Quiet now p p') :
    p'.journal.fills = p.journal.fills :=
  h.moves.fills_eq (fun _ => rfl)

/-- What is quiet books nothing. -/
theorem Quiet.trades_eq {now : Timestamp} {p p' : Portfolio F} (h : Quiet now p p') :
    p'.trades = p.trades := by
  refine h.moves.inv (fun q => q.trades = p.trades) ?_ rfl
  rintro q q' hq hmove
  cases hmove with
  | fills _ _ _ hquote _ => cases hquote
  | settles _ _ hexp => exact hexp.elim
  | position => exact hq
  | opens => exact hq
  | exits => exact hq
  | withdraws => exact hq
  | abandons => exact hq
  | drops => exact hq
  | marks => exact hq
  | rules => exact hq

/-- Attaching a timed exit is quiet. -/
theorem attachExitAt_quiet (now : Timestamp) {p p' : Portfolio F} {id : PositionId} {leg : Option Nat}
    {when_ : Timestamp} (h : p.attachExitAt id leg when_ = .ok p') : Quiet now p p' := by
  refine .of_op (.attachExitAt id leg when_) h ?_
  obtain ⟨_, rule, _, _, _, rfl⟩ := attachExitAt_cases h
  exact rules_moves (fun hno => hno) p _

/-- Opening a position is quiet: its orders wait for the next step. -/
theorem submitOpen_quiet {now : Timestamp} {p p' : Portfolio F} {label : String}
    {instruments : List InstrumentId} {side : Side} {qty : Qty} {id : PositionId}
    (h : p.submitOpen label instruments side qty now = .ok (p', id)) : Quiet now p p' :=
  .of_op (.submitOpen label instruments side qty now) (by simp [apply, h])
    (submitOpen_moves (c := stillScope now) (Nat.zero_le _) h).1

theorem refreshMarks_quiet (now : Timestamp) (p : Portfolio F) (market : MarketView) :
    Quiet now p (p.refreshMarks market) :=
  .of_op (.refreshMarks market) rfl (refreshMarks_moves p market)

/-- The attached rules submit and fill nothing. -/
theorem processRiskRules_quiet {market : MarketView} {p p' : Portfolio F}
    (h : p.processRiskRules market = .ok p') : Quiet market.now p p' :=
  .of_op (.processRiskRules market) h (processRiskRules_moves (fun hno => hno) rfl h)

end Portfolio

open Portfolio

/-! ## Strategy

A script is arbitrary, but it reaches its portfolio through commands alone. So a relation that every command
keeps is kept by every script, and by the loop that resumes it (`Stable`). -/

/-- `sell` and `buy` open a position, or do nothing if there is nothing to open. -/
theorem Ctx.openPosition_quiet {c : Ctx F} {side : Side} {legs : List InstrumentId} {lots : Int}
    {label : String} {p : Portfolio F} {r : Option PositionId}
    (h : c.openPosition side legs lots label = .ok (p, r)) : Quiet c.now c.portfolio p := by
  unfold Ctx.openPosition at h
  split at h
  · cases h
    exact .refl _ _
  · obtain ⟨qty, _, h⟩ := Run.bind_eq_ok.mp h
    obtain ⟨⟨q, id⟩, hopen, h⟩ := Run.bind_eq_ok.mp h
    cases h
    exact submitOpen_quiet hopen

/-- A command changes the portfolio by one operation at the current instant. -/
theorem Command.submit_quiet {c : Ctx F} {cmd : Command F} {p : Portfolio F} {r : Option Nat}
    (h : cmd.submit c = .ok (p, r)) : Quiet c.now c.portfolio p := by
  cases cmd with
  | sell legs lots label => exact Ctx.openPosition_quiet h
  | buy legs lots label => exact Ctx.openPosition_quiet h
  | close id =>
      obtain ⟨q, hq, h⟩ := Run.bind_eq_ok.mp h
      cases h
      exact .of_op (.submitClose id c.now) hq (submitClose_moves (c := stillScope c.now) hq)
  | closeLeg id i =>
      obtain ⟨q, hq, h⟩ := Run.bind_eq_ok.mp h
      cases h
      exact .of_op (.submitCloseLeg id i c.now) hq (submitCloseLeg_moves (c := stillScope c.now) hq)
  | stopLoss id leg pct =>
      obtain ⟨q, hq, h⟩ := Run.bind_eq_ok.mp h
      cases h
      refine .of_op (.attachStopLoss id leg pct) hq ?_
      obtain ⟨_, rule, _, _, _, rfl⟩ := attachStopLoss_cases hq
      exact rules_moves (fun hno => hno) _ _
  | takeProfit id leg pct =>
      obtain ⟨q, hq, h⟩ := Run.bind_eq_ok.mp h
      cases h
      refine .of_op (.attachTakeProfit id leg pct) hq ?_
      obtain ⟨_, rule, _, _, _, rfl⟩ := attachTakeProfit_cases hq
      exact rules_moves (fun hno => hno) _ _
  | exitAtOn id date hhmm =>
      obtain ⟨_, _, h⟩ := Run.bind_eq_ok.mp h
      obtain ⟨q, hq, h⟩ := Run.bind_eq_ok.mp h
      cases h
      exact attachExitAt_quiet c.now hq
  | bars id intervalSeconds source =>
      cases h
      exact .refl _ _

namespace Engine

variable {σ : Type}

/-- What entering the strategy changes: its own state, its series, and the portfolio by quiet operations. -/
structure Entered (e e' : Engine F σ) : Prop where
  session : e'.session = e.session
  date : e'.date = e.date
  clock : e'.clock = e.clock
  quiet : Quiet e.clock e.portfolio e'.portfolio

theorem Entered.refl (e : Engine F σ) : Entered e e := ⟨rfl, rfl, rfl, .refl _ _⟩

theorem Entered.trans {e e' e'' : Engine F σ} (h : Entered e e') (h' : Entered e' e'') : Entered e e'' where
  session := h'.session.trans h.session
  date := h'.date.trans h.date
  clock := h'.clock.trans h.clock
  quiet := h.quiet.trans (by
    rw [← h.clock]
    exact h'.quiet)

/-- The engine after a command of the portfolio. -/
def answer (e : Engine F σ) : Except Error (Portfolio F × Option Nat) → Engine F σ × Reply
  | .error err => (e, .error err)
  | .ok (p, r) => ({ e with portfolio := p }, .ok r)

/-- The engine after `bars`. -/
def hold (e : Engine F σ) : Except Error BarSeries → Engine F σ × Reply
  | .error err => (e, .error err)
  | .ok s => ({ e with series := e.series ++ [s] }, .ok (some e.series.length))

/-- A command asks for bars, or goes to the portfolio. -/
theorem perform_cases (cmd : Command F) :
    (∃ id intervalSeconds source, ∀ (desk : Desk F) (e : Engine F σ),
      e.perform desk cmd = e.hold (e.buildBars desk id intervalSeconds source)) ∨
    ∀ (desk : Desk F) (e : Engine F σ), e.perform desk cmd = e.answer (cmd.submit (e.ctx desk)) := by
  cases cmd with
  | bars id intervalSeconds source => exact .inl ⟨id, intervalSeconds, source, fun _ _ => rfl⟩
  | sell | buy | close | closeLeg | stopLoss | takeProfit | exitAtOn => exact .inr (fun _ _ => rfl)

/-- A command changes no more than entering the strategy may. -/
theorem perform_entered (desk : Desk F) (e : Engine F σ) (cmd : Command F) :
    Entered e (e.perform desk cmd).1 := by
  obtain ⟨id, intervalSeconds, source, hcmd⟩ | hcmd := @perform_cases F _ σ cmd
  · rw [hcmd]
    cases e.buildBars desk id intervalSeconds source with
    | error err => exact .refl e
    | ok s => exact ⟨rfl, rfl, rfl, .refl _ _⟩
  · rw [hcmd]
    cases hsubmit : cmd.submit (e.ctx desk) with
    | error err => exact .refl e
    | ok x => exact ⟨rfl, rfl, rfl, Command.submit_quiet hsubmit⟩

/-- One turn of the loop that enters the strategy, when it waits for `cond`. -/
theorem resumeLoop_suspended (desk : Desk F) (resume : σ → Script F σ) (left : Nat) {e : Engine F σ}
    {cond : Cond F} {s : σ} (ht : e.task = .suspended cond s) :
    e.resumeLoop desk resume left = if !cond.valid then .ok e else (do
      let holds ← cond.eval (e.ctx desk)
      let e := { e with conditionEvals := e.conditionEvals + 1 }
      if !holds then return e
      let e ← (resume s).exec desk e
      let e := { e with resumes := e.resumes + 1 }
      match left with
      | 0 => throw spinning
      | left + 1 => Engine.resumeLoop desk resume left e) := by
  conv_lhs => unfold Engine.resumeLoop
  rewrite [ht]
  rfl

/-- A relation between engines that everything the strategy does keeps. -/
structure Stable (desk : Desk F) (P : Engine F σ → Engine F σ → Prop) : Prop where
  refl : ∀ e, P e e
  trans : ∀ e₁ e₂ e₃, P e₁ e₂ → P e₂ e₃ → P e₁ e₃
  perform : ∀ e cmd, P e (e.perform desk cmd).1
  task : ∀ e t, P e { e with task := t }
  evals : ∀ e n, P e { e with conditionEvals := n }
  resumes : ∀ e n, P e { e with resumes := n }

theorem Stable.exec {desk : Desk F} {P : Engine F σ → Engine F σ → Prop} (h : Stable desk P)
    {s : Script F σ} {e e' : Engine F σ} (hexec : s.exec desk e = .ok e') : P e e' := by
  induction s generalizing e with
  | look k ih => exact ih (e.ctx desk) hexec
  | order cmd k ih => exact h.trans _ _ _ (h.perform e cmd) (ih _ hexec)
  | await cond s =>
      cases hexec
      exact h.task _ _
  | finish =>
      cases hexec
      exact h.task _ _
  | throw_ err => cases hexec

/-- **Entering the strategy** keeps a stable relation. -/
theorem Stable.resumeLoop {desk : Desk F} {P : Engine F σ → Engine F σ → Prop} (h : Stable desk P)
    {resume : σ → Script F σ} {left : Nat} {e e' : Engine F σ}
    (hloop : e.resumeLoop desk resume left = .ok e') : P e e' := by
  induction left using Nat.strong_induction_on generalizing e with
  | _ left ih =>
      rcases ht : e.task with ⟨cond, s⟩ | _
      · rw [resumeLoop_suspended desk resume left ht] at hloop
        by_cases hvalid : (!cond.valid) = true
        · rw [if_pos hvalid] at hloop
          cases hloop
          exact h.refl _
        rw [if_neg hvalid] at hloop
        obtain ⟨holds, _, hloop⟩ := Run.bind_eq_ok.mp hloop
        have hcounted := h.evals e (e.conditionEvals + 1)
        cases holds with
        | false =>
            cases hloop
            exact hcounted
        | true =>
            obtain ⟨e₁, hexec, hloop⟩ := Run.bind_eq_ok.mp hloop
            have hentered := h.trans _ _ _ (h.trans _ _ _ hcounted (h.exec hexec))
              (h.resumes e₁ (e₁.resumes + 1))
            cases left with
            | zero => cases hloop
            | succ left => exact h.trans _ _ _ hentered (ih left (Nat.lt_succ_self left) hloop)
      · unfold Engine.resumeLoop at hloop
        rw [ht] at hloop
        cases hloop
        exact h.refl _

theorem entered_stable (desk : Desk F) : Stable desk (@Entered F _ σ) where
  refl := .refl
  trans _ _ _ := .trans
  perform := perform_entered desk
  task _ _ := ⟨rfl, rfl, rfl, .refl _ _⟩
  evals _ _ := ⟨rfl, rfl, rfl, .refl _ _⟩
  resumes _ _ := ⟨rfl, rfl, rfl, .refl _ _⟩

theorem exec_entered {desk : Desk F} {s : Script F σ} {e e' : Engine F σ} (h : s.exec desk e = .ok e') :
    Entered e e' :=
  (entered_stable desk).exec h

/-- All the resumptions of one instant. -/
theorem resumeLoop_entered {desk : Desk F} {resume : σ → Script F σ} {left : Nat} {e e' : Engine F σ}
    (h : e.resumeLoop desk resume left = .ok e') : Entered e e' :=
  (entered_stable desk).resumeLoop h

/-! ## Steps

The two loops of the source differ in whether a step refreshes marks; everything here holds for both. -/

omit [Double F] in
/-- An operation of the portfolio leaves the rest of the engine. -/
theorem operate_cases {e e' : Engine F σ} {op : Portfolio F → Except Error (Portfolio F)}
    (h : e.operate op = .ok e') :
    op e.portfolio = .ok e'.portfolio ∧ e'.session = e.session ∧ e'.date = e.date ∧ e'.clock = e.clock := by
  obtain ⟨p, hp, h⟩ := Run.bind_eq_ok.mp h
  cases h
  exact ⟨hp, rfl, rfl, rfl⟩

/-- A quiet operation of the portfolio is no more than what the strategy may do. -/
theorem operate_entered {e e' : Engine F σ} {op : Portfolio F → Except Error (Portfolio F)}
    (h : e.operate op = .ok e') (hop : ∀ p, op e.portfolio = .ok p → Quiet e.clock e.portfolio p) :
    Entered e e' := by
  obtain ⟨hp, hs, hd, hc⟩ := operate_cases h
  exact ⟨hs, hd, hc, hop _ hp⟩

omit [Double F] in
/-- The clock is set forward, and only forward. -/
theorem advanceTo_eq_ok {e e' : Engine F σ} {t : Timestamp} :
    e.advanceTo t = .ok e' ↔ e.clock ≤ t ∧ e' = { e with clock := t } := by
  unfold advanceTo
  rw [Run.guard_eq_ok]
  simp only [not_lt, Except.ok.injEq, eq_comm]

theorem sampleMargin_entered {desk : Desk F} {e e' : Engine F σ} (h : e.sampleMargin desk = .ok e') :
    Entered e e' := by
  unfold sampleMargin at h
  split at h
  · cases h
    exact .refl e
  · obtain ⟨m, _, h⟩ := Run.bind_eq_ok.mp h
    cases h
    exact ⟨rfl, rfl, rfl, .refl _ _⟩

/-- **One step.** The queue is processed in the market of the step's timestamp; what follows is quiet. -/
structure Stepped (e : Engine F σ) (t : Timestamp) (e' : Engine F σ) : Prop where
  session : e'.session = e.session
  date : e'.date = e.date
  clock : e'.clock = t
  forward : e.clock ≤ t
  portfolio : ∃ p, e.portfolio.processPending (e.session.view t) = .ok p ∧ Quiet t p e'.portfolio

/-- **A step, once and for all.** Every invariant of a run is derived from this. -/
theorem step_cases {desk : Desk F} {resume : σ → Script F σ} {marks : Bool} {e e' : Engine F σ}
    {t : Timestamp} (h : e.step desk resume marks t = .ok e') : Stepped e t e' := by
  obtain ⟨e₄, h, hloop⟩ := Run.bind_eq_ok.mp h
  obtain ⟨e₀, hclock, h⟩ := Run.bind_eq_ok.mp h
  obtain ⟨hforward, rfl⟩ := advanceTo_eq_ok.mp hclock
  obtain ⟨e₁, hpending, h⟩ := Run.bind_eq_ok.mp h
  obtain ⟨e₂, hmarks, h⟩ := Run.bind_eq_ok.mp h
  obtain ⟨e₃, hrules, hmargin⟩ := Run.bind_eq_ok.mp h
  obtain ⟨hp₁, hs₁, hd₁, hc₁⟩ := operate_cases hpending
  have h₂ : Entered e₁ e₂ := by
    refine operate_entered hmarks (fun p hp => ?_)
    cases hp
    cases marks with
    | true => exact refreshMarks_quiet _ _ _
    | false => exact .refl _ _
  have h₃ : Entered e₂ e₃ := operate_entered hrules (fun p hp => processRiskRules_quiet hp)
  have h₄ := (h₂.trans h₃).trans ((sampleMargin_entered hmargin).trans (resumeLoop_entered hloop))
  exact {
    session := h₄.session.trans hs₁
    date := h₄.date.trans hd₁
    clock := h₄.clock.trans hc₁
    forward := hforward
    portfolio := ⟨e₁.portfolio, hp₁, by
      have hc₁ : e₁.clock = t := hc₁
      rw [← hc₁]
      exact h₄.quiet⟩ }

/-- The fills of a step are those of its pass over the queue. -/
theorem Stepped.fills {e e' : Engine F σ} {t : Timestamp} (h : Stepped e t e') :
    e'.portfolio.journal.fills = e.portfolio.journal.fills ++
      e.portfolio.pending.filterMap (fillOf e.portfolio.fills (e.session.view t)) := by
  obtain ⟨p, hp, hquiet⟩ := h.portfolio
  rw [hquiet.fills_eq, processPending_fills hp]

/-- The trades of a step are made at its timestamp. -/
theorem Stepped.trades {e e' : Engine F σ} {t : Timestamp} (h : Stepped e t e') :
    ∃ new, e'.portfolio.trades = e.portfolio.trades ++ new ∧ ∀ x ∈ new, x.fillTs = t := by
  obtain ⟨p, hp, hquiet⟩ := h.portfolio
  obtain ⟨new, hnew, hall⟩ := processPending_trades hp
  exact ⟨new, hquiet.trades_eq.trans hnew, fun x hx => (hall x hx).2.1⟩

/-- The scope of a whole step. -/
def stepScope (e : Engine F σ) (t : Timestamp) : Scope :=
  { stillScope t with quote := (e.session.view t).current }

/-- A step as moves: those of the fills, then quiet ones. -/
theorem Stepped.filled {e e' : Engine F σ} {t : Timestamp} (h : Stepped e t e') :
    ∃ p, Moves (e.stepScope t) e.portfolio p ∧ Quiet t p e'.portfolio := by
  obtain ⟨p, hp, hquiet⟩ := h.portfolio
  exact ⟨p, processPending_moves rfl (fun _ _ _ => rfl) (fun _ hno => hno) hp, hquiet⟩

theorem Stepped.reach {e e' : Engine F σ} {t : Timestamp} (h : Stepped e t e') :
    Run.Reach apply e.portfolio e'.portfolio := by
  obtain ⟨p, hp, hquiet⟩ := h.portfolio
  exact (Run.Reach.step (e := .processPending (e.session.view t)) .init hp).trans hquiet.reach

theorem Stepped.sameTerms {e e' : Engine F σ} {t : Timestamp} (h : Stepped e t e') :
    SameTerms e.portfolio e'.portfolio := by
  obtain ⟨p, hp, hquiet⟩ := h.filled
  exact hp.sameTerms.trans hquiet.moves.sameTerms

/-! ## End of a session

Settlements come first, each at its level, then the bell. `Closing` is what all of it has in common. -/

end Engine

/-- What the end of a session does to a portfolio: legs are settled now, and nothing fills. -/
structure Portfolio.Closing (now : Timestamp) (p p' : Portfolio F) : Prop where
  reach : Run.Reach apply p p'
  terms : SameTerms p p'
  fills : p'.journal.fills = p.journal.fills
  trades : ∃ new, p'.trades = p.trades ++ new ∧ ∀ t ∈ new, t.settled = true ∧ t.fillTs = now

namespace Portfolio

theorem Closing.refl (now : Timestamp) (p : Portfolio F) : Closing now p p :=
  ⟨.init, .refl p, rfl, [], by simp⟩

theorem Closing.trans {now : Timestamp} {p q r : Portfolio F} (h : Closing now p q)
    (h' : Closing now q r) : Closing now p r := by
  obtain ⟨xs, hxs, hall⟩ := h.trades
  obtain ⟨ys, hys, hall'⟩ := h'.trades
  refine ⟨h.reach.trans h'.reach, h.terms.trans h'.terms, h'.fills.trans h.fills, xs ++ ys, ?_, ?_⟩
  · rw [hys, hxs, List.append_assoc]
  · intro t ht
    obtain ht | ht := List.mem_append.mp ht
    · exact hall t ht
    · exact hall' t ht

theorem Closing.of_moves {c : Scope} {p p' : Portfolio F} (hreach : Run.Reach apply p p')
    (hm : Moves c p p') (hquiet : ∀ id, c.quote id = none) : Closing c.now p p' :=
  ⟨hreach, hm.sameTerms, hm.fills_eq hquiet, hm.settlements hquiet⟩

/-- The scope of a settlement. -/
def settleScope (market : MarketView) (expiry : Date) (now : Timestamp) : Scope :=
  { stillScope now with expired := settling market expiry }

/-- The scope of the cancellation at the bell. -/
def bellOf (now : Timestamp) : Scope := { stillScope now with bell := True }

/-- A settlement leaves no live leg that it was to settle. -/
theorem settleExpiry_closing {market : MarketView} {expiry : Date} {level : F} {now : Timestamp}
    {p p' : Portfolio F} {n : Nat} (hmat : Matched noneExpired p)
    (h : p.settleExpiry market expiry level now = .ok (p', n)) :
    Closing now p p' ∧ Matched noneExpired p' ∧ Moves (settleScope market expiry now) p p' ∧
      ∀ id i leg, p'.leg? id i = some leg → leg.live = true → ¬ settling market expiry leg.instrument := by
  obtain ⟨hm, hmat', hnone⟩ := settleExpiry_moves (c := settleScope market expiry now) rfl hmat h
  have hop : p.apply (.settleExpiry market expiry level now) = .ok p' := by simp [apply, h]
  exact ⟨.of_moves (.step .init hop) hm (fun _ => rfl), hmat', hm, hnone⟩

/-- The cancellation at the bell leaves no order. -/
theorem cancelWorkingOrders_closing (now : Timestamp) {p p' : Portfolio F} {n : Nat}
    (hmat : Matched noneExpired p) (h : p.cancelWorkingOrders = .ok (p', n)) :
    Closing now p p' ∧ Moves (bellOf now) p p' ∧ p'.pending = [] := by
  obtain ⟨hm, hempty⟩ := cancelWorkingOrders_moves (c := bellOf now) (fun _ hno => hno) trivial
    (fun hno => hno) hmat h
  have hop : p.apply .cancelWorkingOrders = .ok p' := by simp [apply, h]
  exact ⟨.of_moves (.step .init hop) hm (fun _ => rfl), hm, hempty⟩

end Portfolio

namespace Engine

/-- A run starts with an empty portfolio, and then quietly. -/
theorem start_cases {desk : Desk F} {strategy : Strategy F} {session : SessionData} {date : Date}
    {e : Engine F strategy.State} (h : Engine.start desk strategy session date = .ok e) :
    ∃ p₀, desk.config.portfolio = .ok p₀ ∧ e.session = session ∧ e.date = date ∧ e.clock = 0 ∧
      Quiet 0 p₀ e.portfolio := by
  obtain ⟨p₀, hp₀, h⟩ := Run.bind_eq_ok.mp h
  have he := exec_entered h
  exact ⟨p₀, hp₀, he.session, he.date, he.clock, he.quiet⟩

end Engine

omit [Double F] in
theorem Portfolio.new_eq_ok {fills : FillModel F} {delay : Int} {costs : CostPolicy} {p : Portfolio F} :
    Portfolio.new fills delay costs = .ok p ↔ 0 ≤ delay ∧ p = Portfolio.empty fills delay costs := by
  unfold Portfolio.new
  rw [Run.guard_eq_ok]
  simp only [not_lt, Except.ok.injEq, eq_comm]

end Volforge
