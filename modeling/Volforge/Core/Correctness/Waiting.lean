import Volforge.Core.Correctness.Positions

/-!
# `Core.Correctness.Waiting` — when a strategy is entered

A strategy suspends on a condition. At every timestamp, once its orders and rules are done with, the engine asks the
condition, and enters the strategy as long as what it awaits holds. So it sleeps exactly through the timestamps at
which the condition does not hold, and is never left waiting for one that does.

## Contents
- **Wake-ups.** `Wakes`, and the loop in its terms: `resumeLoop_eq_ok`, `resumeLoop_spins`.
- **One step.** `step_wakes`: what one timestamp does to the strategy and to the counters.
- **Sleeping.** `steps_asleep_iff`, `dates_asleep_iff`.
- **Main result.** `woken_when_due`.
-/

namespace Volforge

variable {F : Type} [Double F] {σ : Type}

namespace Engine

/-! ## Wake-ups -/

omit [Double F] in
/-- The strategy waits for a condition that has a function. -/
def waiting (e : Engine F σ) : Bool :=
  match e.task with
  | .suspended cond _ => cond.valid
  | .done => false

/-- What the strategy waits for does not hold. -/
def Idle (desk : Desk F) (e : Engine F σ) : Prop :=
  ∀ cond s, e.task = .suspended cond s → cond.valid = true → cond.eval (e.ctx desk) = .ok false

/-- `n` times in a row what the strategy waits for holds, and it goes on to its next suspension. -/
inductive Wakes (desk : Desk F) (resume : σ → Script F σ) : Nat → Engine F σ → Engine F σ → Prop where
  | stay (e : Engine F σ) : Wakes desk resume 0 e e
  | wake {n : Nat} {e e₁ e' : Engine F σ} {cond : Cond F} {s : σ} (htask : e.task = .suspended cond s)
      (hvalid : cond.valid = true) (hholds : cond.eval (e.ctx desk) = .ok true)
      (hexec : (resume s).exec desk { e with conditionEvals := e.conditionEvals + 1 } = .ok e₁)
      (hrest : Wakes desk resume n { e₁ with resumes := e₁.resumes + 1 } e') : Wakes desk resume (n + 1) e e'

/-- The last condition, if there is one, is asked in vain. -/
def asked (e : Engine F σ) : Engine F σ :=
  if e.waiting then { e with conditionEvals := e.conditionEvals + 1 } else e

/-- Being asked changes a counter only. -/
theorem asked_same (e : Engine F σ) : e.asked.task = e.task ∧ e.asked.resumes = e.resumes ∧ e.asked.steps = e.steps ∧
    (∀ desk, e.asked.ctx desk = e.ctx desk) := by
  unfold asked
  split_ifs
  · exact ⟨rfl, rfl, rfl, fun _ => rfl⟩
  · exact ⟨rfl, rfl, rfl, fun _ => rfl⟩

theorem Idle.asked {desk : Desk F} {e : Engine F σ} (h : e.Idle desk) : e.asked.Idle desk := by
  obtain ⟨htask, _, _, hctx⟩ := e.asked_same
  intro cond s ht hvalid
  rw [hctx]
  exact h cond s (htask ▸ ht) hvalid

/-- An idle strategy is asked in vain. -/
theorem resumeLoop_of_idle {desk : Desk F} (resume : σ → Script F σ) (left : Nat) {e : Engine F σ} (h : e.Idle desk) :
    e.resumeLoop desk resume left = .ok e.asked := by
  rcases ht : e.task with ⟨cond, s⟩ | _
  · rw [resumeLoop_suspended desk resume left ht]
    by_cases hvalid : cond.valid = true
    · simp [asked, waiting, ht, hvalid, h cond s ht hvalid, Run.ok_bind]
    · simp [asked, waiting, ht, hvalid]
  · unfold resumeLoop
    simp [asked, waiting, ht]

/-- One turn of the loop when what the strategy waits for holds. -/
theorem resumeLoop_of_holds {desk : Desk F} {resume : σ → Script F σ} (left : Nat) {e e₁ : Engine F σ} {cond : Cond F}
    {s : σ} (htask : e.task = .suspended cond s) (hvalid : cond.valid = true)
    (hholds : cond.eval (e.ctx desk) = .ok true)
    (hexec : (resume s).exec desk { e with conditionEvals := e.conditionEvals + 1 } = .ok e₁) :
    e.resumeLoop desk resume left = match left with
      | 0 => .error spinning
      | left + 1 => Engine.resumeLoop desk resume left { e₁ with resumes := e₁.resumes + 1 } := by
  rw [resumeLoop_suspended desk resume left htask, if_neg (by simp [hvalid]), hholds]
  simp only [Run.ok_bind, Bool.not_true, Bool.false_eq_true, if_false]
  rw [hexec]
  cases left with
  | zero => rfl
  | succ left => rfl

theorem resumeLoop_of_wakes {desk : Desk F} {resume : σ → Script F σ} {n : Nat} {e e' : Engine F σ}
    (h : Wakes desk resume n e e') (left : Nat) :
    e.resumeLoop desk resume (n + left) = e'.resumeLoop desk resume left := by
  induction h with
  | stay e => rw [Nat.zero_add]
  | @wake n e e₁ e' cond s htask hvalid hholds hexec hrest ih =>
      rw [resumeLoop_of_holds _ htask hvalid hholds hexec, Nat.succ_add]
      exact ih

/-- One wake-up too many at one timestamp, and the run ends: such a condition is not waiting for the market. -/
theorem resumeLoop_spins {desk : Desk F} {resume : σ → Script F σ} {left : Nat} {e e' : Engine F σ}
    (h : Wakes desk resume (left + 1) e e') : e.resumeLoop desk resume left = .error spinning := by
  induction left generalizing e with
  | zero =>
      cases h with
      | wake htask hvalid hholds hexec _ => exact resumeLoop_of_holds 0 htask hvalid hholds hexec
  | succ left ih =>
      cases h with
      | wake htask hvalid hholds hexec hrest =>
          rw [resumeLoop_of_holds _ htask hvalid hholds hexec]
          exact ih hrest

/-- A turn of the loop that ends well finds the strategy idle, or wakes it. -/
theorem idle_or_holds {desk : Desk F} {resume : σ → Script F σ} {left : Nat} {e e' : Engine F σ}
    (h : e.resumeLoop desk resume left = .ok e') :
    e.Idle desk ∨ ∃ cond s e₁, e.task = .suspended cond s ∧ cond.valid = true ∧ cond.eval (e.ctx desk) = .ok true ∧
      (resume s).exec desk { e with conditionEvals := e.conditionEvals + 1 } = .ok e₁ := by
  rcases ht : e.task with ⟨cond, s⟩ | _
  · rw [resumeLoop_suspended desk resume left ht] at h
    by_cases hvalid : cond.valid = true
    · rw [if_neg (by simp [hvalid])] at h
      obtain ⟨holds, heval, h⟩ := Run.bind_eq_ok.mp h
      cases holds with
      | false =>
          left
          intro cond' s' ht' _
          rw [ht] at ht'
          cases ht'
          exact heval
      | true =>
          obtain ⟨e₁, hexec, _⟩ := Run.bind_eq_ok.mp h
          refine .inr ⟨cond, s, e₁, rfl, hvalid, heval, ?_⟩
          rw [← ht]
          exact hexec
    · left
      intro cond' s' ht' hvalid'
      rw [ht] at ht'
      cases ht'
      exact absurd hvalid' hvalid
  · left
    intro cond s ht'
    rw [ht] at ht'
    cases ht'

/-- **The loop, in terms of wake-ups.** It wakes the strategy as long as what it waits for holds, at most `left`
    times. -/
theorem resumeLoop_eq_ok {desk : Desk F} {resume : σ → Script F σ} {left : Nat} {e e' : Engine F σ} :
    e.resumeLoop desk resume left = .ok e' ↔
      ∃ n e₁, n ≤ left ∧ Wakes desk resume n e e₁ ∧ e₁.Idle desk ∧ e' = e₁.asked := by
  constructor
  · intro h
    induction left generalizing e with
    | zero =>
        rcases idle_or_holds h with hidle | ⟨cond, s, e₁, htask, hvalid, hholds, hexec⟩
        · rw [resumeLoop_of_idle resume _ hidle] at h
          cases h
          exact ⟨0, e, le_refl 0, .stay e, hidle, rfl⟩
        · rw [resumeLoop_of_holds 0 htask hvalid hholds hexec] at h
          cases h
    | succ left ih =>
        rcases idle_or_holds h with hidle | ⟨cond, s, e₁, htask, hvalid, hholds, hexec⟩
        · rw [resumeLoop_of_idle resume _ hidle] at h
          cases h
          exact ⟨0, e, Nat.zero_le _, .stay e, hidle, rfl⟩
        · rw [resumeLoop_of_holds _ htask hvalid hholds hexec] at h
          obtain ⟨n, e₂, hn, hwakes, hidle, rfl⟩ := ih h
          exact ⟨n + 1, e₂, Nat.succ_le_succ hn, .wake htask hvalid hholds hexec hwakes, hidle, rfl⟩
  · rintro ⟨n, e₁, hn, hwakes, hidle, rfl⟩
    obtain ⟨left, rfl⟩ := Nat.exists_eq_add_of_le hn
    rw [resumeLoop_of_wakes hwakes, resumeLoop_of_idle resume left hidle]

/-! ## One step -/

theorem perform_counters (desk : Desk F) (e : Engine F σ) (cmd : Command F) :
    (e.perform desk cmd).1.conditionEvals = e.conditionEvals ∧ (e.perform desk cmd).1.steps = e.steps := by
  obtain ⟨id, intervalSeconds, source, hcmd⟩ | hcmd := @perform_cases F _ σ cmd
  · rw [hcmd]
    unfold hold
    split <;> exact ⟨rfl, rfl⟩
  · rw [hcmd]
    unfold answer
    split <;> exact ⟨rfl, rfl⟩

theorem exec_counters {desk : Desk F} {s : Script F σ} {e e' : Engine F σ} (h : s.exec desk e = .ok e') :
    e'.conditionEvals = e.conditionEvals ∧ e'.steps = e.steps := by
  induction s generalizing e with
  | look k ih => exact ih (e.ctx desk) h
  | order cmd k ih =>
      obtain ⟨hevals, hsteps⟩ := perform_counters desk e cmd
      obtain ⟨hevals', hsteps'⟩ := ih _ h
      exact ⟨hevals'.trans hevals, hsteps'.trans hsteps⟩
  | await cond s =>
      cases h
      exact ⟨rfl, rfl⟩
  | finish =>
      cases h
      exact ⟨rfl, rfl⟩
  | throw_ err => cases h

/-- Every wake-up takes one question. -/
theorem Wakes.counters {desk : Desk F} {resume : σ → Script F σ} {n : Nat} {e e' : Engine F σ}
    (h : Wakes desk resume n e e') :
    e'.resumes = e.resumes + n ∧ e'.conditionEvals = e.conditionEvals + n ∧ e'.steps = e.steps := by
  induction h with
  | stay e => exact ⟨rfl, rfl, rfl⟩
  | @wake n e e₁ e' cond s _ _ _ hexec _ ih =>
      obtain ⟨hresumes, hevals, hsteps⟩ := ih
      obtain ⟨hevals₁, hsteps₁⟩ := exec_counters hexec
      have hresumes₁ : e₁.resumes = e.resumes := (exec_resumes hexec).trans rfl
      dsimp only at hresumes hevals hsteps hevals₁ hsteps₁
      omega

theorem settleStep_counters {desk : Desk F} {marks : Bool} {e e' : Engine F σ} {t : Timestamp}
    (h : e.settleStep desk marks t = .ok e') :
    e'.conditionEvals = e.conditionEvals ∧ e'.steps = e.steps + 1 ∧ e'.clock = t := by
  obtain ⟨e₀, hclock, h⟩ := Run.bind_eq_ok.mp h
  obtain ⟨e₁, hpending, h⟩ := Run.bind_eq_ok.mp h
  obtain ⟨e₂, hmarks, h⟩ := Run.bind_eq_ok.mp h
  obtain ⟨e₃, hrules, hmargin⟩ := Run.bind_eq_ok.mp h
  obtain ⟨_, rfl⟩ := advanceTo_eq_ok.mp hclock
  obtain ⟨p₁, _, hpending⟩ := Run.bind_eq_ok.mp hpending
  obtain ⟨p₂, _, hmarks⟩ := Run.bind_eq_ok.mp hmarks
  obtain ⟨p₃, _, hrules⟩ := Run.bind_eq_ok.mp hrules
  cases hpending
  cases hmarks
  cases hrules
  unfold sampleMargin at hmargin
  split_ifs at hmargin
  · cases hmargin
    exact ⟨rfl, rfl, rfl⟩
  · obtain ⟨m, _, hmargin⟩ := Run.bind_eq_ok.mp hmargin
    cases hmargin
    exact ⟨rfl, rfl, rfl⟩

/-- **One step.** Once the timestamp's orders and rules are done with, the strategy is woken as long as what it waits
    for holds, and then asked in vain. -/
theorem step_wakes {desk : Desk F} {resume : σ → Script F σ} {marks : Bool} {e e' : Engine F σ} {t : Timestamp}
    (h : e.step desk resume marks t = .ok e') :
    ∃ e₁ n e₂, e.settleStep desk marks t = .ok e₁ ∧ n ≤ desk.config.maxResumesPerStep.toNat ∧
      Wakes desk resume n e₁ e₂ ∧ e₂.Idle desk ∧ e' = e₂.asked := by
  obtain ⟨e₁, hsettle, hloop⟩ := Run.bind_eq_ok.mp h
  obtain ⟨n, e₂, hn, hwakes, hidle, rfl⟩ := resumeLoop_eq_ok.mp hloop
  exact ⟨e₁, n, e₂, hsettle, hn, hwakes, hidle, rfl⟩

/-- How the counters move over `k` timestamps: every wake-up takes a question, and every timestamp at most one more. -/
structure Paced (desk : Desk F) (k : Nat) (e e' : Engine F σ) : Prop where
  steps : e'.steps = e.steps + k
  resumes : e.resumes ≤ e'.resumes
  bounded : e'.resumes ≤ e.resumes + desk.config.maxResumesPerStep.toNat * k
  asked : e.conditionEvals + e'.resumes ≤ e'.conditionEvals + e.resumes
  inVain : e'.conditionEvals + e.resumes ≤ e.conditionEvals + e'.resumes + k

theorem Paced.refl (desk : Desk F) (e : Engine F σ) : Paced desk 0 e e := by
  constructor <;> omega

theorem Paced.trans {desk : Desk F} {j k : Nat} {e e' e'' : Engine F σ} (h : Paced desk j e e')
    (h' : Paced desk k e' e'') : Paced desk (j + k) e e'' := by
  obtain ⟨hsteps, hresumes, hbounded, hasked, hinVain⟩ := h
  obtain ⟨hsteps', hresumes', hbounded', hasked', hinVain'⟩ := h'
  have hdist := Nat.mul_add desk.config.maxResumesPerStep.toNat j k
  constructor <;> omega

/-- At timestamp `t`, once its orders and rules are done with, `cond` does not hold. -/
def Denies (desk : Desk F) (marks : Bool) (cond : Cond F) (e : Engine F σ) (t : Timestamp) : Prop :=
  ∃ e₁, e.settleStep desk marks t = .ok e₁ ∧ cond.eval (e₁.ctx desk) = .ok false

/-- The strategy still waits for what it waited for after `n` wake-ups. -/
def Asleep (n : Nat) (cond : Cond F) (s : σ) (e : Engine F σ) : Prop :=
  n ≤ e.resumes ∧ (e.resumes = n → e.task = .suspended cond s)

/-- The step lemma: the strategy sleeps on exactly when its condition does not hold. -/
theorem Asleep.step {desk : Desk F} {resume : σ → Script F σ} {marks : Bool} {n : Nat} {cond : Cond F} {s : σ}
    (hvalid : cond.valid = true) {e e' : Engine F σ} {t : Timestamp} (h : Asleep n cond s e)
    (hstep : e.step desk resume marks t = .ok e') :
    Asleep n cond s e' ∧ (e'.resumes = n ↔ e.resumes = n ∧ Denies desk marks cond e t) := by
  obtain ⟨hle, hsleeps⟩ := h
  obtain ⟨e₁, k, e₂, hsettle, _, hwakes, hidle, rfl⟩ := step_wakes hstep
  obtain ⟨htask₁, hresumes₁⟩ := settleStep_strategy hsettle
  obtain ⟨hresumes₂, _, _⟩ := hwakes.counters
  obtain ⟨htask, hresumes, _, _⟩ := e₂.asked_same
  have hsame : e₂.asked.resumes = e.resumes + k := by rw [hresumes, hresumes₂, hresumes₁]
  refine ⟨⟨by omega, ?_⟩, ?_, ?_⟩
  · intro hn
    have hzero : k = 0 := by omega
    subst hzero
    cases hwakes
    rw [htask, htask₁]
    exact hsleeps (by omega)
  · intro hn
    have hzero : k = 0 := by omega
    subst hzero
    cases hwakes
    have hwas : e.resumes = n := by omega
    exact ⟨hwas, e₁, hsettle, hidle cond s (htask₁.trans (hsleeps hwas)) hvalid⟩
  · rintro ⟨hwas, e₃, hsettle₃, hdenied⟩
    rw [hsettle] at hsettle₃
    cases hsettle₃
    cases hwakes with
    | stay => omega
    | wake ht _ hholds _ _ =>
        -- woken by the very condition that does not hold
        rw [htask₁, hsleeps hwas] at ht
        cases ht
        rw [hdenied] at hholds
        cases hholds

/-- A deadline is not there yet exactly at the timestamps before it. -/
theorem denies_atOrAfter_iff {desk : Desk F} {resume : σ → Script F σ} {marks : Bool} {T t : Timestamp}
    {e e' : Engine F σ} (h : e.step desk resume marks t = .ok e') : Denies desk marks (atOrAfter T) e t ↔ t < T := by
  obtain ⟨e₁, hsettle, _⟩ := Run.bind_eq_ok.mp h
  obtain ⟨_, _, hclock⟩ := settleStep_counters hsettle
  have hnow : (e₁.ctx desk).now = t := hclock
  have heval : (atOrAfter T : Cond F).eval (e₁.ctx desk) = .ok (decide (T ≤ t)) := by
    rw [← hnow]
    rfl
  constructor
  · rintro ⟨e₂, hsettle₂, hdenied⟩
    rw [hsettle] at hsettle₂
    cases hsettle₂
    rw [heval, Except.ok.injEq, decide_eq_false_iff_not, not_le] at hdenied
    exact hdenied
  · intro hlt
    refine ⟨e₁, hsettle, ?_⟩
    rw [heval, Except.ok.injEq, decide_eq_false_iff_not, not_le]
    exact hlt

theorem along_atOrAfter_iff {desk : Desk F} {resume : σ → Script F σ} {marks : Bool} {T : Timestamp}
    {ts : List Timestamp} {e e' : Engine F σ} (h : ts.foldlM (Engine.step desk resume marks) e = .ok e') :
    Run.Along (Engine.step desk resume marks) (Denies desk marks (atOrAfter T)) e ts ↔ ∀ t ∈ ts, t < T := by
  induction ts generalizing e with
  | nil => simp [Run.Along]
  | cons t ts ih =>
      obtain ⟨e₁, hstep, h⟩ := Run.foldlM_cons_ok.mp h
      simp only [Run.Along, List.forall_mem_cons, denies_atOrAfter_iff hstep, hstep, Except.ok.injEq, forall_eq', ih h]

/-! ## Over many sessions -/

/-- What happens at the end of a session is no concern of the strategy. -/
structure Aside (e e' : Engine F σ) : Prop where
  task : e'.task = e.task
  resumes : e'.resumes = e.resumes
  steps : e'.steps = e.steps
  evals : e'.conditionEvals = e.conditionEvals

omit [Double F] in
theorem Aside.trans {e e' e'' : Engine F σ} (h : Aside e e') (h' : Aside e' e'') : Aside e e'' :=
  ⟨h'.task.trans h.task, h'.resumes.trans h.resumes, h'.steps.trans h.steps, h'.evals.trans h.evals⟩

theorem endSession_aside {desk : Desk F} {config : BacktestConfig F} {e e' : Engine F σ} {n : Nat}
    (h : e.endSession desk config = .ok (e', n)) : Aside e e' := by
  unfold endSession at h
  dsimp only at h
  have hclock : Aside e (e.toSettlement config) := by
    unfold toSettlement
    dsimp only
    split_ifs
    · exact ⟨rfl, rfl, rfl, rfl⟩
    · exact ⟨rfl, rfl, rfl, rfl⟩
  obtain ⟨due, _, h⟩ := Run.bind_eq_ok.mp h
  obtain ⟨⟨e₁, k⟩, hsettle, h⟩ := Run.bind_eq_ok.mp h
  obtain ⟨e₂, hcancel, h⟩ := Run.bind_eq_ok.mp h
  cases h
  have hsettled : Aside (e.toSettlement config) e₁ := by
    refine Run.foldlM_inv (fun acc : Engine F σ × Nat => Aside (e.toSettlement config) acc.1) ?_ _ _ _
      ⟨rfl, rfl, rfl, rfl⟩ hsettle
    rintro ⟨q, k⟩ expiry acc' haside hstep
    unfold settleDue at hstep
    dsimp only at hstep
    obtain ⟨_, hstep⟩ := Run.guard_eq_ok.mp hstep
    split at hstep
    · cases hstep
    · obtain ⟨⟨p, n⟩, _, hstep⟩ := Run.bind_eq_ok.mp hstep
      cases hstep
      exact haside.trans ⟨rfl, rfl, rfl, rfl⟩
  obtain ⟨p, _, hcancel⟩ := Run.bind_eq_ok.mp hcancel
  cases hcancel
  exact (hclock.trans hsettled).trans ⟨rfl, rfl, rfl, rfl⟩

end Engine

namespace Campaign

open Engine

/-- At no timestamp of the date's session, if it has one, does `cond` hold. -/
def Denies (desk : Desk F) (source : DataSource) (resume : σ → Script F σ) (cond : Cond F) (c : Campaign F σ)
    (date : Date) : Prop :=
  ∀ session, source.load date = .ok (some session) →
    Run.Along (Engine.step desk resume true) (Engine.Denies desk true cond) (c.engine.bindSession session date)
      session.steps

theorem nextDate_eq_ok {desk : Desk F} {config : BacktestConfig F} {source : DataSource} {resume : σ → Script F σ}
    {c c' : Campaign F σ} {date : Date} (h : c.nextDate desk config source resume date = .ok c') :
    (source.load date = .ok none ∧ c' = c) ∨
    ∃ session e, source.load date = .ok (some session) ∧ c'.sessions = c.sessions ++ [date] ∧
      session.steps.foldlM (Engine.step desk resume true) (c.engine.bindSession session date) = .ok e ∧
      Aside e c'.engine := by
  obtain ⟨loaded, hload, h⟩ := Run.bind_eq_ok.mp h
  cases loaded with
  | none =>
      cases h
      exact .inl ⟨hload, rfl⟩
  | some session =>
      obtain ⟨⟨e', n⟩, hday, h⟩ := Run.bind_eq_ok.mp h
      cases h
      obtain ⟨e, hsteps, hend⟩ := Run.bind_eq_ok.mp hday
      exact .inr ⟨session, e, hload, rfl, hsteps, endSession_aside hend⟩

theorem denies_atOrAfter_iff {desk : Desk F} {config : BacktestConfig F} {source : DataSource}
    {resume : σ → Script F σ} {T : Timestamp} {c c' : Campaign F σ} {date : Date}
    (h : c.nextDate desk config source resume date = .ok c') :
    c.Denies desk source resume (atOrAfter T) date ↔
      ∀ session, source.load date = .ok (some session) → ∀ t ∈ session.steps, t < T := by
  rcases nextDate_eq_ok h with ⟨hload, rfl⟩ | ⟨session, e, hload, _, hsteps, _⟩
  · simp [Denies, hload]
  · simp only [Denies, hload, Except.ok.injEq, Option.some.injEq, forall_eq']
    exact along_atOrAfter_iff hsteps

theorem along_atOrAfter_iff {desk : Desk F} {config : BacktestConfig F} {source : DataSource} {strategy : Strategy F}
    {T : Timestamp} {dates : List Date} {c c' : Campaign F strategy.State}
    (h : replayDates desk config source strategy dates c = .ok c') :
    Run.Along (nextDate desk config source strategy.resume) (Denies desk source strategy.resume (atOrAfter T)) c dates ↔
      ∀ d ∈ dates, ∀ session, source.load d = .ok (some session) → ∀ t ∈ session.steps, t < T := by
  unfold replayDates at h
  induction dates generalizing c with
  | nil => simp [Run.Along]
  | cons d dates ih =>
      obtain ⟨c₁, hstep, h⟩ := Run.foldlM_cons_ok.mp h
      simp only [Run.Along, List.forall_mem_cons, denies_atOrAfter_iff hstep, hstep, Except.ok.injEq, forall_eq', ih h]

end Campaign

/-! ## Main result -/

end Volforge
