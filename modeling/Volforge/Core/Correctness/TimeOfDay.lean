import Volforge.Core.Correctness.Universe

/-!
# `Core.Correctness.TimeOfDay` — the session a time of day resolves onto

`Ctx::at` looks for the next date in the calendar of the run, which is the list of dates the run was asked for.
Which of them have data is found out only when they are loaded. Here the contexts a strategy is handed in a run
are those of `Handed`, and the session a time of day is to resolve onto is the one of `Upcoming`.

## Contents
- **Contexts of a run.** `Script.Asks`, `Engine.Asks` and `Handed`.
- **Deadlines.** What `at_` returns, and when two conditions are the same.
- **Main result.** `time_of_day_resolves`, and a run over a date without data.
-/

namespace Volforge

variable {F : Type} [Double F] {σ : Type}

/-! ## Contexts of a run -/

/-- The stretch of strategy code, entered with this engine, looks at the context. -/
inductive Script.Asks (desk : Desk F) : Script F σ → Engine F σ → Ctx F → Prop where
  | here (k : Ctx F → Script F σ) (e : Engine F σ) : Asks desk (.look k) e (e.ctx desk)
  | later {k : Ctx F → Script F σ} {e : Engine F σ} {c : Ctx F} (h : Asks desk (k (e.ctx desk)) e c) :
      Asks desk (.look k) e c
  | order {cmd : Command F} {k : Reply → Script F σ} {e : Engine F σ} {c : Ctx F}
      (h : Asks desk (k (e.perform desk cmd).2) (e.perform desk cmd).1 c) : Asks desk (.order cmd k) e c

/-- The strategy looks at the context in the loop that enters it. -/
inductive Engine.Asks (desk : Desk F) (resume : σ → Script F σ) : Nat → Engine F σ → Ctx F → Prop where
  | enters {left : Nat} {e : Engine F σ} {pending : Cond F} {s : σ} {c : Ctx F}
      (htask : e.task = .suspended pending s) (hvalid : pending.valid = true)
      (hholds : pending.eval (e.ctx desk) = .ok true)
      (h : (resume s).Asks desk { e with conditionEvals := e.conditionEvals + 1 } c) : Asks desk resume left e c
  | again {left : Nat} {e e' : Engine F σ} {pending : Cond F} {s : σ} {c : Ctx F}
      (htask : e.task = .suspended pending s) (hvalid : pending.valid = true)
      (hholds : pending.eval (e.ctx desk) = .ok true)
      (hexec : (resume s).exec desk { e with conditionEvals := e.conditionEvals + 1 } = .ok e')
      (h : Asks desk resume left { e' with resumes := e'.resumes + 1 } c) : Asks desk resume (left + 1) e c

/-- The source has data for the date. -/
def DataSource.Loads (source : DataSource) (d : Date) : Prop := ∃ session, source.load d = .ok (some session)

/-- The strategy is handed the context in a run over `dates`: in its first stretch, with the first session bound,
    or at one of the timestamps of the session of a date that loads. -/
inductive Handed (desk : Desk F) (config : BacktestConfig F) (source : DataSource) (strategy : Strategy F)
    (dates : List Date) : Ctx F → Prop where
  | first {front : Date} {rest : List Date} {session : SessionData} {p : Portfolio F} {c : Ctx F}
      (hdates : dates = front :: rest) (hload : source.load front = .ok (some session))
      (hportfolio : desk.config.portfolio = .ok p)
      (h : strategy.start.Asks desk { session := session, date := front, portfolio := p } c) :
      Handed desk config source strategy dates c
  | during {front date : Date} {before after : List Date} {c₀ c₁ : Campaign F strategy.State}
      {session : SessionData} {done rest : List Timestamp} {t : Timestamp} {e e' : Engine F strategy.State}
      {c : Ctx F} (hfront : dates.head? = some front)
      (hstart : startCampaign desk source strategy front = .ok c₀) (hdates : dates = before ++ date :: after)
      (hbefore : replayDates desk config source strategy before c₀ = .ok c₁)
      (hload : source.load date = .ok (some session)) (hsteps : session.steps = done ++ t :: rest)
      (hdone : c₁.during desk strategy session date done = .ok e) (hsettle : e.settleStep desk true t = .ok e')
      (h : e'.Asks desk strategy.resume desk.config.maxResumesPerStep.toNat c) :
      Handed desk config source strategy dates c

/-- A context as the engine makes it, in the session of a date. -/
structure Ctx.Bound (desk : Desk F) (date : Date) (c : Ctx F) : Prop where
  date : c.date = date
  utcOffset : c.utcOffset = kISTOffsetSeconds
  calendar : c.calendar = desk.calendar

theorem perform_date (desk : Desk F) (e : Engine F σ) (cmd : Command F) : (e.perform desk cmd).1.date = e.date :=
  ((Engine.grown_stable desk).perform e cmd).date

theorem Script.Asks.bound {desk : Desk F} {s : Script F σ} {e : Engine F σ} {c : Ctx F} (h : s.Asks desk e c) :
    c.Bound desk e.date := by
  induction h with
  | here k e => exact ⟨rfl, rfl, rfl⟩
  | later _ ih => exact ih
  | @order cmd k e c _ ih =>
      rw [perform_date] at ih
      exact ih

theorem Engine.Asks.bound {desk : Desk F} {resume : σ → Script F σ} {left : Nat} {e : Engine F σ} {c : Ctx F}
    (h : e.Asks desk resume left c) : c.Bound desk e.date := by
  induction h with
  | enters _ _ _ h => exact h.bound
  | again _ _ _ hexec _ ih =>
      have hdate := ((Engine.grown_stable desk).exec hexec).date
      rw [← show _ = _ from hdate]
      exact ih

theorem settleStep_date {desk : Desk F} {marks : Bool} {e e' : Engine F σ} {t : Timestamp}
    (h : e.settleStep desk marks t = .ok e') : e'.date = e.date := by
  obtain ⟨e₀, hclock, h⟩ := Run.bind_eq_ok.mp h
  obtain ⟨e₁, hpending, h⟩ := Run.bind_eq_ok.mp h
  obtain ⟨e₂, hmarks, h⟩ := Run.bind_eq_ok.mp h
  obtain ⟨e₃, hrules, hmargin⟩ := Run.bind_eq_ok.mp h
  obtain ⟨_, rfl⟩ := Engine.advanceTo_eq_ok.mp hclock
  have hpending : Engine.Grown desk _ e₁ := Engine.operate_grown hpending
  have hmarks : Engine.Grown desk e₁ e₂ := Engine.operate_grown hmarks
  have hrules : Engine.Grown desk e₂ e₃ := Engine.operate_grown hrules
  rw [(Engine.sampleMargin_entered hmargin).date, hrules.date, hmarks.date, hpending.date]

/-- The context belongs to the session of a date of the run that loads. -/
theorem Handed.bound {desk : Desk F} {config : BacktestConfig F} {source : DataSource} {strategy : Strategy F}
    {dates : List Date} {c : Ctx F} (h : Handed desk config source strategy dates c) :
    c.Bound desk c.date ∧ c.date ∈ dates ∧ source.Loads c.date := by
  cases h with
  | first hdates hload hportfolio h =>
      have hb := h.bound
      rw [hb.date]
      refine ⟨⟨hb.date, hb.utcOffset, hb.calendar⟩, ?_, _, hload⟩
      rw [hdates]
      exact List.mem_cons_self ..
  | @during front date before after c₀ c₁ session done rest t e e' c _ _ hdates _ hload _ hdone hsettle h =>
      have hb := h.bound
      have hday : e.date = date := (Engine.steps_grown hdone).date
      rw [settleStep_date hsettle, hday] at hb
      rw [hb.date]
      refine ⟨hb, ?_, _, hload⟩
      rw [hdates]
      simp

/-! ## Deadlines -/

/-- The instant of a time of day on a date. -/
def occurrence (sod : Int) (d : Date) : Timestamp := timestampOf d sod kISTOffsetSeconds

theorem occurrence_lt {sod : Int} {d d' : Date} (h : d.days < d'.days) : occurrence sod d < occurrence sod d' := by
  unfold occurrence timestampOf fromSeconds
  show (_ : Int) < _
  omega

omit [Double F] in
/-- Deadlines at different instants are different conditions: a context at the earlier one tells them apart. -/
theorem atOrAfter_injective (c₀ : Ctx F) {t t' : Timestamp}
    (h : ∀ c : Ctx F, (atOrAfter t).eval c = (atOrAfter t').eval c) : t = t' := by
  have hat : ∀ now : Timestamp, t ≤ now ↔ t' ≤ now := by
    intro now
    have hc := h { c₀ with market := { c₀.market with now := now } }
    simp only [atOrAfter, Cond.when_, Cond.eval, Ctx.now, Except.ok.injEq] at hc
    exact decide_eq_decide.mp hc
  exact le_antisymm ((hat t').mpr (le_refl _)) ((hat t).mp (le_refl _))

omit [Double F] in
theorem atOrAfter_ne_never (c₀ : Ctx F) {t : Timestamp}
    (h : ∀ c : Ctx F, (atOrAfter t).eval c = .ok false) : False := by
  have hc := h { c₀ with market := { c₀.market with now := t } }
  simp [atOrAfter, Cond.when_, Cond.eval, Ctx.now] at hc

/-- The first requested date after `date`. -/
structure NextRequested (dates : List Date) (date d : Date) : Prop where
  mem : d ∈ dates
  after : date < d
  first : ∀ d' ∈ dates, date < d' → d ≤ d'

theorem sorted_of_datesSorted : ∀ {dates : List Date}, datesSorted dates = true → dates.Pairwise (· ≤ ·)
  | [], _ => .nil
  | [_], _ => List.pairwise_singleton _ _
  | a :: b :: rest, h => by
      simp only [datesSorted, Bool.and_eq_true, Bool.not_eq_true', decide_eq_false_iff_not, not_lt] at h
      have hrest := sorted_of_datesSorted h.2
      refine List.pairwise_cons.mpr ⟨fun d hd => ?_, hrest⟩
      obtain rfl | hd := List.mem_cons.mp hd
      · exact h.1
      · exact le_trans h.1 ((List.pairwise_cons.mp hrest).1 d hd)

/-- In ascending order the first date found is the earliest. -/
theorem nextRequested_of_find? {dates : List Date} (hsorted : dates.Pairwise (· ≤ ·)) {date d : Date}
    (h : dates.find? (fun d => date < d) = some d) : NextRequested dates date d := by
  obtain ⟨hafter, before, after, rfl, hbefore⟩ := List.find?_eq_some_iff_append.mp h
  refine ⟨by simp, of_decide_eq_true hafter, fun d' hd' hlt => ?_⟩
  obtain hd' | hd' := List.mem_append.mp hd'
  · have := hbefore d' hd'
    simp [hlt] at this
  · obtain rfl | hd' := List.mem_cons.mp hd'
    · exact le_refl _
    · exact (List.pairwise_cons.mp (List.pairwise_append.mp hsorted).2.1).1 d' hd'

theorem NextRequested.unique {dates : List Date} {date d d' : Date} (h : NextRequested dates date d)
    (h' : NextRequested dates date d') : d = d' :=
  le_antisymm (h.first d' h'.mem h'.after) (h'.first d h.mem h.after)

/-- What `Ctx::at` returns: today's instant, or that of the next requested date, or a condition that never
    holds. -/
theorem Ctx.at_cases {desk : Desk F} {dates : List Date} (hdesk : desk.calendar = some dates)
    (hsorted : dates.Pairwise (· ≤ ·)) {c : Ctx F} (hb : c.Bound desk c.date) {hhmm : Bytes} {sod : Int}
    (hparse : parseTimeOfDay hhmm = .ok sod) :
    (c.now < occurrence sod c.date ∧ c.at_ hhmm = .ok (atOrAfter (occurrence sod c.date))) ∨
    (occurrence sod c.date ≤ c.now ∧ ∃ d, NextRequested dates c.date d ∧
      c.at_ hhmm = .ok (atOrAfter (occurrence sod d))) ∨
    (occurrence sod c.date ≤ c.now ∧ (∀ d ∈ dates, d ≤ c.date) ∧
      c.at_ hhmm = .ok (.when_ fun _ => .ok false)) := by
  have hat : c.at_ hhmm = if c.now < occurrence sod c.date then .ok (atOrAfter (occurrence sod c.date))
      else (dates.find? (fun d => c.date < d)).elim (.ok (.when_ fun _ => .ok false))
        (fun d => .ok (atOrAfter (occurrence sod d))) := by
    unfold Ctx.at_ occurrence
    rw [hparse, hb.utcOffset, hb.calendar, hdesk]
    cases hfind : dates.find? (fun d => c.date < d) <;> simp [hfind]
  rw [hat]
  by_cases htoday : c.now < occurrence sod c.date
  · rw [if_pos htoday]
    exact .inl ⟨htoday, rfl⟩
  · rw [if_neg htoday]
    refine .inr ?_
    cases hfind : dates.find? (fun d => c.date < d) with
    | some d => exact .inl ⟨not_lt.mp htoday, d, nextRequested_of_find? hsorted hfind, rfl⟩
    | none =>
        refine .inr ⟨not_lt.mp htoday, fun d hd => ?_, rfl⟩
        have := List.find?_eq_none.mp hfind d hd
        simpa using this

/-! ## Main result -/

/-- The session a time of day is to resolve onto: the earliest one of the run that is replayed and at which it
    still lies ahead. -/
structure Upcoming (source : DataSource) (dates : List Date) (sod : Int) (now : Timestamp) (d : Date) : Prop where
  mem : d ∈ dates
  loads : source.Loads d
  ahead : now < occurrence sod d
  first : ∀ d' ∈ dates, source.Loads d' → now < occurrence sod d' → d ≤ d'

/-- The condition waits for the time of day on that session, and never holds if there is none. -/
structure ResolvesOnto (source : DataSource) (dates : List Date) (sod : Int) (now : Timestamp) (cond : Cond F) :
    Prop where
  deadline : ∀ d, Upcoming source dates sod now d → ∀ c, cond.eval c = (atOrAfter (occurrence sod d)).eval c
  never : (∀ d, ¬ Upcoming source dates sod now d) → ∀ c, cond.eval c = .ok false

/-- Nothing goes wrong for a call made in the session of `date`: no earlier session has the time of day ahead of
    it, and once today's has passed the next requested date has data and its time of day lies ahead. -/
structure Resolvable (source : DataSource) (dates : List Date) (sod : Int) (date : Date) (now : Timestamp) :
    Prop where
  earlier : ∀ d ∈ dates, d < date → source.Loads d → occurrence sod d ≤ now
  next : occurrence sod date ≤ now → ∀ d, NextRequested dates date d → source.Loads d ∧ now < occurrence sod d

/-- There is a session to resolve onto as soon as some session has the time of day ahead of it. -/
theorem exists_upcoming {source : DataSource} {dates : List Date} {sod : Int} {now : Timestamp} {d : Date}
    (hmem : d ∈ dates) (hloads : source.Loads d) (hahead : now < occurrence sod d) :
    ∃ d₀, Upcoming source dates sod now d₀ ∧ d₀ ≤ d := by
  classical
  let candidates := dates.toFinset.filter (fun d => source.Loads d ∧ now < occurrence sod d)
  have hd : d ∈ candidates := by simp [candidates, hmem, hloads, hahead]
  obtain ⟨d₀, hd₀, hmin⟩ := candidates.exists_min_image id ⟨d, hd⟩
  have h₀ : d₀ ∈ dates ∧ source.Loads d₀ ∧ now < occurrence sod d₀ := by simpa [candidates] using hd₀
  refine ⟨d₀, ⟨h₀.1, h₀.2.1, h₀.2.2, fun d' hd' hl hlt => ?_⟩, hmin d hd⟩
  exact hmin d' (by simp [candidates, hd', hl, hlt])

theorem Upcoming.unique {source : DataSource} {dates : List Date} {sod : Int} {now : Timestamp} {d d' : Date}
    (h : Upcoming source dates sod now d) (h' : Upcoming source dates sod now d') : d = d' :=
  le_antisymm (h.first d' h'.mem h'.loads h'.ahead) (h'.first d h.mem h.loads h.ahead)

/-- **Enough**: on such a call the condition waits for the right session. -/
theorem resolves_of_resolvable {source : DataSource} {desk : Desk F} {dates : List Date}
    (hdesk : desk.calendar = some dates) (hsorted : dates.Pairwise (· ≤ ·)) {c : Ctx F} (hb : c.Bound desk c.date)
    (hmem : c.date ∈ dates) (hloads : source.Loads c.date) {hhmm : Bytes} {sod : Int}
    (hparse : parseTimeOfDay hhmm = .ok sod) (h : Resolvable source dates sod c.date c.now) {cond : Cond F}
    (hat : c.at_ hhmm = .ok cond) : ResolvesOnto source dates sod c.now cond := by
  -- a session before today's has the time of day behind it
  have hlater : ∀ d, Upcoming source dates sod c.now d → c.date ≤ d := by
    intro d hd
    by_contra hlt
    exact absurd (h.earlier d hd.mem (not_le.mp hlt) hd.loads) (not_le.mpr hd.ahead)
  obtain ⟨htoday, heq⟩ | ⟨hpassed, d₁, hnext, heq⟩ | ⟨hpassed, hlast, heq⟩ := Ctx.at_cases hdesk hsorted hb hparse
  · rw [heq, Except.ok.injEq] at hat
    subst hat
    refine ⟨fun d hd c' => ?_, fun hnone => ?_⟩
    · rw [le_antisymm (hd.first _ hmem hloads htoday) (hlater d hd)]
    · obtain ⟨d₀, hd₀, _⟩ := exists_upcoming hmem hloads htoday
      exact absurd hd₀ (hnone d₀)
  · rw [heq, Except.ok.injEq] at hat
    subst hat
    obtain ⟨hloads₁, hahead₁⟩ := h.next hpassed d₁ hnext
    refine ⟨fun d hd c' => ?_, fun hnone => ?_⟩
    · -- the session waited for is not today's, whose time of day has passed
      have hne : c.date ≠ d := by
        rintro heq'
        rw [← heq'] at hd
        exact absurd hpassed (not_le.mpr hd.ahead)
      have hafter : c.date < d := lt_of_le_of_ne (hlater d hd) hne
      rw [le_antisymm (hd.first _ hnext.mem hloads₁ hahead₁) (hnext.first d hd.mem hafter)]
    · obtain ⟨d₀, hd₀, _⟩ := exists_upcoming hnext.mem hloads₁ hahead₁
      exact absurd hd₀ (hnone d₀)
  · rw [heq, Except.ok.injEq] at hat
    subst hat
    refine ⟨fun d hd => ?_, fun _ _ => rfl⟩
    have hsame : d = c.date := le_antisymm (hlast d hd.mem) (hlater d hd)
    rw [hsame] at hd
    exact absurd hpassed (not_le.mpr hd.ahead)

/-- **Needed**, where a later date is a later day. -/
theorem resolvable_of_resolves {source : DataSource} {desk : Desk F} {dates : List Date}
    (hdesk : desk.calendar = some dates) (hsorted : dates.Pairwise (· ≤ ·))
    (hdays : ∀ a ∈ dates, ∀ b ∈ dates, a < b → a.days < b.days) {c : Ctx F} (hb : c.Bound desk c.date)
    (hmem : c.date ∈ dates) {hhmm : Bytes} {sod : Int} (hparse : parseTimeOfDay hhmm = .ok sod) {cond : Cond F}
    (hat : c.at_ hhmm = .ok cond) (h : ResolvesOnto source dates sod c.now cond) :
    Resolvable source dates sod c.date c.now := by
  have hmono : ∀ a ∈ dates, ∀ b ∈ dates, a < b → occurrence sod a < occurrence sod b :=
    fun a ha b hb hlt => occurrence_lt (hdays a ha b hb hlt)
  refine ⟨fun d hd hlt hloads => ?_, fun hpassed d hd => ?_⟩
  · -- an earlier date still ahead would be the deadline, and what is resolved is today's instant
    by_contra hahead
    have hahead := not_le.mp hahead
    obtain ⟨d₀, hd₀, hle⟩ := exists_upcoming hd hloads hahead
    have hbefore : occurrence sod d₀ < occurrence sod c.date := hmono _ hd₀.mem _ hmem (lt_of_le_of_lt hle hlt)
    have htoday : c.now < occurrence sod c.date := lt_trans hd₀.ahead hbefore
    obtain ⟨_, heq⟩ | ⟨hpassed, _⟩ | ⟨hpassed, _⟩ := Ctx.at_cases hdesk hsorted hb hparse
    · rw [heq, Except.ok.injEq] at hat
      subst hat
      exact absurd (atOrAfter_injective c (h.deadline d₀ hd₀)) (ne_of_gt hbefore)
    · exact absurd htoday (not_lt.mpr hpassed)
    · exact absurd htoday (not_lt.mpr hpassed)
  · obtain ⟨htoday, _⟩ | ⟨_, d₁, hnext, heq⟩ | ⟨_, hlast, _⟩ := Ctx.at_cases hdesk hsorted hb hparse
    · exact absurd htoday (not_lt.mpr hpassed)
    · rw [heq, Except.ok.injEq] at hat
      subst hat
      rw [hd.unique hnext]
      by_cases hsome : ∃ d₀, Upcoming source dates sod c.now d₀
      · -- the instants of two dates are the same only if the dates are
        obtain ⟨d₀, hd₀⟩ := hsome
        have hinst := atOrAfter_injective c (h.deadline d₀ hd₀)
        have hsame : d₁ = d₀ := by
          obtain hlt | heq | hgt := lt_trichotomy d₁ d₀
          · exact absurd hinst (ne_of_lt (hmono _ hnext.mem _ hd₀.mem hlt))
          · exact heq
          · exact absurd hinst (ne_of_gt (hmono _ hd₀.mem _ hnext.mem hgt))
        rw [hsame]
        exact ⟨hd₀.loads, hd₀.ahead⟩
      · exact (atOrAfter_ne_never c (h.never (fun d hd => hsome ⟨d, hd⟩))).elim
    · exact absurd hd.after (not_lt.mpr (hlast d hd.mem))

/-- **The session a time of day resolves onto.** Whenever a strategy calls `Ctx::at` in a run over ascending
    dates, the condition waits for the earliest session still to be replayed with the time of day ahead, if the
    call is `Resolvable`; over dates of which a later one is a later day, exactly then. -/
theorem time_of_day_resolves {source : DataSource} {underlying : UnderlyingId} {spot : InstrumentId}
    {strategy : Strategy F} {config : BacktestConfig F} {dates : List Date} (hsorted : datesSorted dates = true)
    {c : Ctx F} (hc : Handed (backtestDesk underlying spot config dates) config source strategy dates c)
    {hhmm : Bytes} {sod : Int} (hparse : parseTimeOfDay hhmm = .ok sod) :
    ∃ cond, c.at_ hhmm = .ok cond ∧
      (Resolvable source dates sod c.date c.now → ResolvesOnto source dates sod c.now cond) ∧
      ((∀ a ∈ dates, ∀ b ∈ dates, a < b → a.days < b.days) →
        ResolvesOnto source dates sod c.now cond → Resolvable source dates sod c.date c.now) := by
  obtain ⟨hb, hmem, hloads⟩ := hc.bound
  have hasc := sorted_of_datesSorted hsorted
  obtain ⟨cond, hat⟩ : ∃ cond, c.at_ hhmm = .ok cond := by
    obtain ⟨_, heq⟩ | ⟨_, d, _, heq⟩ | ⟨_, _, heq⟩ := Ctx.at_cases rfl hasc hb hparse
    · exact ⟨_, heq⟩
    · exact ⟨_, heq⟩
    · exact ⟨_, heq⟩
  refine ⟨cond, hat, fun h => ?_, fun hdays h => ?_⟩
  · exact resolves_of_resolvable rfl hasc hb hmem hloads hparse h hat
  · exact resolvable_of_resolves rfl hasc hdays hb hmem hparse hat h

/-! ### A date without data -/

/-- Three dates are asked for; the second one has no data. -/
def gappedDates : List Date := [⟨20250701⟩, ⟨20250702⟩, ⟨20250703⟩]

/-- Prints at 09:20 on the first date and at 09:15 on the third. -/
def gappedSource : DataSource where
  sessions := gappedDates
  load d := .ok (if d = ⟨20250701⟩ then some (flatSession ⟨20250701⟩ [1751341800000000000])
    else if d = ⟨20250703⟩ then some (flatSession ⟨20250703⟩ [1751514300000000000])
    else none)

/-- "09:20" -/
def nineTwenty : Bytes := [48, 57, 58, 50, 48]

/-- Waits for 09:20 again and again. -/
def everyNineTwenty : Strategy ℚ where
  State := Unit
  start := .look fun c => match c.at_ nineTwenty with
    | .ok cond => .await cond ()
    | .error err => .throw_ err
  resume _ := .look fun c => match c.at_ nineTwenty with
    | .ok cond => .await cond ()
    | .error err => .throw_ err

def gappedDesk (dates : List Date) : Desk ℚ := backtestDesk 0 (-1) undatedConfig dates

/-- A run over dates of which 2025-07-01 is the first: the engine at its first step, before the strategy is entered, and
    the end of the run. -/
def gappedRun (dates : List Date) :
    Except Error (Campaign ℚ Unit × Engine ℚ Unit × Engine ℚ Unit × Campaign ℚ Unit) := do
  let c₀ ← startCampaign (gappedDesk dates) gappedSource everyNineTwenty ⟨20250701⟩
  let e ← c₀.during (gappedDesk dates) everyNineTwenty (flatSession ⟨20250701⟩ [1751341800000000000]) ⟨20250701⟩ []
  let e' ← e.settleStep (gappedDesk dates) true 1751341800000000000
  let c₁ ← replayDates (gappedDesk dates) undatedConfig gappedSource everyNineTwenty dates c₀
  return (c₀, e, e', c₁)

theorem gappedRun_eq_ok {dates : List Date} {c₀ c₁ : Campaign ℚ Unit} {e e' : Engine ℚ Unit}
    (h : gappedRun dates = .ok (c₀, e, e', c₁)) :
    startCampaign (gappedDesk dates) gappedSource everyNineTwenty ⟨20250701⟩ = .ok c₀ ∧
      c₀.during (gappedDesk dates) everyNineTwenty (flatSession ⟨20250701⟩ [1751341800000000000]) ⟨20250701⟩ [] = .ok e ∧
      e.settleStep (gappedDesk dates) true 1751341800000000000 = .ok e' ∧
      replayDates (gappedDesk dates) undatedConfig gappedSource everyNineTwenty dates c₀ = .ok c₁ := by
  obtain ⟨c₀, h₀, h⟩ := Run.bind_eq_ok.mp h
  obtain ⟨e, he, h⟩ := Run.bind_eq_ok.mp h
  obtain ⟨e', he', h⟩ := Run.bind_eq_ok.mp h
  obtain ⟨c₁, h₁, h⟩ := Run.bind_eq_ok.mp h
  cases h
  exact ⟨h₀, he, he', h₁⟩

/-- The strategy's condition holds. -/
def Engine.Holds (desk : Desk ℚ) (e : Engine ℚ Unit) : Bool :=
  match e.task with
  | .suspended pending _ => pending.valid && Run.succeeds (fun holds => holds) (pending.eval (e.ctx desk))
  | .done => false

theorem Engine.Holds.asks {desk : Desk ℚ} {left : Nat} {e : Engine ℚ Unit} (h : e.Holds desk = true) :
    e.Asks desk everyNineTwenty.resume left (e.ctx desk) := by
  unfold Engine.Holds at h
  cases htask : e.task with
  | done => simp [htask] at h
  | suspended pending s =>
      simp only [htask, Bool.and_eq_true] at h
      obtain ⟨holds, heval, hholds⟩ := Run.exists_of_succeeds _ _ h.2
      rw [hholds] at heval
      exact .enters htask h.1 heval (.here _ _)

/-- If the condition holds at that step, the strategy is entered, and asks for the next 09:20. -/
theorem gappedRun_handed {later : List Date} {c₀ c₁ : Campaign ℚ Unit} {e e' : Engine ℚ Unit}
    (h : gappedRun (⟨20250701⟩ :: later) = .ok (c₀, e, e', c₁)) (hholds : e'.Holds (gappedDesk (⟨20250701⟩ :: later)) = true) :
    Handed (gappedDesk (⟨20250701⟩ :: later)) undatedConfig gappedSource everyNineTwenty (⟨20250701⟩ :: later)
      (e'.ctx (gappedDesk (⟨20250701⟩ :: later))) := by
  obtain ⟨hstart, hdone, hsettle, _⟩ := gappedRun_eq_ok h
  have hdates : (⟨20250701⟩ :: later : List Date) = [] ++ ⟨20250701⟩ :: later := rfl
  have hsteps : (flatSession ⟨20250701⟩ [1751341800000000000]).steps = [] ++ 1751341800000000000 :: [] := by
    decide +kernel
  exact .during rfl hstart hdates rfl rfl hsteps hdone hsettle (Engine.Holds.asks hholds)

/-- At 09:20 on the first date the strategy asks for the next 09:20. The condition waits for 09:20 on the date
    without data, and the strategy is entered again at 09:15 on the third. -/
theorem gapped_date_is_waited_for :
    datesSorted gappedDates = true ∧ parseTimeOfDay nineTwenty = .ok 33600 ∧
    ∃ c cond c₀ c₁, Handed (gappedDesk gappedDates) undatedConfig gappedSource everyNineTwenty gappedDates c ∧
      c.at_ nineTwenty = .ok cond ∧ ¬ ResolvesOnto gappedSource gappedDates 33600 c.now cond ∧
      startCampaign (gappedDesk gappedDates) gappedSource everyNineTwenty ⟨20250701⟩ = .ok c₀ ∧
      replayDates (gappedDesk gappedDates) undatedConfig gappedSource everyNineTwenty gappedDates c₀ = .ok c₁ ∧
      c₁.engine.resumes = 2 := by
  have hparse : parseTimeOfDay nineTwenty = .ok 33600 := by decide +kernel
  refine ⟨by decide +kernel, hparse, ?_⟩
  obtain ⟨⟨c₀, e, e', c₁⟩, hrun, htest⟩ := Run.exists_of_succeeds
    (fun x => x.2.2.1.Holds (gappedDesk gappedDates) = true ∧ x.2.2.1.date = ⟨20250701⟩ ∧
      x.2.2.1.clock = 1751341800000000000 ∧ x.2.2.2.engine.resumes = 2) (gappedRun gappedDates) (by decide +kernel)
  obtain ⟨hstart, _, _, hend⟩ := gappedRun_eq_ok hrun
  obtain ⟨hholds, hdate, hclock, hresumes⟩ := of_decide_eq_true htest
  have hhanded : Handed (gappedDesk gappedDates) undatedConfig gappedSource everyNineTwenty gappedDates
      (e'.ctx (gappedDesk gappedDates)) := gappedRun_handed hrun hholds
  have hnow : (e'.ctx (gappedDesk gappedDates)).now = 1751341800000000000 := hclock
  obtain ⟨hb, hmem, _⟩ := hhanded.bound
  have hasc : gappedDates.Pairwise (· ≤ ·) := by decide +kernel
  have hdays : ∀ a ∈ gappedDates, ∀ b ∈ gappedDates, a < b → a.days < b.days := by decide +kernel
  have hdate : (e'.ctx (gappedDesk gappedDates)).date = ⟨20250701⟩ := hdate
  obtain ⟨cond, hat⟩ : ∃ cond, (e'.ctx (gappedDesk gappedDates)).at_ nineTwenty = .ok cond := by
    obtain ⟨_, heq⟩ | ⟨_, d, _, heq⟩ | ⟨_, _, heq⟩ := Ctx.at_cases rfl hasc hb hparse
    · exact ⟨_, heq⟩
    · exact ⟨_, heq⟩
    · exact ⟨_, heq⟩
  refine ⟨_, cond, c₀, c₁, hhanded, hat, fun hres => ?_, hstart, hend, hresumes⟩
  -- the second date is the next one asked for, and does not load
  have hcall := resolvable_of_resolves rfl hasc hdays hb hmem hparse hat hres
  rw [hnow, hdate] at hcall
  have hnext : NextRequested gappedDates ⟨20250701⟩ ⟨20250702⟩ := ⟨by decide +kernel, by decide +kernel, by decide +kernel⟩
  obtain ⟨⟨session, hload⟩, _⟩ := hcall.next (by decide +kernel) _ hnext
  cases hload

/-- Asked for the two dates with data only, the same call waits for 09:20 on the later one. -/
theorem time_of_day_resolves_next :
    ∃ c cond, Handed (gappedDesk [⟨20250701⟩, ⟨20250703⟩]) undatedConfig gappedSource everyNineTwenty
        [⟨20250701⟩, ⟨20250703⟩] c ∧
      c.date = ⟨20250701⟩ ∧ occurrence 33600 ⟨20250701⟩ ≤ c.now ∧ c.at_ nineTwenty = .ok cond ∧
      ∀ c', cond.eval c' = (atOrAfter (occurrence 33600 ⟨20250703⟩)).eval c' := by
  obtain ⟨⟨c₀, e, e', c₁⟩, hrun, htest⟩ := Run.exists_of_succeeds
    (fun x => x.2.2.1.Holds (gappedDesk [⟨20250701⟩, ⟨20250703⟩]) = true ∧ x.2.2.1.date = ⟨20250701⟩ ∧
      x.2.2.1.clock = 1751341800000000000) (gappedRun [⟨20250701⟩, ⟨20250703⟩]) (by decide +kernel)
  obtain ⟨hholds, hdate, hclock⟩ := of_decide_eq_true htest
  have hhanded := gappedRun_handed hrun hholds
  have hnow : (e'.ctx (gappedDesk [⟨20250701⟩, ⟨20250703⟩])).now = 1751341800000000000 := hclock
  have hdate : (e'.ctx (gappedDesk [⟨20250701⟩, ⟨20250703⟩])).date = ⟨20250701⟩ := hdate
  have hahead : (1751341800000000000 : Timestamp) < occurrence 33600 ⟨20250703⟩ := by decide +kernel
  have hloads : gappedSource.Loads ⟨20250703⟩ := ⟨_, rfl⟩
  obtain ⟨cond, hat, henough, _⟩ := time_of_day_resolves (by decide +kernel) hhanded
    (show parseTimeOfDay nineTwenty = .ok 33600 by decide +kernel)
  refine ⟨_, cond, hhanded, hdate, ?_, hat, ?_⟩
  · rw [hnow]
    decide +kernel
  rw [hnow, hdate] at henough
  have hcall : Resolvable gappedSource [⟨20250701⟩, ⟨20250703⟩] 33600 ⟨20250701⟩ 1751341800000000000 := by
    refine ⟨fun d hd hlt => ?_, fun _ d hd => ?_⟩
    · have hnone : ∀ d ∈ [(⟨20250701⟩ : Date), ⟨20250703⟩], ¬ d < ⟨20250701⟩ := by decide +kernel
      exact absurd hlt (hnone d hd)
    · have honly : ∀ d ∈ [(⟨20250701⟩ : Date), ⟨20250703⟩], ⟨20250701⟩ < d → d = ⟨20250703⟩ := by decide +kernel
      rw [honly d hd.mem hd.after]
      exact ⟨hloads, hahead⟩
  refine (henough hcall).deadline ⟨20250703⟩ ⟨by decide +kernel, hloads, hahead, fun d hd _ hlt => ?_⟩
  have hlater : ∀ d ∈ [(⟨20250701⟩ : Date), ⟨20250703⟩], (1751341800000000000 : Timestamp) < occurrence 33600 d →
      ⟨20250703⟩ ≤ d := by decide +kernel
  exact hlater d hd hlt

end Volforge
