import Volforge.Core.Correctness.Closings
import Volforge.Core.Correctness.Engine

/-!
# `Core.Correctness.Sessions` — what a session leaves behind

A run over many sessions hands its portfolio from one session to the next. `Ended` says what the end of a
session guarantees: no working order, no leg between two states, nothing held that has expired. `Traded` says
what the trades of one session look like: each one is signalled and executed inside it.

## Contents
- **Due expiries.** `mem_dueExpiries`: an expired option that is held is due.
- **End of a session.** `endSession_cases`.
- **A session.** `Day`, the invariant of the steps of one session, and `runDay_cases`.
- **The run.** `Orderly`, the invariant between sessions, and `sessions_end_clean`.
-/

namespace Volforge

variable {F : Type} [Double F]

open Portfolio

/-! ## Due expiries -/

theorem InstrumentRegistry.mem_insertDate {d e : Date} {ds : List Date} :
    e ∈ InstrumentRegistry.insertDate d ds ↔ e = d ∨ e ∈ ds := by
  induction ds with
  | nil => simp [InstrumentRegistry.insertDate]
  | cons x xs ih =>
      unfold InstrumentRegistry.insertDate
      split_ifs with hlt heq
      · simp
      · simp [heq]
      · simp only [List.mem_cons, ih]
        constructor
        · rintro (rfl | rfl | h)
          · exact .inr (.inl rfl)
          · exact .inl rfl
          · exact .inr (.inr h)
        · rintro (rfl | rfl | h)
          · exact .inr (.inl rfl)
          · exact .inl rfl
          · exact .inr (.inr h)

/-- The leg is held, and is an option that has reached its expiry. -/
structure Expired (registry : InstrumentRegistry) (today : Date) (leg : Leg) (spec : InstrumentSpec) :
    Prop where
  live : leg.live = true
  resolves : registry.spec leg.instrument = .ok spec
  option : spec.isOption = true
  valid : spec.expiry.valid = true
  due : spec.expiry ≤ today

omit [Double F] in
theorem addDue_cases {registry : InstrumentRegistry} {today : Date} {due due' : List Date} {leg : Leg}
    (h : addDue registry today due leg = .ok due') :
    (∀ d ∈ due, d ∈ due') ∧ ∀ spec, Expired registry today leg spec → spec.expiry ∈ due' := by
  unfold addDue at h
  by_cases hlive : leg.live = true
  · simp only [hlive, Bool.not_true, Bool.false_eq_true, if_false] at h
    obtain ⟨spec, hspec, h⟩ := Run.bind_eq_ok.mp h
    have hsame : ∀ spec', Expired registry today leg spec' → spec' = spec := by
      intro spec' hexp
      have := hexp.resolves
      rw [hspec, Except.ok.injEq] at this
      exact this.symm
    split_ifs at h with hskip hdue
    · cases h
      refine ⟨fun d hd => hd, fun spec' hexp => ?_⟩
      obtain rfl := hsame spec' hexp
      simp [hexp.option, hexp.valid] at hskip
    · cases h
      refine ⟨fun d hd => InstrumentRegistry.mem_insertDate.mpr (.inr hd), fun spec' hexp => ?_⟩
      obtain rfl := hsame spec' hexp
      exact InstrumentRegistry.mem_insertDate.mpr (.inl rfl)
    · cases h
      refine ⟨fun d hd => hd, fun spec' hexp => ?_⟩
      obtain rfl := hsame spec' hexp
      exact absurd hexp.due hdue
  · simp only [hlive, Bool.not_false, if_true] at h
    cases h
    exact ⟨fun d hd => hd, fun spec hexp => absurd hexp.live hlive⟩

omit [Double F] in
/-- **What is held past its expiry is due.** -/
theorem mem_dueExpiries {p : Portfolio F} {registry : InstrumentRegistry} {today : Date} {due : List Date}
    (h : dueExpiries p registry today = .ok due) {id : PositionId} {i : Nat} {leg : Leg}
    (hleg : p.leg? id i = some leg) {spec : InstrumentSpec} (hexp : Expired registry today leg spec) :
    spec.expiry ∈ due := by
  have hmem : leg ∈ p.positions.flatMap (·.legs) := mem_legs.mpr ⟨id, i, hleg⟩
  have hloop := Run.foldlM_inv_rest
    (I := fun rest due => leg ∈ rest ∨ spec.expiry ∈ due) ?_ (.inl hmem) h
  · simpa using hloop
  · rintro due leg' rest due' hdone hstep
    obtain ⟨hkeep, hadd⟩ := addDue_cases hstep
    obtain hin | hin := hdone
    · obtain rfl | hin := List.mem_cons.mp hin
      · exact .inr (hadd spec hexp)
      · exact .inl hin
    · exact .inr (hkeep _ hin)

namespace Engine

variable {σ : Type}

/-! ## End of a session -/

/-- What the settlements at the end of a session have done so far. -/
structure Settling (e e' : Engine F σ) : Prop where
  session : e'.session = e.session
  date : e'.date = e.date
  clock : e'.clock = e.clock
  closing : Closing e.clock e.portfolio e'.portfolio
  matched : Matched noneExpired e'.portfolio
  held : HeldFrom e.portfolio e'.portfolio

/-- Nothing that expires on `expiry` is held. -/
def NoneHeld (registry : InstrumentRegistry) (expiry : Date) (p : Portfolio F) : Prop :=
  ∀ id i leg, p.leg? id i = some leg → leg.live = true → ∀ spec, registry.spec leg.instrument = .ok spec →
    expiresOn spec expiry = false

omit [Double F] in
theorem NoneHeld.later {registry : InstrumentRegistry} {expiry : Date} {p q : Portfolio F}
    (h : NoneHeld registry expiry p) (hq : HeldFrom p q) : NoneHeld registry expiry q := by
  intro id i leg' hleg' hlive' spec hspec
  obtain ⟨leg, hleg, hlive, hinst⟩ := hq id i leg' hleg' hlive'
  rw [← hinst] at hspec
  exact h id i leg hleg hlive spec hspec

theorem settleDue_cases {desk : Desk F} {handling : ExpiryHandling} {e : Engine F σ} {n : Nat}
    {expiry : Date} {acc : Engine F σ × Nat} (hmat : Matched noneExpired e.portfolio)
    (h : settleDue desk handling (e, n) expiry = .ok acc) :
    Settling e acc.1 ∧ NoneHeld e.session.registry expiry acc.1.portfolio := by
  simp only [settleDue] at h
  obtain ⟨_, h⟩ := Run.guard_eq_ok.mp h
  split at h
  · cases h
  · obtain ⟨⟨p, k⟩, hsettle, h⟩ := Run.bind_eq_ok.mp h
    cases h
    obtain ⟨hclosing, hmat', hmoves, hnone⟩ := settleExpiry_closing hmat hsettle
    have hheld : HeldFrom e.portfolio p :=
      hmoves.heldFrom (fun _ ⟨_, hq⟩ => by cases hq) hmat.mono
    refine ⟨⟨rfl, rfl, rfl, hclosing, hmat', hheld⟩, ?_⟩
    intro id i leg hleg hlive spec hspec
    cases hexp : expiresOn spec expiry with
    | false => rfl
    | true => exact absurd ⟨spec, hspec, hexp⟩ (hnone id i leg hleg hlive)

theorem settleDues_cases {desk : Desk F} {handling : ExpiryHandling} {e : Engine F σ} {due : List Date}
    {acc : Engine F σ × Nat} (hmat : Matched noneExpired e.portfolio)
    (h : due.foldlM (settleDue desk handling) (e, 0) = .ok acc) :
    Settling e acc.1 ∧ ∀ d ∈ due, NoneHeld e.session.registry d acc.1.portfolio := by
  have hloop := Run.foldlM_inv_rest
    (I := fun rest acc => Settling e acc.1 ∧
      ∀ d ∈ due, d ∈ rest ∨ NoneHeld e.session.registry d acc.1.portfolio) ?_ ⟨?_, ?_⟩ h
  · exact ⟨hloop.1, fun d hd => by simpa using hloop.2 d hd⟩
  · rintro ⟨e₁, n⟩ expiry rest acc' ⟨hsofar, hdone⟩ hstep
    obtain ⟨hnext, hnone⟩ := settleDue_cases hsofar.matched hstep
    have hreg : e₁.session.registry = e.session.registry := by rw [hsofar.session]
    rw [hreg] at hnone
    refine ⟨?_, fun d hd => ?_⟩
    · exact {
        session := hnext.session.trans hsofar.session
        date := hnext.date.trans hsofar.date
        clock := hnext.clock.trans hsofar.clock
        closing := hsofar.closing.trans (by
          rw [← hsofar.clock]
          exact hnext.closing)
        matched := hnext.matched
        held := hsofar.held.trans hnext.held }
    · obtain hin | hin := hdone d hd
      · obtain rfl | hin := List.mem_cons.mp hin
        · exact .inr hnone
        · exact .inl hin
      · exact .inr (hin.later hnext.held)
  · exact ⟨rfl, rfl, rfl, .refl _ _, hmat, .refl _⟩
  · exact fun d hd => .inl hd

/-- **The end of a session.** -/
structure Ended (e e' : Engine F σ) : Prop where
  session : e'.session = e.session
  date : e'.date = e.date
  clock : e.clock ≤ e'.clock
  closing : Closing e'.clock e.portfolio e'.portfolio
  matched : Matched noneExpired e'.portfolio
  idle : e'.portfolio.pending = []
  expired : ∀ id i leg spec, e'.portfolio.leg? id i = some leg →
    ¬ Expired e'.session.registry e'.date leg spec

omit [Double F] in
theorem toSettlement_cases [Double F] (config : BacktestConfig F) (e : Engine F σ) :
    (e.toSettlement config).session = e.session ∧ (e.toSettlement config).date = e.date ∧
      (e.toSettlement config).portfolio = e.portfolio ∧ e.clock ≤ (e.toSettlement config).clock := by
  unfold toSettlement
  dsimp only
  split_ifs with hlt
  · exact ⟨rfl, rfl, rfl, hlt.le⟩
  · exact ⟨rfl, rfl, rfl, le_refl _⟩

theorem endSession_cases {desk : Desk F} {config : BacktestConfig F} {e e' : Engine F σ} {n : Nat}
    (hmat : Matched noneExpired e.portfolio) (h : e.endSession desk config = .ok (e', n)) : Ended e e' := by
  obtain ⟨hs₀, hd₀, hp₀, hc₀⟩ := toSettlement_cases config e
  unfold endSession at h
  dsimp only at h
  generalize e.toSettlement config = e₀ at h hs₀ hd₀ hp₀ hc₀
  rw [← hp₀] at hmat
  obtain ⟨due, hdue, h⟩ := Run.bind_eq_ok.mp h
  obtain ⟨⟨e₁, k⟩, hsettle, h⟩ := Run.bind_eq_ok.mp h
  obtain ⟨e₂, hcancel, h⟩ := Run.bind_eq_ok.mp h
  cases h
  obtain ⟨hset, hnone⟩ := settleDues_cases hmat hsettle
  obtain ⟨hp₂, hs₂, hd₂, hc₂⟩ := operate_cases hcancel
  obtain ⟨b, hp₂⟩ := fst_map_eq_ok hp₂
  obtain ⟨hclosing, hmoves, hempty⟩ := cancelWorkingOrders_closing e'.clock hset.matched hp₂
  have hheld : HeldFrom e₁.portfolio e'.portfolio :=
    hmoves.heldFrom (fun _ ⟨_, hq⟩ => by cases hq) hset.matched.mono
  have hclock : e'.clock = e₀.clock := hc₂.trans hset.clock
  exact {
    session := (hs₂.trans hset.session).trans hs₀
    date := (hd₂.trans hset.date).trans hd₀
    clock := by
      rw [hclock]
      exact hc₀
    closing := by
      rw [← hp₀]
      refine Closing.trans ?_ hclosing
      rw [hclock]
      exact hset.closing
    matched := hset.matched.moves hmoves
    idle := hempty
    expired := by
      intro id i leg spec hleg hexp
      -- what is held now was held when the due expiries were listed
      obtain ⟨leg₁, hleg₁, hlive₁, hinst₁⟩ := hheld id i leg hleg hexp.live
      obtain ⟨leg₀, hleg₀, hlive₀, hinst₀⟩ := hset.held id i leg₁ hleg₁ hlive₁
      have hreg : e'.session.registry = e₀.session.registry := by rw [hs₂, hset.session]
      have hday : e'.date = e₀.date := hd₂.trans hset.date
      have hspec := hexp.resolves
      rw [hreg, ← hinst₁] at hspec
      have hexp₀ : Expired e₀.session.registry e₀.date leg₀ spec := by
        refine ⟨hlive₀, ?_, hexp.option, hexp.valid, ?_⟩
        · rw [hinst₀]
          exact hspec
        · rw [← hday]
          exact hexp.due
      have hnot := hnone spec.expiry (mem_dueExpiries hdue hleg₀ hexp₀) id i leg₁ hleg₁ hlive₁ spec hspec
      simp [expiresOn, hexp.option] at hnot }

/-! ## A session -/

end Engine

/-- A trade of the time between `lo` and `hi`: an execution is signalled inside it, and later filled. -/
structure Traded (lo hi : Timestamp) (delay : Int) (t : TradeRecord) : Prop where
  after : lo ≤ t.fillTs
  before : t.fillTs ≤ hi
  signalled : t.settled = false → lo ≤ t.signalTs ∧ t.signalTs < t.fillTs ∧ t.signalTs + delay ≤ t.fillTs

theorem Traded.mono {lo lo' hi hi' : Timestamp} {delay : Int} {t : TradeRecord} (h : Traded lo hi delay t)
    (hlo : lo' ≤ lo) (hhi : hi ≤ hi') : Traded lo' hi' delay t where
  after := le_trans hlo h.after
  before := le_trans h.before hhi
  signalled ht := ⟨le_trans hlo (h.signalled ht).1, (h.signalled ht).2⟩

/-- Trades in the order of their fills. -/
def InOrder (trades : List TradeRecord) : Prop := trades.Pairwise (fun a b => a.fillTs ≤ b.fillTs)

/-- Later trades are appended in order. -/
theorem InOrder.append {xs ys : List TradeRecord} (hx : InOrder xs) (hy : InOrder ys) (mid : Timestamp)
    (hxs : ∀ t ∈ xs, t.fillTs ≤ mid) (hys : ∀ t ∈ ys, mid ≤ t.fillTs) : InOrder (xs ++ ys) :=
  List.pairwise_append.mpr ⟨hx, hy, fun a ha b hb => le_trans (hxs a ha) (hys b hb)⟩

/-- Trades booked at one instant are in order. -/
theorem inOrder_of_eq {xs : List TradeRecord} {now : Timestamp} (h : ∀ t ∈ xs, t.fillTs = now) : InOrder xs := by
  refine List.pairwise_of_forall_mem_list (fun a ha b hb => ?_)
  rw [h a ha, h b hb]

namespace Engine

/-- The trades since `e₀`, all made between its clock and the clock of `e`. -/
def TradesSince (e₀ e : Engine F σ) : Prop :=
  ∃ new, e.portfolio.trades = e₀.portfolio.trades ++ new ∧ InOrder new ∧
    ∀ t ∈ new, Traded e₀.clock e.clock e₀.portfolio.delay t

/-- **The invariant of a session's steps.** `rest` are the timestamps still to come. -/
structure Day (e₀ : Engine F σ) (rest : List Timestamp) (e : Engine F σ) : Prop where
  session : e.session = e₀.session
  date : e.date = e₀.date
  forward : e₀.clock ≤ e.clock
  reach : Run.Reach apply e₀.portfolio e.portfolio
  terms : SameTerms e₀.portfolio e.portfolio
  delayed : Delayed e.portfolio
  submitted : SubmittedIn e₀.clock e.clock e.portfolio
  trades : TradesSince e₀ e
  /-- An order in the queue was submitted before the next timestamp. -/
  waiting : e.portfolio.pending = [] ∨ ∀ t ∈ rest, e.clock < t
  ascending : rest.Pairwise (· < ·)

theorem Day.step {e₀ e e' : Engine F σ} {t : Timestamp} {rest : List Timestamp} (h : Day e₀ (t :: rest) e)
    (hstep : Stepped e t e') : Day e₀ rest e' := by
  obtain ⟨p, hpending, hquiet⟩ := hstep.portfolio
  obtain ⟨p', hfilled, hstill⟩ := hstep.filled
  obtain ⟨hnext, hrest⟩ := List.pairwise_cons.mp h.ascending
  have hlo : e₀.clock ≤ t := le_trans h.forward hstep.forward
  have hsubmitted : SubmittedIn e₀.clock t e.portfolio :=
    fun o ho => ⟨(h.submitted o ho).1, le_trans (h.submitted o ho).2 hstep.forward⟩
  refine {
    session := hstep.session.trans h.session
    date := hstep.date.trans h.date
    forward := by
      rw [hstep.clock]
      exact hlo
    reach := h.reach.trans hstep.reach
    terms := h.terms.trans hstep.sameTerms
    delayed := hstill.moves.delayed (hfilled.delayed h.delayed)
    submitted := by
      rw [hstep.clock]
      exact hstill.moves.submittedIn hlo (le_refl t) (hfilled.submittedIn hlo (le_refl t) hsubmitted)
    trades := ?_
    waiting := by
      rw [hstep.clock]
      exact .inr hnext
    ascending := hrest }
  obtain ⟨old, hold, horder, hall⟩ := h.trades
  obtain ⟨new, hnew, hfills⟩ := processPending_trades hpending
  have hnow : ∀ x ∈ new, x.fillTs = t := fun x hx => (hfills x hx).2.1
  -- the fills of this timestamp come after those of the day so far
  refine ⟨old ++ new, ?_, ?_, ?_⟩
  · rw [hquiet.trades_eq, hnew, hold, List.append_assoc]
  · refine horder.append (inOrder_of_eq hnow) t (fun x hx => ?_) (fun x hx => (hnow x hx).ge)
    exact le_trans (hall x hx).before hstep.forward
  · intro x hx
    rw [hstep.clock]
    obtain hx | hx := List.mem_append.mp hx
    · exact (hall x hx).mono (le_refl _) hstep.forward
    · obtain ⟨_, hfill, o, ho, hsignal, hdue⟩ := hfills x hx
      have hdue : o.eligibleAt ≤ t := hdue
      have hfill : x.fillTs = t := hfill
      have hclock : e.clock < t := by
        obtain hempty | hlater := h.waiting
        · simp [hempty] at ho
        · exact hlater t (List.mem_cons_self ..)
      refine ⟨hfill ▸ hlo, hfill.le, fun _ => ⟨?_, ?_, ?_⟩⟩
      · rw [hsignal]
        exact (h.submitted o ho).1
      · rw [hsignal, hfill]
        exact lt_of_le_of_lt (h.submitted o ho).2 hclock
      · rw [hsignal, hfill, ← h.terms.delay, ← h.delayed o ho]
        exact hdue

/-- **One session**, from the engine bound to it to the engine it leaves behind. -/
structure DayDone (e₀ e' : Engine F σ) : Prop where
  date : e'.date = e₀.date
  forward : e₀.clock ≤ e'.clock
  reach : Run.Reach apply e₀.portfolio e'.portfolio
  terms : SameTerms e₀.portfolio e'.portfolio
  matched : Matched noneExpired e'.portfolio
  idle : e'.portfolio.pending = []
  expired : ∀ id i leg spec, e'.portfolio.leg? id i = some leg →
    ¬ Expired e'.session.registry e'.date leg spec
  trades : TradesSince e₀ e'

theorem runDay_cases {desk : Desk F} {config : BacktestConfig F} {resume : σ → Script F σ}
    {e e' : Engine F σ} {session : SessionData} {date : Date} {n : Nat}
    (hmat : Matched noneExpired e.portfolio) (hdelayed : Delayed e.portfolio)
    (hsubmitted : SubmittedIn e.clock e.clock e.portfolio)
    (hwaiting : e.portfolio.pending = [] ∨ ∀ t ∈ session.steps, e.clock < t)
    (hasc : session.steps.Pairwise (· < ·))
    (h : e.runDay desk config resume session date = .ok (e', n)) :
    DayDone (e.bindSession session date) e' := by
  obtain ⟨e₁, hsteps, hend⟩ := Run.bind_eq_ok.mp h
  have hday := Run.foldlM_inv_rest (I := Day (e.bindSession session date))
    (fun e t rest e' hd hs => hd.step (step_cases hs)) ?_ hsteps
  · -- the end of the session, from where the loop over the timestamps stops
    have hmat₁ : Matched noneExpired e₁.portfolio :=
      hday.reach.inv (Matched noneExpired) hmat (fun _ _ _ hp hs => (apply_moves hp hs).2)
    have hended := endSession_cases hmat₁ hend
    obtain ⟨old, hold, horder, hall⟩ := hday.trades
    obtain ⟨new, hnew, hset⟩ := hended.closing.trades
    have hnow : ∀ x ∈ new, x.fillTs = e'.clock := fun x hx => (hset x hx).2
    have hforward : (e.bindSession session date).clock ≤ e'.clock := le_trans hday.forward hended.clock
    refine {
      date := hended.date.trans hday.date
      forward := hforward
      reach := hday.reach.trans hended.closing.reach
      terms := hday.terms.trans hended.closing.terms
      matched := hended.matched
      idle := hended.idle
      expired := hended.expired
      trades := ⟨old ++ new, ?_, ?_, ?_⟩ }
    · rw [hnew, hold, List.append_assoc]
    · refine horder.append (inOrder_of_eq hnow) e'.clock (fun x hx => ?_) (fun x hx => (hnow x hx).ge)
      exact le_trans (hall x hx).before hended.clock
    · intro x hx
      obtain hx | hx := List.mem_append.mp hx
      · exact (hall x hx).mono (le_refl _) hended.clock
      · obtain ⟨hsettled, hfill⟩ := hset x hx
        exact ⟨hfill ▸ hforward, hfill.le, fun hno => by simp [hsettled] at hno⟩
  · exact {
      session := rfl
      date := rfl
      forward := le_refl _
      reach := .init
      terms := .refl _
      delayed := hdelayed
      submitted := hsubmitted
      trades := ⟨[], by simp, .nil, by simp⟩
      waiting := hwaiting
      ascending := hasc }

end Engine

/-! ## The run -/

/-- **The invariant between two sessions.** -/
structure Orderly (fills : FillModel F) (delay : Int) (costs : CostPolicy) {σ : Type} (c : Campaign F σ) :
    Prop where
  reach : Reachable fills delay costs c.engine.portfolio
  delay_eq : c.engine.portfolio.delay = delay
  delayed : Delayed c.engine.portfolio
  submitted : SubmittedIn c.engine.clock c.engine.clock c.engine.portfolio
  waiting : c.engine.portfolio.pending = [] ∨ c.engine.clock = 0
  closed : ∀ d, c.sessions.getLast? = some d → c.engine.portfolio.pending = [] ∧
    ∀ id i leg spec, c.engine.portfolio.leg? id i = some leg →
      ¬ Expired c.engine.session.registry d leg spec
  order : InOrder c.engine.portfolio.trades
  trades : ∀ t ∈ c.engine.portfolio.trades, Traded 0 c.engine.clock delay t
  forward : 0 ≤ c.engine.clock
  seen : c.tradesSeen = c.engine.portfolio.trades.length
  counted : (c.daily.map (·.trades)).sum = c.engine.portfolio.trades.length

/-- The timestamps of a session are positive and strictly increasing. -/
def SessionData.Ascends (s : SessionData) : Prop := s.steps.Pairwise (· < ·) ∧ ∀ t ∈ s.steps, 0 < t

namespace Campaign

variable {σ : Type}

/-- What happened between two states of a run. -/
structure Later (delay : Int) (c c' : Campaign F σ) : Prop where
  clock : c.engine.clock ≤ c'.engine.clock
  trades : ∃ new, c'.engine.portfolio.trades = c.engine.portfolio.trades ++ new ∧
    ∀ t ∈ new, Traded c.engine.clock c'.engine.clock delay t

omit [Double F] in
theorem Later.refl (delay : Int) (c : Campaign F σ) : Later delay c c := ⟨le_refl _, [], by simp⟩

omit [Double F] in
theorem Later.trans {delay : Int} {c c' c'' : Campaign F σ} (h : Later delay c c') (h' : Later delay c' c'') :
    Later delay c c'' := by
  obtain ⟨xs, hxs, hall⟩ := h.trades
  obtain ⟨ys, hys, hall'⟩ := h'.trades
  refine ⟨le_trans h.clock h'.clock, xs ++ ys, by rw [hys, hxs, List.append_assoc], ?_⟩
  intro t ht
  obtain ht | ht := List.mem_append.mp ht
  · exact (hall t ht).mono (le_refl _) h'.clock
  · exact (hall' t ht).mono h.clock (le_refl _)

theorem nextDate_cases {desk : Desk F} {config : BacktestConfig F} {source : DataSource}
    {resume : σ → Script F σ} {fills : FillModel F} {delay : Int} {costs : CostPolicy}
    {c c' : Campaign F σ} {date : Date} (hc : Orderly fills delay costs c)
    (hsource : ∀ s, source.load date = .ok (some s) → s.Ascends)
    (h : c.nextDate desk config source resume date = .ok c') :
    Orderly fills delay costs c' ∧ Later delay c c' := by
  obtain ⟨loaded, hload, h⟩ := Run.bind_eq_ok.mp h
  cases loaded with
  | none =>
      cases h
      exact ⟨hc, .refl _ _⟩
  | some session =>
      obtain ⟨⟨e', n⟩, hday, h⟩ := Run.bind_eq_ok.mp h
      cases h
      obtain ⟨hasc, hpos⟩ := hsource session hload
      -- before the first session the clock stands at zero
      have hwaiting : c.engine.portfolio.pending = [] ∨ ∀ t ∈ session.steps, c.engine.clock < t := by
        obtain hempty | hzero := hc.waiting
        · exact .inl hempty
        · exact .inr (fun t ht => hzero ▸ hpos t ht)
      have hdone := Engine.runDay_cases hc.reach.matched hc.delayed hc.submitted hwaiting hasc hday
      obtain ⟨new, hnew, horder, hall⟩ := hdone.trades
      have hnew : e'.portfolio.trades = c.engine.portfolio.trades ++ new := hnew
      have hforward : c.engine.clock ≤ e'.clock := hdone.forward
      have hall : ∀ t ∈ new, Traded c.engine.clock e'.clock delay t := by
        rw [← hc.delay_eq]
        exact hall
      -- nothing is queued overnight
      have hempty : ∀ o ∈ e'.portfolio.pending, False := by
        rw [hdone.idle]
        simp
      refine ⟨?_, hforward, new, hnew, hall⟩
      exact {
        reach := hc.reach.trans hdone.reach
        delay_eq := hdone.terms.delay.trans hc.delay_eq
        delayed := fun o ho => (hempty o ho).elim
        submitted := fun o ho => (hempty o ho).elim
        waiting := .inl hdone.idle
        closed := by
          intro d hd
          have hd : date = d := by simpa using hd
          subst hd
          refine ⟨hdone.idle, fun id i leg spec hleg hexp => ?_⟩
          have hdate : e'.date = date := hdone.date
          refine hdone.expired id i leg spec hleg ?_
          rw [hdate]
          exact hexp
        order := by
          change InOrder e'.portfolio.trades
          rw [hnew]
          exact hc.order.append horder _ (fun t ht => (hc.trades t ht).before) (fun t ht => (hall t ht).after)
        trades := by
          intro t ht
          change t ∈ e'.portfolio.trades at ht
          rw [hnew] at ht
          obtain ht | ht := List.mem_append.mp ht
          · exact (hc.trades t ht).mono (le_refl _) hforward
          · exact (hall t ht).mono hc.forward (le_refl _)
        forward := le_trans hc.forward hforward
        seen := rfl
        counted := by
          simp only [List.map_append, List.map_cons, List.map_nil, List.sum_append, List.sum_cons,
            List.sum_nil, hc.counted, summary, hc.seen, hnew, List.length_append]
          omega }

theorem replayDates_cases {desk : Desk F} {config : BacktestConfig F} {source : DataSource}
    {strategy : Strategy F} {fills : FillModel F} {delay : Int} {costs : CostPolicy} {dates : List Date}
    {c c' : Campaign F strategy.State} (hc : Orderly fills delay costs c)
    (hsource : ∀ d ∈ dates, ∀ s, source.load d = .ok (some s) → s.Ascends)
    (h : replayDates desk config source strategy dates c = .ok c') :
    Orderly fills delay costs c' ∧ Later delay c c' := by
  refine Run.foldlM_inv_mem (fun c' => Orderly fills delay costs c' ∧ Later delay c c') dates ?_
    ⟨hc, .refl _ _⟩ h
  rintro c₁ d hd c₂ ⟨horderly, hlater⟩ hstep
  obtain ⟨horderly', hlater'⟩ := nextDate_cases horderly (hsource d hd) hstep
  exact ⟨horderly', hlater.trans hlater'⟩

theorem startCampaign_orderly {desk : Desk F} {source : DataSource} {strategy : Strategy F} {front : Date}
    {c : Campaign F strategy.State} (h : startCampaign desk source strategy front = .ok c) :
    ∃ fills costs, Orderly fills desk.config.executionDelayNanos costs c := by
  obtain ⟨loaded, _, h⟩ := Run.bind_eq_ok.mp h
  cases loaded with
  | none => cases h
  | some session =>
      obtain ⟨e, hstart, h⟩ := Run.bind_eq_ok.mp h
      cases h
      obtain ⟨p₀, hp₀, _, _, hclock, hquiet⟩ := Engine.start_cases hstart
      obtain ⟨_, rfl⟩ := new_eq_ok.mp hp₀
      have htrades : e.portfolio.trades = [] := hquiet.trades_eq
      have hnone : ∀ o ∈ (Portfolio.empty (F := F) (desk.config.fills.getD crossSpreadFill)
          desk.config.executionDelayNanos (desk.config.costs.getD (defaultCostPolicy F))).pending, False := by
        simp [Portfolio.empty]
      refine ⟨_, _, {
        reach := hquiet.reach
        delay_eq := hquiet.moves.sameTerms.delay
        delayed := hquiet.moves.delayed (fun o ho => (hnone o ho).elim)
        submitted := ?_
        waiting := .inr hclock
        closed := by
          intro d hd
          cases hd
        order := by
          change InOrder e.portfolio.trades
          rw [htrades]
          exact .nil
        trades := by
          intro t ht
          change t ∈ e.portfolio.trades at ht
          simp [htrades] at ht
        forward := hclock.ge
        seen := by simp [htrades]
        counted := by simp [htrades] }⟩
      change SubmittedIn e.clock e.clock e.portfolio
      rw [hclock]
      exact hquiet.moves.submittedIn (le_refl 0) (le_refl 0) (fun o ho => (hnone o ho).elim)

end Campaign

/-- **Session boundaries of a run.** `c₁` is the run after the dates `ds₁` and `c₂` the run after `ds₂` more.
    After a session nothing is queued or between two states, and no option with a valid expiry that has been
    reached is held. Each leg is closed at most once. An execution comes after its signal and the execution
    delay, and no session ends between the two. Fills are logged in order, and the sessions' trade counts add
    up to the run's. -/
theorem sessions_end_clean {source : DataSource} {underlying : UnderlyingId} {spot : InstrumentId}
    {strategy : Strategy F} {config : BacktestConfig F} {dates : List Date} {front : Date}
    (hsource : ∀ d ∈ dates, ∀ s, source.load d = .ok (some s) → s.Ascends)
    {c₀ c₁ c₂ : Campaign F strategy.State} {ds₁ ds₂ : List Date} (hds : ds₁ ++ ds₂ <+: dates)
    (hstart : startCampaign (backtestDesk underlying spot config dates) source strategy front = .ok c₀)
    (h₁ : replayDates (backtestDesk underlying spot config dates) config source strategy ds₁ c₀ = .ok c₁)
    (h₂ : replayDates (backtestDesk underlying spot config dates) config source strategy ds₂ c₁ = .ok c₂) :
    (∀ d, c₁.sessions.getLast? = some d → c₁.engine.portfolio.pending = [] ∧
      ∀ id i leg, c₁.engine.portfolio.leg? id i = some leg →
        leg.state ≠ .PendingOpen ∧ leg.state ≠ .PendingClose ∧
        ∀ spec, ¬ Expired c₁.engine.session.registry d leg spec) ∧
    (∀ id i, c₂.engine.portfolio.closings id i ≤ 1) ∧
    (∀ t ∈ c₂.engine.portfolio.trades, t.settled = false →
      t.signalTs < t.fillTs ∧ t.signalTs + config.executionDelayNanos ≤ t.fillTs) ∧
    (∃ new, c₂.engine.portfolio.trades = c₁.engine.portfolio.trades ++ new ∧
      (∀ t ∈ c₁.engine.portfolio.trades, t.fillTs ≤ c₁.engine.clock) ∧
      ∀ t ∈ new, t.settled = false → c₁.engine.clock ≤ t.signalTs) ∧
    InOrder c₂.engine.portfolio.trades ∧
    (c₂.result.daily.map (·.trades)).sum = c₂.result.trades := by
  obtain ⟨fills, costs, horderly₀⟩ := Campaign.startCampaign_orderly hstart
  have hmem₁ : ∀ d ∈ ds₁, d ∈ dates := fun d hd => hds.subset (List.mem_append_left _ hd)
  have hmem₂ : ∀ d ∈ ds₂, d ∈ dates := fun d hd => hds.subset (List.mem_append_right _ hd)
  obtain ⟨horderly₁, _⟩ :=
    Campaign.replayDates_cases horderly₀ (fun d hd => hsource d (hmem₁ d hd)) h₁
  obtain ⟨horderly₂, hlater⟩ :=
    Campaign.replayDates_cases horderly₁ (fun d hd => hsource d (hmem₂ d hd)) h₂
  obtain ⟨new, hnew, hall⟩ := hlater.trades
  refine ⟨fun d hd => ?_, fun id i => ?_, fun t ht hset => ?_, ?_, horderly₂.order, horderly₂.counted⟩
  · obtain ⟨hempty, hexpired⟩ := horderly₁.closed d hd
    refine ⟨hempty, fun id i leg hleg => ?_⟩
    have hslot := horderly₁.reach.matched id i
    have hnone : c₁.engine.portfolio.ordersFor id i = [] := by simp [ordersFor, hempty]
    rw [hleg, hnone] at hslot
    simp only [SlotMatched, LegMatched] at hslot
    refine ⟨fun hst => ?_, fun hst => ?_, fun spec => hexpired id i leg spec hleg⟩
    · simp [hst] at hslot
    · simp [hst] at hslot
  · rw [horderly₂.reach.closedOnce id i]
    exact closedCount_le_one _
  · exact ((horderly₂.trades t ht).signalled hset).2
  · exact ⟨new, hnew, fun t ht => (horderly₁.trades t ht).before,
      fun t ht hset => ((hall t ht).signalled hset).1⟩

/-! ### An option without an expiry date -/

/-- One option whose expiry is not a valid date, in a session of one row. -/
def undatedSession : SessionData where
  date := ⟨20250701⟩
  registry := ((({} : InstrumentRegistry).internUnderlying [78]).1.add
    { underlying := 0, kind := .Option, strike := 10000 }).1
  instruments := [0]
  quotes id := if id = 0 then { ts := [1], last := [100], bid := [100], ask := [101], bidQty := [1],
                                askQty := [1], lastQty := [1], openInterest := [0] } else {}
  totalObservations := 1
  eventOrder := []
  timeline := [1]
  printedBy id t := id = 0 && 1 ≤ t

def undatedSource : DataSource where
  sessions := [⟨20250701⟩]
  load _ := .ok (some undatedSession)

/-- Buys one lot of the first instrument. -/
def buyFirst : Strategy ℚ where
  State := Unit
  start := .order (.buy [0] 1 "held") fun _ => .finish
  resume _ := .finish

def undatedConfig : BacktestConfig ℚ where
  costs := some noCosts

def undatedDesk : Desk ℚ := backtestDesk 0 (-1) undatedConfig [⟨20250701⟩]

/-- The whole run, both states. -/
def undatedRun : Except Error (Campaign ℚ Unit × Campaign ℚ Unit) := do
  let c₀ ← startCampaign undatedDesk undatedSource buyFirst ⟨20250701⟩
  let c₁ ← replayDates undatedDesk undatedConfig undatedSource buyFirst [⟨20250701⟩] c₀
  return (c₀, c₁)

theorem undatedSource_ascends :
    ∀ d ∈ [(⟨20250701⟩ : Date)], ∀ s, undatedSource.load d = .ok (some s) → s.Ascends := by
  rintro d - s hs
  cases hs
  exact ⟨by decide, by decide⟩

/-- The option is still held after a session later than its expiry. -/
theorem undated_option_outlives_its_expiry :
    undatedSession.Ascends ∧ undatedConfig.expiry = .Settle ∧
    ∃ c₀ c₁, undatedRun = .ok (c₀, c₁) ∧ c₁.sessions.getLast? = some ⟨20250701⟩ ∧
      ∃ leg spec, c₁.engine.portfolio.leg? 0 0 = some leg ∧ leg.live = true ∧
        undatedSession.registry.spec leg.instrument = .ok spec ∧ spec.isOption = true ∧
        spec.expiry ≤ ⟨20250701⟩ := by
  obtain ⟨⟨c₀, c₁⟩, hrun, htest⟩ := Run.exists_of_succeeds
    (fun c => c.2.sessions = [⟨20250701⟩] ∧
      (c.2.engine.portfolio.leg? 0 0).any (fun leg => leg.live && leg.instrument == 0) = true) undatedRun (by decide +kernel)
  obtain ⟨hsessions, hleg⟩ := of_decide_eq_true htest
  obtain ⟨leg, hleg, hheld⟩ := (Option.any_eq_true _ _).mp hleg
  simp only [Bool.and_eq_true, beq_iff_eq] at hheld
  refine ⟨⟨by decide, by decide⟩, rfl, c₀, c₁, hrun, by rw [hsessions]; rfl, leg,
    { id := 0, underlying := 0, kind := .Option, strike := 10000 }, hleg, hheld.1, ?_⟩
  rw [hheld.2]
  exact ⟨rfl, rfl, by decide⟩

/-! ### Two sessions -/

/-- The quotes of an instrument that prints at the given times, always at one price. -/
def steadyQuotes (times : List Int64) (price : Int32) : QuoteColumns where
  ts := times
  last := times.map (fun _ => price)
  bid := times.map (fun _ => price)
  ask := times.map (fun _ => price)
  bidQty := times.map (fun _ => 1)
  askQty := times.map (fun _ => 1)
  lastQty := times.map (fun _ => 1)
  openInterest := times.map (fun _ => 0)

/-- A spot, a call that expires on the first day, and a call and a put that expire a year later; all struck at
    100.00. -/
def twoDayRegistry : InstrumentRegistry :=
  (((((({} : InstrumentRegistry).internUnderlying [78]).1.add { underlying := 0 }).1.add
    { underlying := 0, kind := .Option, expiry := ⟨20250701⟩, strike := 10000 }).1.add
      { underlying := 0, kind := .Option, expiry := ⟨20260702⟩, strike := 10000 }).1.add
        { underlying := 0, kind := .Option, expiry := ⟨20260702⟩, strike := 10000, right := .Put }).1

/-- The spot stands at 110.00, the first call at 11.00 and the pair at 100.00 each. -/
def twoDayQuotes (times : List Int64) (id : InstrumentId) : QuoteColumns :=
  if id = 0 then steadyQuotes times 11000
  else if id = 1 then steadyQuotes times 1100
  else if id = 2 ∨ id = 3 then steadyQuotes times 10000
  else {}

def twoDaySession (date : Date) (times : List Int64) : SessionData where
  date := date
  registry := twoDayRegistry
  instruments := [0, 1, 2, 3]
  quotes := twoDayQuotes times
  totalObservations := 4 * times.length
  eventOrder := []
  timeline := times.map (·.toInt)
  printedBy := SessionData.lookPrintedBy (twoDayQuotes times)

/-- Two sessions of two prints each, a minute apart. -/
def twoDaySource : DataSource where
  sessions := [⟨20250701⟩, ⟨20250702⟩]
  load d := .ok (if d = ⟨20250701⟩ then
      some (twoDaySession ⟨20250701⟩ [1751341500000000000, 1751341560000000000])
    else if d = ⟨20250702⟩ then
      some (twoDaySession ⟨20250702⟩ [1751427900000000000, 1751427960000000000])
    else none)

/-- Buys the expiring call, holds it over its expiry, and sells the pair on the second day. -/
def callThenStraddle : Strategy F where
  State := Unit
  start := .order (.buy [1] 1 "call") fun _ => .await (atOrAfter 1751427900000000000) ()
  resume _ := .order (.sell [2, 3] 1 "straddle") fun _ => .finish

def twoDayDesk : Desk ℚ := backtestDesk 0 0 undatedConfig twoDaySource.sessions

/-- The run, its state after the first session and its state after the second one. -/
def twoDayRun : Except Error (Campaign ℚ Unit × Campaign ℚ Unit × Campaign ℚ Unit) := do
  let c₀ ← startCampaign twoDayDesk twoDaySource callThenStraddle ⟨20250701⟩
  let c₁ ← replayDates twoDayDesk undatedConfig twoDaySource callThenStraddle [⟨20250701⟩] c₀
  let c₂ ← replayDates twoDayDesk undatedConfig twoDaySource callThenStraddle [⟨20250702⟩] c₁
  return (c₀, c₁, c₂)

theorem twoDayRun_eq_ok {c₀ c₁ c₂ : Campaign ℚ Unit} (h : twoDayRun = .ok (c₀, c₁, c₂)) :
    startCampaign twoDayDesk twoDaySource callThenStraddle ⟨20250701⟩ = .ok c₀ ∧
      replayDates twoDayDesk undatedConfig twoDaySource callThenStraddle [⟨20250701⟩] c₀ = .ok c₁ ∧
      replayDates twoDayDesk undatedConfig twoDaySource callThenStraddle [⟨20250702⟩] c₁ = .ok c₂ := by
  obtain ⟨a, ha, h⟩ := Run.bind_eq_ok.mp h
  obtain ⟨b, hb, h⟩ := Run.bind_eq_ok.mp h
  obtain ⟨c, hc, h⟩ := Run.bind_eq_ok.mp h
  cases h
  exact ⟨ha, hb, hc⟩

theorem twoDaySource_ascends {d : Date} {s : SessionData} (hs : twoDaySource.load d = .ok (some s)) : s.Ascends := by
  simp only [twoDaySource, Except.ok.injEq] at hs
  split at hs
  case isTrue =>
    cases hs
    exact ⟨by decide, by decide⟩
  case isFalse =>
    split at hs
    case isTrue =>
      cases hs
      exact ⟨by decide, by decide⟩
    case isFalse => cases hs

/-- The call settles on the first night, which ends flat; the pair is sold after it. -/
theorem sessions_end_clean_two_days :
    ∃ c₀ c₁ c₂, twoDayRun = .ok (c₀, c₁, c₂) ∧
      (c₁.engine.portfolio.pending = [] ∧ c₁.engine.portfolio.openPositions = 0 ∧
        c₁.engine.portfolio.settledLegs = 1) ∧
      (∀ id i, c₂.engine.portfolio.closings id i ≤ 1) ∧
      (∃ new, c₂.engine.portfolio.trades = c₁.engine.portfolio.trades ++ new ∧ new.length = 2 ∧
        ∀ t ∈ new, t.settled = false → c₁.engine.clock ≤ t.signalTs) ∧
      (c₂.result.daily.map (·.trades)).sum = c₂.result.trades := by
  obtain ⟨⟨c₀, c₁, c₂⟩, hrun, htest⟩ := Run.exists_of_succeeds
    (fun c => c.2.1.sessions = [⟨20250701⟩] ∧ c.2.1.engine.portfolio.openPositions = 0 ∧
      c.2.1.engine.portfolio.settledLegs = 1 ∧ c.2.1.engine.portfolio.trades.length = 2 ∧
      c.2.2.engine.portfolio.trades.length = 4) twoDayRun (by decide +kernel)
  obtain ⟨hstart, hfirst, hsecond⟩ := twoDayRun_eq_ok hrun
  obtain ⟨hsessions, hopen, hsettled, hbefore, hafter⟩ := of_decide_eq_true htest
  have hds : [⟨20250701⟩] ++ [⟨20250702⟩] <+: twoDaySource.sessions := List.prefix_refl _
  obtain ⟨hnight, hclosings, _, ⟨new, hnew, _, hsignalled⟩, _, hcount⟩ :=
    sessions_end_clean (fun d _ s hs => twoDaySource_ascends hs) hds hstart hfirst hsecond
  refine ⟨c₀, c₁, c₂, hrun, ⟨(hnight ⟨20250701⟩ (by rw [hsessions]; rfl)).1, hopen, hsettled⟩, hclosings,
    ⟨new, hnew, ?_, hsignalled⟩, hcount⟩
  have hlength := congrArg List.length hnew
  rw [List.length_append, hbefore, hafter] at hlength
  omega

end Volforge
