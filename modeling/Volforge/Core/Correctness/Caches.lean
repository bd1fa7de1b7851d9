import Volforge.Core.Caches
import Volforge.Lib.Memo
import Volforge.Lib.Run

/-!
# `Core.Correctness.Caches` — the caches of the context only repeat answers

Both caches are memo tables. The forwards are keyed by the instant too, so an entry stays right while the clock
moves; no portfolio has a say in them; and binding a session, which would make entries wrong, empties both.

## Contents
- **Trees.** `run` of a bind and of a loop, and what the source's own questions come to.
- **Caches.** `Valid`: what is kept would be answered now; what keeps it.
- **Main result.** `caches_show_nothing`.
-/

namespace Volforge

variable {F : Type} [Double F] {σ : Type}

open Double

/-! ## Trees -/

namespace Asks

variable {α β γ : Type} (desk : Desk F) (e : Engine F σ)

@[simp] theorem run_answer (a : α) : (answer a : Asks F α).run desk e = a := rfl

@[simp] theorem run_look (next : Ctx F → Asks F α) : (look next).run desk e = (next (e.ctx desk)).run desk e := rfl

@[simp] theorem run_forward (expiry : Date) (next : Option F → Asks F α) :
    (forward expiry next).run desk e = (next ((e.ctx desk).forward expiry)).run desk e := rfl

@[simp] theorem run_bind (q : Asks F α) (f : α → Asks F β) : (q.bind f).run desk e = (f (q.run desk e)).run desk e := by
  induction q with
  | answer a => rfl
  | look next ih => exact ih _
  | forward expiry next ih => exact ih _
  | bars id intervalSeconds source next ih => exact ih _

/-- **A loop** of questions is the loop over their answers. -/
theorem run_each (turn : β → γ → Asks F (Except Error β)) (xs : List γ) (b : β) :
    (each turn xs b).run desk e = xs.foldlM (fun b x => (turn b x).run desk e) b := by
  induction xs generalizing b with
  | nil => rfl
  | cons x xs ih =>
      rw [each, run_bind, List.foldlM_cons]
      cases (turn b x).run desk e with
      | error err => rfl
      | ok b' => exact ih b'

theorem run_greeks (id : InstrumentId) : (greeks id).run desk e = (e.ctx desk).greeks id := by
  unfold greeks Ctx.greeks
  rw [run_look]
  cases (e.ctx desk).registry.spec id with
  | error err => rfl
  | ok spec =>
      dsimp only
      rw [Run.ok_bind]
      by_cases hoption : (!spec.isOption) = true
      · rw [if_pos hoption, if_pos hoption]
        rfl
      rw [if_neg hoption, if_neg hoption]
      cases (e.ctx desk).market.current id with
      | none => rfl
      | some q =>
          dsimp only
          by_cases hsided : (!q.twoSided) = true
          · rw [if_pos hsided, if_pos hsided]
            rfl
          rw [if_neg hsided, if_neg hsided, run_forward]
          cases (e.ctx desk).forward spec.expiry with
          | none => rfl
          | some fwd =>
              dsimp only
              split_ifs <;> rfl

theorem run_marginLeg (acc : List (Date × MarginLeg F)) (leg : Leg) :
    (marginLeg acc leg).run desk e = (e.ctx desk).addMarginLeg acc leg := by
  unfold marginLeg Ctx.addMarginLeg
  split_ifs
  · rfl
  · rw [run_look]
    cases (e.ctx desk).registry.spec leg.instrument with
    | error err => rfl
    | ok spec =>
        dsimp only
        rw [Run.ok_bind]
        split_ifs
        · rfl
        · rw [run_bind, run_greeks]
          cases (e.ctx desk).greeks leg.instrument with
          | error err => rfl
          | ok found => cases found <;> rfl

theorem run_requirement (total : MarginResult F) (group : Date × List (MarginLeg F)) :
    (requirement total group).run desk e = .ok ((e.ctx desk).addRequirement total group) := by
  unfold requirement Ctx.addRequirement
  rw [run_look, run_forward]
  cases (e.ctx desk).forward group.1 with
  | none => rfl
  | some fwd =>
      dsimp only
      split_ifs <;> rfl

theorem run_margin : margin.run desk e = (e.ctx desk).marginNow := by
  unfold margin Ctx.marginNow
  rw [run_look, run_bind, run_each]
  simp only [run_marginLeg]
  cases ((e.ctx desk).portfolio.positions.flatMap (·.legs)).foldlM (e.ctx desk).addMarginLeg [] with
  | error err => rfl
  | ok legs =>
      dsimp only
      rw [run_each, Run.ok_bind]
      simp only [run_requirement]
      -- no turn of the second loop throws
      generalize (MarginResult.empty : MarginResult F) = total
      induction Ctx.byExpiry legs generalizing total with
      | nil => rfl
      | cons group groups ih => exact ih _

theorem run_firstForward (ds : List Date) : (firstForward ds).run desk e = ds.findSome? (e.ctx desk).forward := by
  induction ds with
  | nil => rfl
  | cons d ds ih =>
      rw [firstForward, run_forward, List.findSome?_cons]
      cases (e.ctx desk).forward d with
      | none => exact ih
      | some fwd => rfl

theorem run_settlementLevel (spot : InstrumentId) (expiry : Date) :
    (settlementLevel spot expiry).run desk e = Volforge.settlementLevel (e.ctx desk) spot expiry := by
  unfold settlementLevel Volforge.settlementLevel
  rw [run_look]
  dsimp only
  generalize (if validId spot then _ else none : Option F) = print
  cases print with
  | some level => rfl
  | none =>
      dsimp only
      rw [run_firstForward, List.findSome?_cons]
      cases (e.ctx desk).forward expiry <;> rfl

theorem run_closerDelta (v : ChainView) (want : F) (right : Right) (best : Option (InstrumentId × F)) (strike : Int32) :
    (closerDelta v want right best strike).run desk e = v.closerDelta (e.ctx desk) want right best strike := by
  unfold closerDelta ChainView.closerDelta
  rw [run_look]
  cases v.option (e.ctx desk) strike right with
  | none => rfl
  | some id =>
      dsimp only
      rw [run_bind, run_greeks]
      cases (e.ctx desk).greeks id with
      | error err => rfl
      | ok found =>
          cases found with
          | none => rfl
          | some g => cases best <;> rfl

theorem run_byDelta (v : ChainView) (target : F) (right : Right) :
    (byDelta v target right).run desk e = v.byDelta (e.ctx desk) target right := by
  unfold byDelta ChainView.byDelta
  rw [run_bind, run_each]
  simp only [run_closerDelta]
  cases v.strikes.foldlM (v.closerDelta (e.ctx desk) (abs target) right) none <;> rfl

end Asks

/-! ## Caches -/

namespace Caches

/-- The forward for a key of the cache. -/
def forwardAt (desk : Desk F) (e : Engine F σ) (key : Int32 × Timestamp) : Option F :=
  ({ e with clock := key.2 }.ctx desk).forward ⟨key.1⟩

/-- The series for a key of the cache. -/
def seriesAt (desk : Desk F) (e : Engine F σ) (key : InstrumentId × Int × BarPrice) : Except Error BarSeries :=
  e.buildBars desk key.1 key.2.1 key.2.2

/-- What is kept is what would be answered now. -/
structure Valid (desk : Desk F) (e : Engine F σ) (k : Caches F) : Prop where
  forwards : Memo.Faithful (.values _ F) (forwardAt desk e) k.forwards
  bars : Memo.Faithful (.results _ Error BarSeries) (seriesAt desk e) k.bars

theorem Valid.empty (desk : Desk F) (e : Engine F σ) : Valid desk e {} := ⟨.nil, .nil⟩

variable {desk : Desk F} {e : Engine F σ} {k : Caches F}

/-- An expiry that has passed has no forward. -/
theorem forwardAt_eq_none {expiry : Date}
    (ht : (!lt zero (timeToExpiry (e.ctx desk).now expiry (e.ctx desk).utcOffset : F)) = true) :
    forwardAt desk e (expiry.yyyymmdd, e.clock) = none := by
  show (e.ctx desk).forward expiry = none
  unfold Ctx.forward
  dsimp only
  rw [if_pos ht]

/-- **A forward** from the cache, and the cache afterwards. -/
theorem Valid.forward (h : Valid desk e k) (expiry : Date) :
    (k.forward (e.ctx desk) expiry).1 = (e.ctx desk).forward expiry ∧
      Valid desk e (k.forward (e.ctx desk) expiry).2 := by
  have hnow : (e.ctx desk).now = e.clock := rfl
  have hask : k.forward (e.ctx desk) expiry =
      ((Memo.ask (.values _ F) (forwardAt desk e) k.forwards (expiry.yyyymmdd, e.clock)).1,
        { k with forwards := (Memo.ask (.values _ F) (forwardAt desk e) k.forwards (expiry.yyyymmdd, e.clock)).2 }) := by
    unfold Caches.forward Memo.ask
    dsimp only
    by_cases ht : (!lt zero (timeToExpiry (e.ctx desk).now expiry (e.ctx desk).utcOffset : F)) = true
    · rw [if_pos ht]
      have hnone := forwardAt_eq_none ht
      have hlookup : k.forwards.lookup (expiry.yyyymmdd, e.clock) = none := by
        cases hfound : k.forwards.lookup (expiry.yyyymmdd, e.clock) with
        | none => rfl
        | some fwd =>
            have hkept := h.forwards.kept _ fwd (Memo.mem_of_lookup hfound)
            rw [hnone] at hkept
            cases hkept
      rw [hlookup, hnone]
      rfl
    · rw [if_neg ht, hnow]
      cases k.forwards.lookup (expiry.yyyymmdd, e.clock) with
      | some fwd => rfl
      | none =>
          have hforward : forwardAt desk e (expiry.yyyymmdd, e.clock) = (e.ctx desk).forward expiry := rfl
          rw [hforward]
          cases (e.ctx desk).forward expiry <;> rfl
  rw [hask]
  exact ⟨h.forwards.answer _, h.forwards.step _, h.bars⟩

/-- **A series** from the cache, and the cache afterwards. -/
theorem Valid.series (h : Valid desk e k) (id : InstrumentId) (intervalSeconds : Int) (source : BarPrice) :
    (k.series desk e id intervalSeconds source).1 = e.buildBars desk id intervalSeconds source ∧
      Valid desk e (k.series desk e id intervalSeconds source).2 := by
  have hask : k.series desk e id intervalSeconds source =
      ((Memo.ask (.results _ Error BarSeries) (seriesAt desk e) k.bars (id, intervalSeconds, source)).1,
        { k with bars := (Memo.ask (.results _ Error BarSeries) (seriesAt desk e) k.bars (id, intervalSeconds, source)).2 }) := by
    unfold Caches.series Memo.ask
    by_cases hinterval : intervalSeconds ≤ 0
    · rw [if_pos hinterval]
      have hthrows : seriesAt desk e (id, intervalSeconds, source) =
          .error (.invalidArgument "Ctx::bars: interval must be positive") := by
        unfold seriesAt Engine.buildBars
        rw [if_pos hinterval]
      have hlookup : k.bars.lookup (id, intervalSeconds, source) = none := by
        cases hfound : k.bars.lookup (id, intervalSeconds, source) with
        | none => rfl
        | some s =>
            have hkept := h.bars.kept _ s (Memo.mem_of_lookup hfound)
            rw [hthrows] at hkept
            cases hkept
      rw [hlookup, hthrows]
      rfl
    · rw [if_neg hinterval]
      cases k.bars.lookup (id, intervalSeconds, source) with
      | some s => rfl
      | none =>
          have hseries : seriesAt desk e (id, intervalSeconds, source) = e.buildBars desk id intervalSeconds source := rfl
          rw [hseries]
          cases e.buildBars desk id intervalSeconds source <;> rfl
  rw [hask]
  exact ⟨h.bars.answer _, h.forwards, h.bars.step _⟩

/-- **A tree of questions.** -/
theorem Valid.cached {α : Type} (h : Valid desk e k) (q : Asks F α) :
    (q.cached desk e k).1 = q.run desk e ∧ Valid desk e (q.cached desk e k).2 := by
  induction q generalizing k with
  | answer a => exact ⟨rfl, h⟩
  | look next ih => exact ih _ h
  | forward expiry next ih =>
      obtain ⟨hanswer, hvalid⟩ := h.forward expiry
      rw [Asks.run_forward, ← hanswer]
      exact ih _ hvalid
  | bars id intervalSeconds source next ih =>
      obtain ⟨hanswer, hvalid⟩ := h.series id intervalSeconds source
      have hrun : (Asks.bars id intervalSeconds source next).run desk e =
          (next (e.buildBars desk id intervalSeconds source)).run desk e := rfl
      rw [hrun, ← hanswer]
      exact ih _ hvalid

/-- The clock and the portfolio have no say in what is kept. -/
theorem Valid.congr (h : Valid desk e k) {e' : Engine F σ} (hsession : e'.session = e.session) (hdate : e'.date = e.date) :
    Valid desk e' k := by
  have hbars : seriesAt desk e' = seriesAt desk e := by
    funext key
    unfold seriesAt Engine.buildBars Engine.anchor
    rw [hsession, hdate]
  have hforwards : forwardAt desk e' = forwardAt desk e := by
    funext key
    unfold forwardAt Engine.ctx Engine.market
    rw [hsession]
    rfl
  exact ⟨hforwards ▸ h.forwards, hbars ▸ h.bars⟩

end Caches

/-! ## Main result -/

/-- The run lemma: from caches that are valid, every answer is the one without, and the caches stay valid. -/
theorem Caches.Valid.cachedAnswers {α : Type} {desk : Desk F} {e : Engine F σ} {k : Caches F} (h : Valid desk e k)
    (turns : List (ContextTurn F α)) : (ContextTurn.cachedAnswers desk e k turns).1 = ContextTurn.answers desk e turns ∧
      Valid desk (turns.foldl ContextTurn.engine e) (ContextTurn.cachedAnswers desk e k turns).2 := by
  induction turns generalizing e k with
  | nil => exact ⟨rfl, h⟩
  | cons turn turns ih =>
      cases turn with
      | ask question =>
          obtain ⟨hanswer, hvalid⟩ := h.cached question
          obtain ⟨hrest, hvalid⟩ := ih hvalid
          exact ⟨congrArg₂ List.cons hanswer hrest, hvalid⟩
      | clock t => exact ih (h.congr rfl rfl)
      | bind session date => exact ih (Valid.empty desk _)
      | trade p => exact ih (h.congr rfl rfl)

/-- **The caches show nothing.** However questions, trades, moves of the clock and new sessions follow each other, every
    question is answered as it would be without caches, and at the end the caches hold, each once, what would be
    worked out of the session that is bound. Greeks, margin, the settlement level and the choice by delta are such
    questions. -/
theorem caches_show_nothing {α : Type} (desk : Desk F) (e : Engine F σ) (turns : List (ContextTurn F α)) :
    (ContextTurn.cachedAnswers desk e {} turns).1 = ContextTurn.answers desk e turns ∧
    Caches.Valid desk (turns.foldl ContextTurn.engine e) (ContextTurn.cachedAnswers desk e {} turns).2 ∧
    (∀ id, (Asks.greeks id).run desk e = (e.ctx desk).greeks id) ∧
    Asks.margin.run desk e = (e.ctx desk).marginNow ∧
    (∀ spot expiry, (Asks.settlementLevel spot expiry).run desk e = settlementLevel (e.ctx desk) spot expiry) ∧
    ∀ v target right, (Asks.byDelta v target right).run desk e = v.byDelta (e.ctx desk) target right := by
  obtain ⟨hanswers, hvalid⟩ := (Caches.Valid.empty desk e).cachedAnswers turns
  exact ⟨hanswers, hvalid, Asks.run_greeks desk e, Asks.run_margin desk e, Asks.run_settlementLevel desk e,
    Asks.run_byDelta desk e⟩

end Volforge
