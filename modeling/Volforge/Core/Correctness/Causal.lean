import Volforge.Core.Correctness.Bars
import Volforge.Core.Strategy

/-!
# `Core.Correctness.Causal` — strategies that do not look ahead

The accessors of a bar series take the instant they answer for, and a strategy may pass any. Two contexts
agree (`Ctx.Agree`) when they differ in nothing but in what their series answer about instants after `now`; a
strategy is causal when it cannot tell such contexts apart.

## Contents
- **Agreement.** `SeriesView.Agree` and `Ctx.Agree`; what a context answers without its series is the same.
- **Causal strategies.** `Cond.Same`, `Script.Same` and `Strategy.Causal`.
- **The conditions of the source** are causal, the crossings included.
-/

namespace Volforge

variable {F : Type} [Double F] {σ : Type}

/-! ## Agreement -/

/-- Two series answer alike about every instant up to `now`. -/
structure SeriesView.Agree (now : Timestamp) (a b : SeriesView F) : Prop where
  knownCount : ∀ t ≤ now, a.knownCount t = b.knownCount t
  completed : ∀ t ≤ now, ∀ back, a.completed t back = b.completed t back
  forming : ∀ t ≤ now, a.forming t = b.forming t
  indicator : ∀ kind, Run.Alike (fun f g => ∀ t ≤ now, ∀ back, f t back = g t back)
    (a.indicator kind) (b.indicator kind)

omit [Double F] in
theorem SeriesView.Agree.mono {now T : Timestamp} {a b : SeriesView F} (h : SeriesView.Agree T a b)
    (hnow : now ≤ T) : SeriesView.Agree now a b where
  knownCount t ht := h.knownCount t (le_trans ht hnow)
  completed t ht := h.completed t (le_trans ht hnow)
  forming t ht := h.forming t (le_trans ht hnow)
  indicator kind := (h.indicator kind).mono (fun _ _ hfg t ht => hfg t (le_trans ht hnow))

/-- **A clipped series** answers like the one of the whole session. -/
theorem BarSeries.Clipped.view_agree {T : Timestamp} {short long : BarSeries} (h : Clipped T short long) :
    SeriesView.Agree (F := F) T long.view short.view where
  knownCount _ ht := (h.knownCount ht).symm
  completed _ ht back := (h.completed ht back).symm
  forming _ ht := (h.forming ht).symm
  indicator kind := by
    show Run.Alike _ (BarIndicator.valueAt <$> kind.build long) (BarIndicator.valueAt <$> kind.build short)
    unfold IndicatorKind.build
    by_cases hp : kind.period ≤ 0
    · rw [if_pos hp, if_pos hp]
      exact .error _
    · rw [if_neg hp, if_neg hp]
      exact .ok (fun t ht back => (h.valueAt ht kind back).symm)

/-- The contexts agree on everything but on what their series answer about later instants, and show no
    observation from the future. -/
structure Ctx.Agree (c d : Ctx F) : Prop where
  rest : d = { c with series := d.series }
  series : List.Forall₂ (SeriesView.Agree c.now) c.series d.series
  past : ∀ id back q, c.market.quote id back = some q → q.ts ≤ c.now

namespace Ctx

omit [Double F] in
/-- What is answered without the series is answered alike. -/
theorem Agree.congr {α : Type} {c d : Ctx F} (h : c.Agree d) (f : Ctx F → α)
    (hf : ∀ s, f { c with series := s } = f c) : f c = f d := by
  rw [h.rest]
  exact (hf _).symm

omit [Double F] in
theorem Agree.now {c d : Ctx F} (h : c.Agree d) : c.now = d.now := h.congr Ctx.now (fun _ => rfl)

omit [Double F] in
theorem Agree.market {c d : Ctx F} (h : c.Agree d) : c.market = d.market := h.congr Ctx.market (fun _ => rfl)

omit [Double F] in
theorem Agree.portfolio {c d : Ctx F} (h : c.Agree d) : c.portfolio = d.portfolio :=
  h.congr Ctx.portfolio (fun _ => rfl)

theorem Agree.marginNow {c d : Ctx F} (h : c.Agree d) : c.marginNow = d.marginNow :=
  h.congr Ctx.marginNow (fun _ => rfl)

theorem Agree.submit {c d : Ctx F} (h : c.Agree d) (cmd : Command F) : cmd.submit c = cmd.submit d :=
  h.congr cmd.submit (fun _ => by cases cmd <;> rfl)

omit [Double F] in
/-- A held series is the same position in both lists. -/
theorem Agree.series_getElem? {c d : Ctx F} (h : c.Agree d) (k : Nat) :
    (c.series[k]? = none ∧ d.series[k]? = none) ∨
      ∃ a b, c.series[k]? = some a ∧ d.series[k]? = some b ∧ SeriesView.Agree c.now a b := by
  have hlen := h.series.length_eq
  by_cases hk : k < c.series.length
  · have hk' : k < d.series.length := hlen ▸ hk
    exact .inr ⟨_, _, List.getElem?_eq_getElem hk, List.getElem?_eq_getElem hk',
      List.forall₂_iff_get.mp h.series |>.2 k hk hk'⟩
  · exact .inl ⟨List.getElem?_eq_none (not_lt.mp hk), List.getElem?_eq_none (hlen ▸ not_lt.mp hk)⟩

end Ctx

/-! ## Causal strategies -/

/-- Two conditions that hold alike. -/
structure Cond.Same (a b : Cond F) : Prop where
  valid : a.valid = b.valid
  eval : ∀ c d : Ctx F, c.Agree d → a.eval c = b.eval d

/-- A condition that asks about no later instant. -/
def Cond.Causal (cond : Cond F) : Prop := cond.Same cond

/-- Two stretches of code that go the same way as long as what they look at agrees. `R` relates what they
    remember over a suspension. -/
inductive Script.Same (R : σ → σ → Prop) : Script F σ → Script F σ → Prop where
  | look {k k'} (h : ∀ c d : Ctx F, c.Agree d → Same R (k c) (k' d)) : Same R (.look k) (.look k')
  | order (cmd : Command F) {k k'} (h : ∀ reply, Same R (k reply) (k' reply)) :
      Same R (.order cmd k) (.order cmd k')
  | await {cond cond' s s'} (hcond : cond.Same cond') (hs : R s s') : Same R (.await cond s) (.await cond' s')
  | finish : Same R .finish .finish
  | throw_ (e : Error) : Same R (.throw_ e) (.throw_ e)

/-- **A causal strategy** cannot tell agreeing contexts apart: it asks its series about no instant after the
    current one. -/
def Strategy.Causal (strategy : Strategy F) : Prop :=
  ∃ R : strategy.State → strategy.State → Prop, strategy.start.Same R strategy.start ∧
    ∀ s s', R s s' → (strategy.resume s).Same R (strategy.resume s')

/-! ## The conditions of the source -/

omit [Double F] in
theorem causal_atOrAfter (t : Timestamp) : Cond.Causal (atOrAfter t : Cond F) where
  valid := rfl
  eval c d h := by
    show Except.ok (decide (t ≤ c.now)) = Except.ok (decide (t ≤ d.now))
    rw [h.now]

omit [Double F] in
theorem Cond.Causal.or {a b : Cond F} (ha : a.Causal) (hb : b.Causal) : (a.or b).Causal where
  valid := rfl
  eval c d h := by
    show (do if ← a.eval c then return true else b.eval c) = (do if ← a.eval d then return true else b.eval d)
    rw [ha.eval c d h, hb.eval c d h]

omit [Double F] in
theorem Cond.Causal.and {a b : Cond F} (ha : a.Causal) (hb : b.Causal) : (a.and b).Causal where
  valid := rfl
  eval c d h := by
    show (do if ← a.eval c then b.eval c else return false) =
      (do if ← a.eval d then b.eval d else return false)
    rw [ha.eval c d h, hb.eval c d h]

omit [Double F] in
theorem Cond.Causal.not {a : Cond F} (ha : a.Causal) : a.not.Causal where
  valid := rfl
  eval c d h := by
    show (do return !(← a.eval c)) = (do return !(← a.eval d))
    rw [ha.eval c d h]

omit [Double F] in
/-- A condition over the market and the portfolio only. -/
theorem causal_of_market_portfolio (fn : MarketView → Portfolio F → Except Error Bool) :
    Cond.Causal (.when_ fun c => fn c.market c.portfolio) where
  valid := rfl
  eval c d h := by
    show fn c.market c.portfolio = fn d.market d.portfolio
    rw [h.market, h.portfolio]

theorem causal_pnlPctAtMost (id : PositionId) (pct : F) : Cond.Causal (Ctx.pnlPctAtMost id pct) :=
  causal_of_market_portfolio (fun m p => do
    let pos ← p.atId id
    return pos.established && Double.le (pos.pnlPct m) pct)

theorem causal_pnlPctAtLeast (id : PositionId) (pct : F) : Cond.Causal (Ctx.pnlPctAtLeast id pct) :=
  causal_of_market_portfolio (fun m p => do
    let pos ← p.atId id
    return pos.established && Double.le pct (pos.pnlPct m))

omit [Double F] in
theorem causal_positionClosed (id : PositionId) : Cond.Causal (Ctx.positionClosed (F := F) id) :=
  causal_of_market_portfolio (fun _ p => do return (← p.atId id).isClosed)

omit [Double F] in
/-- An indicator asked about an instant up to now. -/
theorem Ctx.Agree.indicatorAt {c d : Ctx F} (h : c.Agree d) (level : IndicatorRef F) {t : Timestamp}
    (ht : t ≤ c.now) (back : Int) : c.indicatorAt level t back = d.indicatorAt level t back := by
  unfold Ctx.indicatorAt Ctx.seriesOf
  obtain ⟨hc, hd⟩ | ⟨a, b, hc, hd, hagree⟩ := h.series_getElem? level.series
  · rw [hc, hd]
  · rw [hc, hd]
    simp only [Run.ok_bind]
    generalize hx : a.indicator level.kind = x
    generalize hy : b.indicator level.kind = y
    have halike := hagree.indicator level.kind
    rw [hx, hy] at halike
    cases halike with
    | error e => rfl
    | ok hfg => exact hfg t ht back

theorem causal_instantCross (inst : InstrumentId) (level : IndicatorRef F) (above : Bool) :
    (Ctx.instantCross inst level above).Causal where
  valid := rfl
  eval c d h := by
    unfold Ctx.instantCross Cond.eval Cond.when_
    simp only [← h.market, ← h.now]
    split
    · next nowQ prevQ hnow hprev =>
        -- the earlier observation has printed, so its level is asked about an instant up to now
        rw [h.indicatorAt level (le_refl _), h.indicatorAt level (h.past _ _ _ hprev)]
    · rfl

theorem causal_barCloseCross (level : IndicatorRef F) (above : Bool) :
    (Ctx.barCloseCross level above).Causal where
  valid := rfl
  eval c d h := by
    unfold Ctx.barCloseCross Cond.eval Cond.when_ Ctx.seriesOf
    dsimp only
    rw [← h.now]
    obtain ⟨hc, hd⟩ | ⟨a, b, hc, hd, hagree⟩ := h.series_getElem? level.series
    · rw [hc, hd]
      simp only [Run.error_bind]
    · rw [hc, hd]
      simp only [Run.ok_bind]
      rw [hagree.completed _ (le_refl _), hagree.completed _ (le_refl _), h.indicatorAt level (le_refl _),
        h.indicatorAt level (le_refl _)]

end Volforge
