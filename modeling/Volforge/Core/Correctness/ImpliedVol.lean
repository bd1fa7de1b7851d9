import Mathlib.Analysis.Real.Pi.Bounds
import Volforge.Lib.Bracket
import Volforge.Core.Correctness.Pricing

/-!
# `Core.Correctness.ImpliedVol` — an implied volatility explains its price

The solver keeps a bracket of volatilities around the market price, whatever the Newton step proposes. In exact
arithmetic the value of an option is continuous in its volatility, so every bracket holds a volatility at which it is
the market price. The answer is a volatility at which the value is close to the price, or one close to such a
volatility.

## Contents
- **Continuity.** The value as a function of the volatility.
- **The loop.** `NextInside`: the next guess lies inside the next bracket. Soundness by induction on the turns.
- **The solver.** `impliedVol_explains`.
- **Main result.** `greeks_explain_the_mid`.
-/

namespace Volforge

namespace Pricing

open Bracketing

/-! ## Continuity -/

theorem continuousOn_d1 (forward strike : ℝ) {t : ℝ} (ht : 0 < t) : ContinuousOn (d1 forward strike t) (Set.Ioi 0) := by
  unfold d1
  apply ContinuousOn.div
  · fun_prop
  · fun_prop
  · intro sigma hsigma
    exact (mul_pos hsigma (Real.sqrt_pos.mpr ht)).ne'

theorem continuousOn_value (forward strike : ℝ) {t : ℝ} (ht : 0 < t) (rate : ℝ) (right : Right) :
    ContinuousOn (fun sigma => value forward strike t sigma rate right) (Set.Ioi 0) := by
  have h1 := continuousOn_d1 forward strike ht
  have h2 : ContinuousOn (d2 forward strike t) (Set.Ioi 0) := by
    unfold d2
    exact h1.sub (by fun_prop)
  have hcdf : ∀ {f : ℝ → ℝ}, ContinuousOn f (Set.Ioi 0) → ContinuousOn (fun sigma => cdf (f sigma)) (Set.Ioi 0) :=
    fun hf => continuous_cdf.comp_continuousOn hf
  unfold value
  split_ifs
  · exact continuousOn_const.mul
      ((continuousOn_const.mul (hcdf h1)).sub (continuousOn_const.mul (hcdf h2)))
  · exact continuousOn_const.mul
      ((continuousOn_const.mul (hcdf h2.neg)).sub (continuousOn_const.mul (hcdf h1.neg)))

/-! ## The loop -/

/-- How the answer of the solver accounts for a price: it reproduces it, or it is close to a volatility that does. -/
def Explains (f : ℝ → ℝ) (price slack lo hi sigma : ℝ) : Prop :=
  |f sigma - price| < 1 / 100000000 ∨
    ∃ y ∈ Set.Icc lo hi, |sigma - y| < 1 / 1000000 ∧ |f y - price| ≤ slack

/-- A smaller bracket explains no less. -/
theorem Explains.mono {f : ℝ → ℝ} {price slack lo hi lo' hi' sigma : ℝ} (h : Explains f price slack lo' hi' sigma)
    (hlo : lo ≤ lo') (hhi : hi' ≤ hi) : Explains f price slack lo hi sigma := by
  rcases h with h | ⟨y, hy, hclose, hprice⟩
  · exact Or.inl h
  · exact Or.inr ⟨y, ⟨le_trans hlo hy.1, le_trans hy.2 hhi⟩, hclose, hprice⟩

@[simp] theorem abs_some (x : ℝ) : (Double.abs (some x) : Exact) = some |x| := rfl

theorem normPdf_some (x : ℝ) : ∃ v : ℝ, normPdf (some x : Exact) = some v := by
  have hconst : (kInvSqrt2Pi : Exact) = some (((39894228040143267794 : ℤ) : ℝ) / (100000000000000000000 : ℕ)) := rfl
  unfold normPdf
  rw [hconst, Exact.lit_eq, Exact.mul_some, Exact.mul_some, Exact.exp_some, Exact.mul_some]
  exact ⟨_, rfl⟩

/-- The next guess of the loop. -/
theorem next_inside {lo hi sigma diff vega : ℝ} (hlt : lo < hi) :
    ∃ x : ℝ, lo < x ∧ x < hi ∧
      (let middle : Exact := Double.lit 5 10 * (some lo + some hi)
       let next : Exact :=
         if Double.lt (Double.lit 1 10000000000) (some vega : Exact) then some sigma - some diff / some vega else middle
       if !(Double.lt (some lo) next && Double.lt next (some hi)) || !Double.isFinite next then middle else next) =
        some x := by
  have hmiddle : (Double.lit 5 10 * (some lo + some hi) : Exact) = some ((lo + hi) / 2) := by
    rw [Exact.lit_eq, Exact.add_some, Exact.mul_some]
    congr 1
    push_cast
    ring
  dsimp only
  rw [hmiddle]
  have hguess : ∃ y : ℝ, (if Double.lt (Double.lit 1 10000000000) (some vega : Exact) then
      (some sigma - some diff / some vega : Exact) else some ((lo + hi) / 2)) = some y := by
    rw [Exact.lit_eq, Exact.lt_some]
    split
    case isTrue hvega =>
      rw [decide_eq_true_eq] at hvega
      have hpos : 0 < vega := lt_trans (by norm_num) hvega
      rw [Exact.div_some _ hpos.ne', Exact.sub_some]
      exact ⟨_, rfl⟩
    case isFalse => exact ⟨_, rfl⟩
  obtain ⟨y, hy⟩ := hguess
  rw [hy]
  split
  case isTrue => exact ⟨(lo + hi) / 2, by linarith, by linarith, rfl⟩
  case isFalse hinside =>
    -- the Newton step stays in the bracket
    simp only [Exact.lt_some, Bool.not_and, Bool.or_eq_true, Bool.not_eq_true', decide_eq_false_iff_not, not_or,
      not_not] at hinside
    exact ⟨y, hinside.1.1, hinside.1.2, rfl⟩

/-- **The loop** answers with a volatility of its bracket that explains the price. -/
theorem impliedVolLoop_explains {price forward strike t : ℝ} (hforward : 0 < forward) (hstrike : 0 < strike)
    (ht : 0 < t) (rate df : ℝ) (right : Right) {slack : ℝ} (hslack : 0 ≤ slack) (left : ℕ) {lo hi sigma : ℝ}
    (hlo : 0 < lo) (hlt : lo < sigma) (hgt : sigma < hi)
    (hbracket : Bracket (fun s => value forward strike t s rate right) price slack lo hi) {v : Exact}
    (h : impliedVolLoop (some price) (some forward) (some strike) (some t) (some rate) (some df) right left (some lo)
      (some hi) (some sigma) = some v) :
    ∃ x : ℝ, v = some x ∧ lo < x ∧ x < hi ∧
      Explains (fun s => value forward strike t s rate right) price slack lo hi x := by
  induction left generalizing lo hi sigma with
  | zero =>
      unfold impliedVolLoop at h
      rw [Exact.sub_some, Exact.lit_eq, Exact.lt_some] at h
      split at h
      · next hnarrow =>
        cases h
        rw [decide_eq_true_eq] at hnarrow
        have hcontinuous : ContinuousOn (fun s => value forward strike t s rate right) (Set.Icc lo hi) :=
          (continuousOn_value forward strike ht rate right).mono (fun y hy => lt_of_lt_of_le hlo hy.1)
        obtain ⟨y, hy, hprice⟩ := hbracket.exists_solution hslack hcontinuous
        refine ⟨sigma, rfl, hlt, hgt, Or.inr ⟨y, hy, ?_, hprice⟩⟩
        -- both lie in the bracket, which is narrow by now
        push_cast at hnarrow
        rw [abs_lt]
        constructor <;> linarith [hy.1, hy.2]
      · cases h
  | succ left ih =>
      have hsigma : 0 < sigma := lt_trans hlo hlt
      unfold impliedVolLoop at h
      rw [black76Price_eq hforward hstrike ht hsigma] at h
      dsimp only at h
      rw [Exact.sub_some, abs_some, Exact.lit_eq, Exact.lt_some, Exact.zero_eq, Exact.lt_some] at h
      split at h
      · next hclose =>
        cases h
        rw [decide_eq_true_eq] at hclose
        refine ⟨sigma, rfl, hlt, hgt, Or.inl ?_⟩
        push_cast at hclose
        exact hclose
      · obtain ⟨pdf, hpdf⟩ := normPdf_some (d1 forward strike t sigma)
        rw [computeD_eq hforward hstrike ht hsigma] at h
        dsimp only at h
        rw [hpdf, Exact.mul_some, Exact.mul_some, Exact.mul_some] at h
        by_cases habove : 0 < value forward strike t sigma rate right - price
        · rw [decide_eq_true habove, if_pos rfl, if_pos rfl] at h
          obtain ⟨x, hlox, hxhi, hnext⟩ := @next_inside lo sigma sigma (value forward strike t sigma rate right - price)
            (df * forward * pdf * √t) hlt
          dsimp only at hnext
          rw [hnext] at h
          obtain ⟨y, rfl, hloy, hyhi, hexplains⟩ := ih hlo hlox hxhi
            (hbracket.above hslack hlt (sub_pos.mp habove)) h
          exact ⟨y, rfl, hloy, lt_trans hyhi hgt, hexplains.mono (le_refl lo) hgt.le⟩
        · rw [decide_eq_false habove, if_neg Bool.false_ne_true, if_neg Bool.false_ne_true] at h
          obtain ⟨x, hlox, hxhi, hnext⟩ := @next_inside sigma hi sigma (value forward strike t sigma rate right - price)
            (df * forward * pdf * √t) hgt
          dsimp only at hnext
          rw [hnext] at h
          obtain ⟨y, rfl, hloy, hyhi, hexplains⟩ := ih hsigma hlox hxhi
            (hbracket.below hgt (sub_nonpos.mp (not_lt.mp habove))) h
          exact ⟨y, rfl, lt_trans hlt hloy, hyhi, hexplains.mono hlt.le (le_refl hi)⟩

/-! ## The solver -/

/-- How far a price may lie outside the prices of the two extreme volatilities. -/
noncomputable def tolerance (price : ℝ) : ℝ := (1 : ℤ) / (1000000000 : ℕ) * max 1 |price|

theorem tolerance_nonneg (price : ℝ) : 0 ≤ tolerance price := by
  unfold tolerance
  positivity

/-- The solver's answer, for arguments that are numbers. -/
theorem impliedVol_explains {price forward strike t rate : ℝ} {right : Right} {v : Exact}
    (h : impliedVol (some price) (some forward) (some strike) (some t) (some rate) right = some v) :
    0 < price ∧ 0 < forward ∧ 0 < strike ∧ 0 < t ∧ ∃ x : ℝ, v = some x ∧ 1 / 10000 ≤ x ∧ x ≤ 6 ∧
      Explains (fun s => value forward strike t s rate right) price (tolerance price) (1 / 10000) 6 x := by
  unfold impliedVol at h
  split at h
  · cases h
  · next hargs =>
    simp only [Exact.zero_eq, Exact.lt_some, Bool.or_eq_true, Bool.not_eq_true', decide_eq_false_iff_not, not_or,
      not_not] at hargs
    obtain ⟨⟨⟨hprice, hforward⟩, hstrike⟩, ht⟩ := hargs
    refine ⟨hprice, hforward, hstrike, ht, ?_⟩
    dsimp only at h
    -- the two bounds only ever refuse
    generalize (if right = Right.Call then _ else _) = high at h
    split at h
    · cases h
    · have hlo : (Double.lit 1 10000 : Exact) = some (1 / 10000) := by
        rw [Exact.lit_eq]
        norm_num
      have hhi : (Double.ofInt 6 : Exact) = some 6 := by
        rw [Exact.ofInt_eq]
        norm_num
      have hstart : (Double.lit 2 10 : Exact) = some (1 / 5) := by
        rw [Exact.lit_eq]
        norm_num
      have htol : (Double.lit 1 1000000000 * Double.max Double.one (Double.abs (some price)) : Exact) =
          some (tolerance price) := by
        rw [Exact.lit_eq, Exact.one_eq, abs_some, Exact.max_some, Exact.mul_some]
        rfl
      rw [hlo, hhi, hstart, htol, black76Price_eq hforward hstrike ht (by norm_num),
        black76Price_eq hforward hstrike ht (by norm_num), Exact.add_some, Exact.sub_some, Exact.lt_some,
        Exact.lt_some, le_some, Exact.neg_some, Exact.mul_some, Exact.exp_some] at h
      split at h
      · cases h
      · next hrange =>
        simp only [Bool.or_eq_true, decide_eq_true_eq, not_or, not_lt] at hrange
        split at h
        · next hfloor =>
          cases h
          rw [decide_eq_true_eq] at hfloor
          -- at the floor the smallest volatility is the answer
          refine ⟨1 / 10000, rfl, le_refl _, by norm_num, Or.inr ⟨1 / 10000, ⟨le_refl _, by norm_num⟩, ?_, ?_⟩⟩
          · rw [sub_self, abs_zero]
            norm_num
          · rw [abs_of_nonneg (sub_nonneg.mpr hfloor)]
            linarith [hrange.2]
        · next hfloor =>
          rw [decide_eq_true_eq, not_le] at hfloor
          have hbracket : Bracket (fun s => value forward strike t s rate right) price (tolerance price) (1 / 10000) 6 :=
            ⟨by norm_num, hfloor.le, hrange.1⟩
          obtain ⟨x, hx, hgt, hlt, hexplains⟩ := impliedVolLoop_explains hforward hstrike ht rate _ right
            (tolerance_nonneg price) 100 (by norm_num) (by norm_num) (by norm_num) hbracket h
          exact ⟨x, hx, hgt.le, hlt.le, hexplains⟩

/-! ## Main result -/

theorem lt_none (x : Exact) : Double.lt x (none : Exact) = false := by
  show decide (∃ a ∈ x, ∃ b ∈ (none : Option ℝ), a < b) = false
  simp

/-- **Greeks explain the mid they are solved from.** When a context reports Greeks, the instrument is an option with time
    left, a two-sided quote and a forward, and they are the Black-76 Greeks at a volatility between 0.0001 and 6. At
    that volatility the value is within `1e-8` of the quote's mid; or some volatility within `1e-6` of it has the mid
    as its value, up to the tolerance of the solver. -/
theorem greeks_explain_the_mid {c : Ctx Exact} {rate : ℝ} (hrate : c.rate = some rate) {id : InstrumentId}
    {g : GreekSet Exact} (h : c.greeks id = .ok (some g)) :
    ∃ spec q, c.registry.spec id = .ok spec ∧ spec.isOption = true ∧ c.market.current id = some q ∧ q.twoSided = true ∧
    ∃ forward iv : ℝ, c.forward spec.expiry = some (some forward) ∧ 0 < forward ∧ 0 < spec.strike.toInt ∧
      0 < years c.now spec.expiry c.utcOffset ∧ 1 / 10000 ≤ iv ∧ iv ≤ 6 ∧
      g = black76Greeks (some forward) (Double.ofMinor spec.strike.toInt) (some (years c.now spec.expiry c.utcOffset))
        (some iv) (some rate) spec.right ∧
      Explains (fun s => value forward ((spec.strike.toInt : ℝ) / 100) (years c.now spec.expiry c.utcOffset) s rate
        spec.right) ((q.mid : ℝ) / 100) (tolerance ((q.mid : ℝ) / 100)) (1 / 10000) 6 iv := by
  obtain ⟨spec, hspec, h⟩ := Run.bind_eq_ok.mp h
  dsimp only at h
  split at h
  · cases h
  · next hoption =>
    split at h
    · cases h
    · next q hquote =>
      split at h
      · cases h
      · next htwo =>
        split at h
        · cases h
        · next fwd hforward =>
          rw [hrate, timeToExpiry_eq, Exact.ofMinor_eq, Exact.ofMinor_eq] at h
          split at h
          · cases h
          · injection h with h
            obtain ⟨v, hv, rfl⟩ := Option.map_eq_some_iff.mp h
            cases fwd with
            | none =>
                unfold impliedVol at hv
                simp [lt_none] at hv
            | some forward =>
                obtain ⟨_, hpos, hstrike, ht, iv, rfl, hlo, hhi, hexplains⟩ := impliedVol_explains hv
                refine ⟨spec, q, hspec, by simpa using hoption, hquote, by simpa using htwo, forward, iv, hforward, hpos,
                  ?_, ht, hlo, hhi, ?_, hexplains⟩
                · have hminor : (0 : ℝ) < spec.strike.toInt := by
                    by_contra hle
                    exact absurd hstrike (not_lt.mpr (div_nonpos_of_nonpos_of_nonneg (not_lt.mp hle) (by norm_num)))
                  exact_mod_cast hminor
                · rw [Exact.ofMinor_eq]

/-! ### An option at the money -/

/-- Time left at which an option at the money on a forward of 1 is worth 0.01 at a volatility of 0.2, up to `1e-8`. -/
noncomputable def centTime : ℝ := (1504016 / 12000000) ^ 2

/-- Call and put on a strike of 1, both quoted at 0.01. -/
def centQuotes (id : InstrumentId) : QuoteColumns :=
  if id = 0 ∨ id = 1 then { flatQuotes [1751041407955911936] with bid := [1], ask := [1] } else {}

def centSession : SessionData where
  date := ⟨20250627⟩
  registry := ladderRegistry [100]
  instruments := [0, 1]
  quotes := centQuotes
  totalObservations := 2
  eventOrder := []
  timeline := []
  printedBy := SessionData.lookPrintedBy centQuotes

noncomputable def centCtx : Ctx Exact where
  market := centSession.view 1751041407955911936
  portfolio := .empty crossSpreadFill 0 noCosts
  underlying := 0
  spot := -1
  date := ⟨20250627⟩
  utcOffset := kISTOffsetSeconds
  anchor := 0
  rate := some 0
  margin := defaultMarginModel
  calendar := none
  series := []

/-- The value at the money is an area under the bell. -/
theorem value_at_the_money {t sigma : ℝ} (ht : 0 < t) (hsigma : 0 < sigma) :
    value 1 1 t sigma 0 .Call = 2 / √Real.pi * Gauss.area (sigma * √t / 2 / sqrt2) := by
  have hroot : 0 < √t := Real.sqrt_pos.mpr ht
  have hd1 : d1 1 1 t sigma = sigma * √t / 2 := by
    have ht' : t = √t * √t := (Real.mul_self_sqrt ht.le).symm
    unfold d1
    rw [div_one, Real.log_one, div_eq_iff (by positivity)]
    push_cast
    conv_lhs => rw [ht']
    ring
  have hd2 : d2 1 1 t sigma = -(sigma * √t / 2) := by
    unfold d2
    rw [hd1]
    ring
  have htails := Gauss.tail_neg_sub_tail (sigma * √t / 2 / sqrt2)
  unfold value
  rw [if_pos rfl, hd1, hd2]
  unfold cdf
  rw [erfc_eq_tail, erfc_eq_tail, neg_zero, zero_mul, Real.exp_zero, neg_neg, neg_div]
  push_cast
  linear_combination 1 / √Real.pi * htails

theorem pi_bounds : 1.7724538509 < √Real.pi ∧ √Real.pi < 1.77245385091 := by
  constructor
  · apply Real.lt_sqrt_of_sq_lt
    have := Real.pi_gt_d20
    norm_num at this ⊢
    linarith
  · rw [Real.sqrt_lt' (by norm_num)]
    have := Real.pi_lt_d20
    norm_num at this ⊢
    linarith

theorem sqrt_centTime : √centTime = 1504016 / 12000000 := Real.sqrt_sq (by norm_num)

/-- The value at the money between two numbers, from the first terms of the area. -/
theorem value_centTime_bounds {sigma y lo hi : ℝ} (hsigma : 0 < sigma)
    (hy : sigma * (1504016 / 12000000) / 2 / sqrt2 = y) (hlo : lo * 1.77245385091 < 2 * (y - y ^ 3 / 3)) (hlo₀ : 0 ≤ lo)
    (hhi : 2 * (y - y ^ 3 / 3 + y ^ 5 / 10) < hi * 1.7724538509) (hhi₀ : 0 ≤ hi) :
    lo < value 1 1 centTime sigma 0 .Call ∧ value 1 1 centTime sigma 0 .Call < hi := by
  have ht : 0 < centTime := by
    unfold centTime
    norm_num
  obtain ⟨hpi_lo, hpi_hi⟩ := pi_bounds
  have hpi : 0 < √Real.pi := Real.sqrt_pos.mpr Real.pi_pos
  have hy₀ : 0 ≤ y := by
    rw [← hy]
    have := sqrt2_pos
    positivity
  obtain ⟨hbelow, habove⟩ := Gauss.area_bounds hy₀
  rw [value_at_the_money ht hsigma, sqrt_centTime, hy, div_mul_eq_mul_div]
  constructor
  · rw [lt_div_iff₀ hpi]
    have := mul_le_mul_of_nonneg_left hpi_hi.le hlo₀
    linarith
  · rw [div_lt_iff₀ hpi]
    have := mul_le_mul_of_nonneg_left hpi_lo.le hhi₀
    linarith

theorem value_centTime : |value 1 1 centTime (1 / 5) 0 .Call - 1 / 100| < 1 / 100000000 ∧
    value 1 1 centTime (1 / 10000) 0 .Call < 1 / 100 ∧ 1 / 100 < value 1 1 centTime 6 0 .Call := by
  have hsmall := @value_centTime_bounds (1 / 5) (1504016 / 120000000 / sqrt2) (1 / 100 - 1 / 100000000)
    (1 / 100 + 1 / 100000000) (by norm_num) (by ring) (by unfold sqrt2; norm_num) (by norm_num)
    (by unfold sqrt2; norm_num) (by norm_num)
  have hleast := @value_centTime_bounds (1 / 10000) (1504016 / 240000000000 / sqrt2) 0 (1 / 100) (by norm_num)
    (by ring) (by unfold sqrt2; norm_num) (by norm_num) (by unfold sqrt2; norm_num) (by norm_num)
  have hmost := @value_centTime_bounds 6 (1504016 / 4000000 / sqrt2) (1 / 100) 1 (by norm_num)
    (by ring) (by unfold sqrt2; norm_num) (by norm_num) (by unfold sqrt2; norm_num) (by norm_num)
  refine ⟨?_, hleast.2, hmost.1⟩
  rw [abs_lt]
  constructor
  · linarith [hsmall.1]
  · linarith [hsmall.2]

/-- The first guess of the solver is the answer. -/
theorem impliedVol_cent :
    impliedVol (some (1 / 100) : Exact) (some 1) (some 1) (some centTime) (some 0) .Call = some (some (1 / 5)) := by
  have ht : 0 < centTime := by
    unfold centTime
    norm_num
  obtain ⟨hclose, hleast, hmost⟩ := value_centTime
  have hlo : (Double.lit 1 10000 : Exact) = some (1 / 10000) := by
    rw [Exact.lit_eq]
    norm_num
  have hhi : (Double.ofInt 6 : Exact) = some 6 := by
    rw [Exact.ofInt_eq]
    norm_num
  have hstart : (Double.lit 2 10 : Exact) = some (1 / 5) := by
    rw [Exact.lit_eq]
    norm_num
  have hslack : (Double.lit 1 1000000000 : Exact) = some (1 / 1000000000) := by
    rw [Exact.lit_eq]
    norm_num
  have hclose' : (Double.lit 1 100000000 : Exact) = some (1 / 100000000) := by
    rw [Exact.lit_eq]
    norm_num
  have hone : max 1 |(1 / 100 : ℝ)| = 1 := by
    rw [abs_of_pos (by norm_num)]
    norm_num
  have hlow : intrinsic (some 1 : Exact) (some 1) (some 0) (some centTime) .Call = some 0 := by
    simp [intrinsic]
  unfold impliedVol
  have hargs : (!Double.lt Double.zero (some (1 / 100) : Exact) || !Double.lt Double.zero (some 1 : Exact) ||
      !Double.lt Double.zero (some 1 : Exact) || !Double.lt Double.zero (some centTime : Exact)) = false := by
    simp [ht]
  rw [hargs, if_neg Bool.false_ne_true]
  dsimp only
  rw [hlow, hlo, hhi, hstart, hslack, black76Price_eq one_pos one_pos ht (by norm_num),
    black76Price_eq one_pos one_pos ht (by norm_num), if_pos rfl]
  simp only [Exact.neg_some, Exact.mul_some, Exact.exp_some, Exact.sub_some, Exact.add_some, Exact.lt_some,
    Exact.one_eq, abs_some, Exact.max_some, le_some, hone]
  have hrange : (decide (1 / 100 < (0 : ℝ) - 1 / 1000000000) ||
      decide (Real.exp (-0 * centTime) * 1 + 1 / 1000000000 < 1 / 100)) = false := by
    norm_num
  have hbounds : (decide (value 1 1 centTime 6 0 .Call + 1 / 1000000000 * 1 < 1 / 100) ||
      decide (1 / 100 < value 1 1 centTime (1 / 10000) 0 .Call - 1 / 1000000000 * 1)) = false := by
    rw [Bool.or_eq_false_iff, decide_eq_false_iff_not, decide_eq_false_iff_not]
    constructor <;> linarith
  rw [hrange, if_neg Bool.false_ne_true, hbounds, if_neg Bool.false_ne_true, decide_eq_false (not_le.mpr hleast),
    if_neg Bool.false_ne_true]
  unfold impliedVolLoop
  rw [black76Price_eq one_pos one_pos ht (by norm_num)]
  dsimp only
  rw [Exact.sub_some, abs_some, hclose', Exact.lt_some, decide_eq_true hclose, if_pos rfl]

theorem centCtx_years : years centCtx.now ⟨20250703⟩ centCtx.utcOffset = centTime := by
  have hend : timestampOf ⟨20250703⟩ kExpirySecondOfDay centCtx.utcOffset - centCtx.now = 495392044088064 := by
    decide +kernel
  unfold years centTime
  rw [hend]
  norm_num

theorem centCtx_forward : centCtx.forward ⟨20250703⟩ = some (some 1) := by
  have ht : 0 < years centCtx.now ⟨20250703⟩ centCtx.utcOffset := by
    rw [centCtx_years]
    unfold centTime
    norm_num
  have hstrikes : (ChainView.new centCtx ⟨20250703⟩).strikes = [100] := by decide +kernel
  have hmids : Parity.midsAt centCtx ⟨20250703⟩ [100] 0 = some (1, 1) := by decide +kernel
  have hparity : KeepsParity centCtx ⟨20250703⟩ 0 1 := by
    intro i d hd
    rw [hstrikes] at hd ⊢
    rw [Parity.parityAt_eq] at hd
    cases i with
    | zero =>
        rw [hmids, Option.map_some, Option.some.injEq] at hd
        have hstrike : ([100].getD 0 0 : Int32).toInt = 100 := rfl
        rw [← hd, hstrike, Exact.ofMinor_eq, Exact.sub_some]
        norm_num
    | succ i => simp [Parity.midsAt] at hd
  have h := forward_recovers rfl one_pos ht hparity
  rw [hstrikes] at h
  have hsome := h.answers.mpr ⟨0, by decide, by decide, by decide, by rw [Parity.parityAt_eq, hmids]; rfl⟩
  obtain ⟨f, hf⟩ := Option.isSome_iff_exists.mp hsome
  rw [hf, h.right f hf]

theorem centCtx_greeks : ∃ g, centCtx.greeks 0 = .ok (some g) := by
  obtain ⟨spec, hspec, htest⟩ := Run.exists_of_succeeds
    (fun spec : InstrumentSpec => spec.isOption && spec.expiry == ⟨20250703⟩ && spec.strike == 100 && spec.right == .Call)
    (centCtx.registry.spec 0) (by decide +kernel)
  have hquote : (centCtx.market.current 0).any (fun q => q.twoSided && q.mid == 1) = true := by decide +kernel
  obtain ⟨q, hq, htwo⟩ := (Option.any_eq_true _ _).mp hquote
  simp only [Bool.and_eq_true, beq_iff_eq] at htest htwo
  obtain ⟨⟨⟨hoption, hexpiry⟩, hstrike⟩, hright⟩ := htest
  have ht : 0 < centTime := by
    unfold centTime
    norm_num
  unfold Ctx.greeks
  rw [hspec, Run.ok_bind]
  simp only [hoption, hq, htwo.1, htwo.2, hexpiry, hstrike, hright, centCtx_forward, Bool.not_true, Bool.false_eq_true,
    if_false]
  have hmid : (Double.ofMinor 1 : Exact) = some (1 / 100) := by
    rw [Exact.ofMinor_eq]
    norm_num
  have hunit : (Double.ofMinor (100 : Int32).toInt : Exact) = some 1 := by
    rw [show (100 : Int32).toInt = 100 by rfl, Exact.ofMinor_eq]
    norm_num
  have hrate : centCtx.rate = some 0 := rfl
  rw [timeToExpiry_eq, centCtx_years, hmid, hunit, hrate]
  unfold impliedGreeks
  rw [impliedVol_cent]
  have hlive : (!Double.lt (Double.zero : Exact) (some centTime)) = false := by
    simp [ht]
  rw [hlive]
  exact ⟨_, rfl⟩

/-- A call at the money, quoted at 0.01. -/
theorem greeks_explain_the_mid_cent :
    ∃ g, centCtx.greeks 0 = .ok (some g) ∧ ∃ iv : ℝ, g.iv = some iv ∧ 1 / 10000 ≤ iv ∧ iv ≤ 6 := by
  obtain ⟨g, hg⟩ := centCtx_greeks
  obtain ⟨_, _, _, _, _, _, _, iv, _, _, _, _, hlo, hhi, hset, _⟩ := greeks_explain_the_mid rfl hg
  refine ⟨g, hg, iv, ?_, hlo, hhi⟩
  rw [hset]
  unfold black76Greeks
  split <;> rfl

end Pricing

end Volforge
