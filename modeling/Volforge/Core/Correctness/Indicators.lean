import Volforge.Core.Exact
import Volforge.Core.Indicators
import Volforge.Lib.Run
import Mathlib.Algebra.BigOperators.Intervals
import Mathlib.Algebra.Order.BigOperators.Ring.Finset

/-!
# `Core.Correctness.Indicators` — indicators and their definitions

The definitions are sums over the last `p` closes. `sma` keeps its sum from bar to bar, the bands add each
window up anew, and both equal the definition at every bar that has `p` closes. The loop of `stdev` ends where
it should skip: it never leaves the warm-up of a window of two or more.
-/

namespace Volforge

open Finset

/-! ## Statistics of the last `p` values -/

namespace Exact

/-- The mean of the last `p` values up to `i`. -/
noncomputable def mean (close : ℕ → ℝ) (p i : ℕ) : ℝ := (∑ j ∈ Ico (i + 1 - p) (i + 1), close j) / p

/-- The population variance of the last `p` values up to `i`. -/
noncomputable def variance (close : ℕ → ℝ) (p i : ℕ) : ℝ :=
  (∑ j ∈ Ico (i + 1 - p) (i + 1), (close j - mean close p i) ^ 2) / p

noncomputable def deviation (close : ℕ → ℝ) (p i : ℕ) : ℝ := √(variance close p i)

theorem variance_nonneg (close : ℕ → ℝ) (p i : ℕ) : 0 ≤ variance close p i := by
  apply div_nonneg _ (Nat.cast_nonneg p)
  exact sum_nonneg (fun j _ => sq_nonneg _)

theorem deviation_nonneg (close : ℕ → ℝ) (p i : ℕ) : 0 ≤ deviation close p i := Real.sqrt_nonneg _

theorem deviation_sq (close : ℕ → ℝ) (p i : ℕ) : deviation close p i ^ 2 = variance close p i :=
  Real.sq_sqrt (variance_nonneg close p i)

/-- A sliding sum: the newest value comes in, and the oldest of a full window goes out. -/
theorem sum_window_succ (close : ℕ → ℝ) {p : ℕ} (hp : 0 < p) (i : ℕ) :
    ∑ j ∈ Ico (i + 1 - p) (i + 1), close j =
      ∑ j ∈ Ico (i - p) i, close j + close i - (if p ≤ i then close (i - p) else 0) := by
  rw [← sum_Ico_succ_top (Nat.sub_le i p)]
  by_cases hpi : p ≤ i
  · have hlt : i - p < i + 1 := by omega
    have hnext : i - p + 1 = i + 1 - p := by omega
    rw [if_pos hpi, sum_eq_sum_Ico_succ_bot hlt, hnext]
    ring
  · have hstart : i + 1 - p = i - p := by omega
    rw [if_neg hpi, hstart]
    ring

/-- A stretch of a list, added up. -/
theorem sum_map_take_drop (f : ℝ → ℝ) {xs : List ℝ} {a b : ℕ} (hab : a ≤ b) (hb : b ≤ xs.length) :
    (((xs.take b).drop a).map f).sum = ∑ j ∈ Ico a b, f (xs.getD j 0) := by
  induction b, hab using Nat.le_induction with
  | base => simp
  | succ b hab ih =>
      have hlt : b < xs.length := hb
      have hget : xs.getD b 0 = xs[b] := by simp [List.getD_eq_getElem?_getD, hlt]
      rw [List.take_succ_eq_append_getElem hlt, List.drop_append_of_le_length (by rw [List.length_take]; omega),
        List.map_append, List.sum_append, ih (Nat.le_of_lt hlt), sum_Ico_succ_top hab, hget]
      simp

theorem foldl_add_some (f : ℝ → ℝ) (ws : List ℝ) (a : ℝ) :
    (ws.map some).foldl (fun (acc : Exact) x => acc + x.map f) (some a) = some (a + (ws.map f).sum) := by
  induction ws generalizing a with
  | nil => simp
  | cons w ws ih =>
      rw [List.map_cons, List.foldl_cons, Option.map_some, add_some, ih, List.map_cons, List.sum_cons]
      ring_nf

end Exact

/-! ## The loops -/

/-- The close of a bar, in rupees. -/
noncomputable def BarSeries.closeOf (s : BarSeries) (i : ℕ) : ℝ := (((s.bars.map (·.close)).getD i 0 : Int) : ℝ) / 100

/-- The values of an indicator that is `v` at every bar with `period` closes, and nothing before. -/
noncomputable def valuesOf (period n : ℕ) (v : ℕ → ℝ) : List Exact :=
  (List.range n).map (fun i => if period ≤ i + 1 then some (v i) else none)

section Loops

variable (xs : List ℝ) {period : ℕ}

/-- The sum that `sma` carries is that of the window before the bar. -/
theorem smaLoop_exact (hp : 0 < period) {rest : List ℝ} {i : ℕ} (hrest : xs.drop i = rest) :
    smaLoop period (xs.map some) i (some (∑ j ∈ Ico (i - period) i, xs.getD j 0)) (rest.map some) =
      (List.range' i rest.length).map (fun i =>
        if period ≤ i + 1 then some (Exact.mean (fun j => xs.getD j 0) period i) else none) := by
  induction rest generalizing i with
  | nil => rfl
  | cons x rest ih =>
      have hlt : i < xs.length := by
        have hlen := congrArg List.length hrest
        rw [List.length_drop, List.length_cons] at hlen
        omega
      have hx : x = xs.getD i 0 := by
        have hhead := List.drop_eq_getElem_cons hlt
        rw [hrest] at hhead
        rw [List.getD_eq_getElem?_getD, List.getElem?_eq_getElem hlt, (List.cons.inj hhead).1]
        rfl
      have hnext : xs.drop (i + 1) = rest := by
        rw [← List.drop_drop, hrest]
        rfl
      -- what the loop carries on to the next bar is the sum of that bar's window
      have hsum : (if period ≤ i then
          ((some (∑ j ∈ Ico (i - period) i, xs.getD j 0) : Exact) + some x) -
            (xs.map some).getD (i - period) Double.zero
          else (some (∑ j ∈ Ico (i - period) i, xs.getD j 0) : Exact) + some x) =
          some (∑ j ∈ Ico (i + 1 - period) (i + 1), xs.getD j 0) := by
        rw [Exact.sum_window_succ _ hp, ← hx, Exact.add_some]
        by_cases hpi : period ≤ i
        · have hold : (xs.map some).getD (i - period) (Double.zero : Exact) = some (xs.getD (i - period) 0) := by
            rw [Exact.zero_eq, List.getD_eq_getElem?_getD, List.getElem?_map, List.getD_eq_getElem?_getD]
            cases xs[i - period]? with
            | none => rfl
            | some y => rfl
          rw [if_pos hpi, if_pos hpi, hold, Exact.sub_some]
        · rw [if_neg hpi, if_neg hpi, sub_zero]
      have hperiod : (period : ℝ) ≠ 0 := by exact_mod_cast hp.ne'
      have hcast : ((period : Int) : ℝ) = (period : ℝ) := Int.cast_natCast period
      rw [List.map_cons, smaLoop, hsum, ih hnext, List.length_cons, List.range'_succ, List.map_cons]
      congr 1
      rw [Exact.ofInt_eq, hcast, Exact.div_some _ hperiod]
      rfl

theorem smaValues_exact (hp : 0 < period) :
    smaValues period (xs.map some) = valuesOf period xs.length (Exact.mean (fun j => xs.getD j 0) period) := by
  have h := smaLoop_exact xs hp (List.drop_zero (l := xs))
  unfold smaValues valuesOf
  rw [List.range_eq_range']
  simpa using h

/-- The statistics of one window, added up anew. -/
theorem windowMean_exact (hp : 0 < period) {i : ℕ} (hi : i < xs.length) :
    windowMean period (((xs.take (i + 1)).drop (i + 1 - period)).map some) =
      some (Exact.mean (fun j => xs.getD j 0) period i) := by
  have hperiod : (period : ℝ) ≠ 0 := by exact_mod_cast hp.ne'
  have hcast : ((period : Int) : ℝ) = (period : ℝ) := Int.cast_natCast period
  have hfold := Exact.foldl_add_some id ((xs.take (i + 1)).drop (i + 1 - period)) 0
  simp only [Option.map_id, id_eq, zero_add] at hfold
  unfold windowMean
  rw [Exact.zero_eq, hfold, Exact.sum_map_take_drop id (Nat.sub_le _ _) hi, Exact.ofInt_eq, hcast,
    Exact.div_some _ hperiod]
  rfl

theorem windowDeviation_exact (hp : 0 < period) {i : ℕ} (hi : i < xs.length) :
    windowDeviation period (((xs.take (i + 1)).drop (i + 1 - period)).map some) =
      some (Exact.deviation (fun j => xs.getD j 0) period i) := by
  have hperiod : (period : ℝ) ≠ 0 := by exact_mod_cast hp.ne'
  have hcast : ((period : Int) : ℝ) = (period : ℝ) := Int.cast_natCast period
  set m := Exact.mean (fun j => xs.getD j 0) period i with hm
  have hfold := Exact.foldl_add_some (fun x => (x - m) ^ 2) ((xs.take (i + 1)).drop (i + 1 - period)) 0
  rw [zero_add, Exact.sum_map_take_drop _ (Nat.sub_le _ _) hi] at hfold
  -- the loop adds the squares of the deviations from the mean of the window
  have hstep : (fun (acc : Exact) (c : Exact) => let d := c - some m; acc + d * d) =
      fun acc c => acc + c.map (fun x => (x - m) ^ 2) := by
    funext acc c
    cases c with
    | none => rfl
    | some x =>
        show acc + (some (x - m) : Exact) * some (x - m) = acc + some ((x - m) ^ 2)
        rw [Exact.mul_some, sq]
  have hacc : (((xs.take (i + 1)).drop (i + 1 - period)).map some).foldl
      (fun (acc : Exact) (c : Exact) => let d := c - some m; acc + d * d) Double.zero =
      some (∑ j ∈ Ico (i + 1 - period) (i + 1), (xs.getD j 0 - m) ^ 2) := by
    rw [hstep, Exact.zero_eq]
    exact hfold
  unfold windowDeviation
  rw [windowMean_exact xs hp hi]
  show Double.sqrt ((((xs.take (i + 1)).drop (i + 1 - period)).map some).foldl
    (fun (acc : Exact) (c : Exact) => let d := c - some m; acc + d * d) Double.zero / Double.ofInt period) = _
  rw [hacc, Exact.ofInt_eq, hcast, Exact.div_some _ hperiod]
  exact Exact.sqrt_some (Exact.variance_nonneg _ period i)

end Loops

/-- A statistic of each window is right at every bar when it is right on the window of each. -/
theorem windowValues_exact (xs : List ℝ) {period : ℕ} {stat : List Exact → Exact} {v : ℕ → ℝ}
    (hstat : ∀ i < xs.length,
      stat (((xs.take (i + 1)).drop (i + 1 - period)).map some) = some (v i)) :
    windowValues period stat (xs.map some) = valuesOf period xs.length v := by
  unfold windowValues valuesOf
  rw [List.length_map]
  apply List.map_congr_left
  intro i hi
  by_cases hshort : i + 1 < period
  · rw [if_pos hshort, if_neg (not_le.mpr hshort)]
    rfl
  · rw [if_neg hshort, if_pos (not_lt.mp hshort), ← List.map_take, ← List.map_drop, hstat i (List.mem_range.mp hi)]

/-- **The loop of `stdev` ends at the first bar** when a window needs two closes or more. -/
theorem stdevValues_eq_nan {period : ℕ} (hp : 1 < period) (xs : List Exact) :
    stdevValues period xs = xs.map (fun _ => none) := by
  cases xs with
  | nil => rfl
  | cons x xs => exact if_pos hp

/-- A window of one close is always there. -/
theorem stdevLoop_one (closes rest : List Exact) (i : ℕ) :
    stdevLoop 1 closes i rest =
      (List.range' i rest.length).map (fun j => windowDeviation 1 ((closes.take (j + 1)).drop (j + 1 - 1))) := by
  induction rest generalizing i with
  | nil => rfl
  | cons c rest ih =>
      have hnever : ¬ i + 1 < 1 := by omega
      rw [stdevLoop, if_neg hnever, ih, List.length_cons, List.range'_succ, List.map_cons]

/-! ## The indicators -/

/-- An indicator of the series `s` that is `v` at every bar with `period` closes up to it, and has no value
    before; read at an instant, it answers for the bars that have closed. -/
structure BarIndicator.Gives (ind : BarIndicator Exact) (s : BarSeries) (period : ℕ) (v : ℕ → ℝ) : Prop where
  bars : ind.bars = s
  values : ind.values = valuesOf period s.bars.length v
  valueAt : ∀ now k back, 0 ≤ back → s.knownCount now = .ok k →
    ind.valueAt now back = .ok
      (if back.toNat < k ∧ period ≤ k - back.toNat then some (some (v (k - 1 - back.toNat))) else none)

/-- The indicators of a series are what their names say, for a period and a width of the bands. -/
structure BarSeries.IndicatorsDefined (s : BarSeries) (p : Int) (k : ℝ) : Prop where
  sma : ∃ ind, (IndicatorKind.sma p).build s = .ok ind ∧ ind.Gives s p.toNat (Exact.mean s.closeOf p.toNat)
  stdev : ∃ ind, ∃ sd : ℕ → ℝ, (IndicatorKind.stdev p).build s = .ok ind ∧ ind.Gives s p.toNat sd ∧
    ∀ i, 0 ≤ sd i ∧ sd i ^ 2 = Exact.variance s.closeOf p.toNat i
  middle : ∃ ind, (IndicatorKind.bollingerMiddle p).build s = .ok ind ∧
    ind.Gives s p.toNat (Exact.mean s.closeOf p.toNat)
  upper : ∃ ind, (IndicatorKind.bollingerUpper p (some k)).build s = .ok ind ∧
    ind.Gives s p.toNat (fun i => Exact.mean s.closeOf p.toNat i + k * Exact.deviation s.closeOf p.toNat i)
  lower : ∃ ind, (IndicatorKind.bollingerLower p (some k)).build s = .ok ind ∧
    ind.Gives s p.toNat (fun i => Exact.mean s.closeOf p.toNat i - k * Exact.deviation s.closeOf p.toNat i)

theorem BarSeries.knownCount_le {s : BarSeries} {now : Timestamp} {k : ℕ} (h : s.knownCount now = .ok k) :
    k ≤ s.bars.length := by
  unfold knownCount at h
  split_ifs at h with hvalid
  cases h
  exact (List.takeWhile_sublist _).length_le

/-- What is read at an instant follows from the values. -/
theorem BarIndicator.gives_of_values {ind : BarIndicator Exact} {s : BarSeries} {period : ℕ} {v : ℕ → ℝ}
    (hbars : ind.bars = s) (hvalues : ind.values = valuesOf period s.bars.length v) :
    ind.Gives s period v := by
  refine ⟨hbars, hvalues, ?_⟩
  intro now k back hback hk
  have hkn := BarSeries.knownCount_le hk
  unfold BarIndicator.valueAt
  rw [if_neg (not_lt.mpr hback), hbars, hk]
  show (if k = 0 then _ else _) = _
  by_cases hlt : back.toNat < k
  · have hk₀ : k ≠ 0 := by omega
    have hi : k - 1 - back.toNat < s.bars.length := by omega
    have hread : ind.values[k - 1 - back.toNat]? =
        some (if period ≤ k - 1 - back.toNat + 1 then some (v (k - 1 - back.toNat)) else none) := by
      rw [hvalues, valuesOf, List.getElem?_map, List.getElem?_range hi]
      rfl
    have hindex : k - 1 - back.toNat + 1 = k - back.toNat := by omega
    rw [if_neg hk₀, if_neg (not_le.mpr hlt), hread, hindex]
    by_cases hp : period ≤ k - back.toNat
    · rw [if_pos hp, if_pos ⟨hlt, hp⟩]
      rfl
    · rw [if_neg hp, if_neg (fun h => hp h.2)]
      rfl
  · have hnone : ¬ (back.toNat < k ∧ period ≤ k - back.toNat) := fun h => hlt h.1
    rw [if_neg hnone]
    by_cases hk₀ : k = 0
    · rw [if_pos hk₀]
      rfl
    · rw [if_neg hk₀, if_pos (not_lt.mp hlt)]
      rfl

section Defined

variable (s : BarSeries) {p : Int}

/-- The closes of a series as numbers. -/
noncomputable def BarSeries.closeList : List ℝ := s.bars.map (fun b => (b.close : ℝ) / 100)

theorem BarSeries.closesOf_eq : (closesOf s : List Exact) = s.closeList.map some := by
  unfold closesOf BarSeries.closeList
  rw [List.map_map]
  exact List.map_congr_left (fun b _ => Exact.ofMinor_eq b.close)

theorem BarSeries.closeList_getD (i : ℕ) : s.closeList.getD i 0 = s.closeOf i := by
  unfold BarSeries.closeList BarSeries.closeOf
  rw [List.getD_eq_getElem?_getD, List.getD_eq_getElem?_getD, List.getElem?_map, List.getElem?_map]
  cases s.bars[i]? with
  | none => simp
  | some b => rfl

/-- An indicator is built when its period is positive, and gives what its values are. -/
theorem IndicatorKind.build_gives {kind : IndicatorKind Exact} {s : BarSeries} {v : ℕ → ℝ} (hp : 1 ≤ kind.period)
    (hvalues : kind.values (closesOf s) = valuesOf kind.period.toNat s.bars.length v) :
    ∃ ind, kind.build s = .ok ind ∧ ind.Gives s kind.period.toNat v := by
  refine ⟨⟨s, kind.values (closesOf s)⟩, if_neg (by omega), ?_⟩
  exact BarIndicator.gives_of_values rfl hvalues

theorem BarSeries.length_closeList : s.closeList.length = s.bars.length := List.length_map ..

theorem BarSeries.closeList_eq : (fun j => s.closeList.getD j 0) = s.closeOf := funext s.closeList_getD

theorem sma_defined (hp : 1 ≤ p) :
    (IndicatorKind.sma p).values (closesOf s) = valuesOf p.toNat s.bars.length (Exact.mean s.closeOf p.toNat) := by
  have hpos : 0 < p.toNat := by omega
  have h := smaValues_exact s.closeList hpos
  rw [s.length_closeList, s.closeList_eq] at h
  rw [s.closesOf_eq]
  exact h

theorem windowMean_defined (hp : 1 ≤ p) {i : ℕ} (hi : i < s.closeList.length) :
    windowMean p.toNat (((s.closeList.take (i + 1)).drop (i + 1 - p.toNat)).map some) =
      some (Exact.mean s.closeOf p.toNat i) := by
  rw [windowMean_exact s.closeList (by omega) hi, s.closeList_eq]

theorem windowDeviation_defined (hp : 1 ≤ p) {i : ℕ} (hi : i < s.closeList.length) :
    windowDeviation p.toNat (((s.closeList.take (i + 1)).drop (i + 1 - p.toNat)).map some) =
      some (Exact.deviation s.closeOf p.toNat i) := by
  rw [windowDeviation_exact s.closeList (by omega) hi, s.closeList_eq]

theorem middle_defined (hp : 1 ≤ p) :
    (IndicatorKind.bollingerMiddle p).values (closesOf s) =
      valuesOf p.toNat s.bars.length (Exact.mean s.closeOf p.toNat) := by
  rw [s.closesOf_eq, ← s.length_closeList]
  exact windowValues_exact _ (fun i hi => windowMean_defined s hp hi)

theorem upper_defined (hp : 1 ≤ p) (k : ℝ) :
    (IndicatorKind.bollingerUpper p (some k)).values (closesOf s) = valuesOf p.toNat s.bars.length
      (fun i => Exact.mean s.closeOf p.toNat i + k * Exact.deviation s.closeOf p.toNat i) := by
  show windowValues p.toNat (fun w => windowMean p.toNat w + some k * windowDeviation p.toNat w) _ = _
  rw [s.closesOf_eq, ← s.length_closeList]
  apply windowValues_exact
  intro i hi
  rw [windowMean_defined s hp hi, windowDeviation_defined s hp hi, Exact.mul_some, Exact.add_some]

theorem lower_defined (hp : 1 ≤ p) (k : ℝ) :
    (IndicatorKind.bollingerLower p (some k)).values (closesOf s) = valuesOf p.toNat s.bars.length
      (fun i => Exact.mean s.closeOf p.toNat i - k * Exact.deviation s.closeOf p.toNat i) := by
  show windowValues p.toNat (fun w => windowMean p.toNat w - some k * windowDeviation p.toNat w) _ = _
  rw [s.closesOf_eq, ← s.length_closeList]
  apply windowValues_exact
  intro i hi
  rw [windowMean_defined s hp hi, windowDeviation_defined s hp hi, Exact.mul_some, Exact.sub_some]

/-- `stdev` is right where nothing is due before the second bar of a window: with a window of one close, and on a
    series that is too short for its window. -/
theorem stdev_defined (hp : 1 ≤ p) (hcond : p = 1 ∨ (s.bars.length : Int) < p) :
    (IndicatorKind.stdev p).values (closesOf s) =
      valuesOf p.toNat s.bars.length (Exact.deviation s.closeOf p.toNat) := by
  show stdevValues p.toNat (closesOf s) = _
  rw [s.closesOf_eq]
  by_cases hone : p = 1
  · rw [hone]
    show stdevLoop 1 _ 0 _ = _
    rw [stdevLoop_one, List.length_map, ← List.range_eq_range', ← s.length_closeList]
    unfold valuesOf
    apply List.map_congr_left
    intro i hi
    have hdue : Int.toNat 1 ≤ i + 1 := by omega
    rw [if_pos hdue, ← List.map_take, ← List.map_drop]
    exact windowDeviation_defined s le_rfl (List.mem_range.mp hi)
  · -- no bar ends a whole window
    have hshort : (s.bars.length : Int) < p := hcond.resolve_left hone
    have hnone : ∀ i ∈ List.range s.closeList.length,
        (if p.toNat ≤ i + 1 then some (Exact.deviation s.closeOf p.toNat i) else none : Exact) = none := by
      intro i hi
      have hi : i < s.closeList.length := List.mem_range.mp hi
      rw [s.length_closeList] at hi
      exact if_neg (by omega)
    rw [stdevValues_eq_nan (by omega), ← s.length_closeList]
    unfold valuesOf
    rw [List.map_congr_left hnone, List.map_const', List.map_const', List.length_map, List.length_range]

/-- A window of two closes or more, and a series that fills it: the first value due is missing. -/
theorem stdev_missing {ind : BarIndicator Exact} {sd : ℕ → ℝ} (hp : 1 < p) (hlen : p ≤ s.bars.length)
    (hbuild : (IndicatorKind.stdev p).build s = .ok ind) : ¬ ind.Gives s p.toNat sd := by
  intro h
  have hperiod : ¬ (IndicatorKind.stdev p : IndicatorKind Exact).period ≤ 0 := by
    show ¬ p ≤ 0
    omega
  unfold IndicatorKind.build at hbuild
  rw [if_neg hperiod] at hbuild
  cases hbuild
  have hvalues : stdevValues p.toNat (closesOf s) = valuesOf p.toNat s.bars.length sd := h.values
  have hi : p.toNat - 1 < s.bars.length := by omega
  have hdue : p.toNat ≤ p.toNat - 1 + 1 := by omega
  have hread := congrArg (·[p.toNat - 1]?) hvalues
  rw [stdevValues_eq_nan (by omega), valuesOf, List.getElem?_map, List.getElem?_map, List.getElem?_range hi,
    s.closesOf_eq, List.getElem?_map, List.getElem?_eq_getElem (by rw [s.length_closeList]; exact hi)] at hread
  simp only [Option.map_some, if_pos hdue, Option.some.injEq, reduceCtorEq] at hread

/-- **Indicators equal their definitions, in exact arithmetic, precisely when no `stdev` is due.** For every series
    and period, `sma` is the mean of the last `p` closes and the bands are `k` population deviations around it, at
    every bar with `p` closes and at none before. `stdev` is so too with a window of one close, or when the series is
    shorter than the window; otherwise it has no value at all. -/
theorem indicators_defined_iff (s : BarSeries) (p : Int) (hp : 1 ≤ p) (k : ℝ) :
    s.IndicatorsDefined p k ↔ p = 1 ∨ (s.bars.length : Int) < p := by
  constructor
  · intro h
    obtain ⟨ind, sd, hbuild, hgives, _⟩ := h.stdev
    by_contra hcond
    rw [not_or, not_lt] at hcond
    exact stdev_missing s (lt_of_le_of_ne hp (Ne.symm hcond.1)) hcond.2 hbuild hgives
  · intro hcond
    have hstdev : ∃ ind, (IndicatorKind.stdev p).build s = .ok ind ∧
        ind.Gives s p.toNat (Exact.deviation s.closeOf p.toNat) :=
      IndicatorKind.build_gives hp (stdev_defined s hp hcond)
    obtain ⟨ind, hbuild, hgives⟩ := hstdev
    exact {
      sma := IndicatorKind.build_gives hp (sma_defined s hp)
      stdev := ⟨ind, Exact.deviation s.closeOf p.toNat, hbuild, hgives,
        fun i => ⟨Exact.deviation_nonneg _ _ i, Exact.deviation_sq _ _ i⟩⟩
      middle := IndicatorKind.build_gives hp (middle_defined s hp)
      upper := IndicatorKind.build_gives hp (upper_defined s hp k)
      lower := IndicatorKind.build_gives hp (lower_defined s hp k) }

/-- Two closes: a window of three is never full, and a window of two is full at the second one. -/
theorem indicators_defined_iff_two :
    ({ bars := [{ close := 10000 }, { close := 10100 }] } : BarSeries).IndicatorsDefined 3 2 ∧
      ¬ ({ bars := [{ close := 10000 }, { close := 10100 }] } : BarSeries).IndicatorsDefined 2 2 := by
  constructor
  · exact (indicators_defined_iff _ 3 (by decide) 2).mpr (.inr (by decide))
  · intro h
    have hcond := (indicators_defined_iff _ 2 (by decide) 2).mp h
    exact absurd hcond (by decide)

/-- **A deviation that never comes.** Over three bars, a window of two closes is full at the second, and `stdev` has
    no value there. -/
theorem stdev_of_two_closes_is_missing :
    ∃ ind : BarIndicator Exact,
      (IndicatorKind.stdev 2).build { bars := [{ close := 100 }, { close := 300 }, { close := 100 }] } = .ok ind ∧
      ind.values = [none, none, none] ∧
      ¬ ({ bars := [{ close := 100 }, { close := 300 }, { close := 100 }] } : BarSeries).IndicatorsDefined 2 2 := by
  refine ⟨_, rfl, stdevValues_eq_nan (by decide) _, ?_⟩
  intro h
  obtain ⟨ind, sd, hbuild, hgives, _⟩ := h.stdev
  exact stdev_missing _ (by decide) (by decide) hbuild hgives

end Defined

end Volforge
