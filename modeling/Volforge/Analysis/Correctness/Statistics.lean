import Volforge.Core.Correctness.DailyAccounts
import Volforge.Core.Correctness.MarginCover
import Volforge.Analysis.Correctness.Drawdown

/-!
# `Analysis.Correctness.Statistics` — the statistics of a run agree with one another

`analyze` recomputes everything from the equity curve, next to the totals it copies. Both are about the same run: the
daily profits lead to the final equity, the averages weigh up to it, and the ratios have its sign.

## Contents
- **Streaks.** `Streaks`, the greatest length of a losing streak.
- **Wins and losses.** What they leave, add up to and are bounded by.
- **Volatility.** When it vanishes.
- **Main result.** `statistics_agree`.
-/

namespace Volforge

namespace Analysis

open Falls

variable {K D : Type} [Field K] [LinearOrder K]

/-! ## Streaks -/

/-- The losing streak the profits end with, and the longest one among them. -/
structure Streaks (seen : List K) (st : Nat × Nat) : Prop where
  current : IsGreatest {n | ∃ s, s <:+ seen ∧ (∀ x ∈ s, x < 0) ∧ s.length = n} st.1
  longest : IsGreatest {n | ∃ s, s <:+: seen ∧ (∀ x ∈ s, x < 0) ∧ s.length = n} st.2

theorem streaks_nil : Streaks ([] : List K) (0, 0) := by
  constructor
  · refine ⟨⟨[], List.nil_suffix, nofun, rfl⟩, ?_⟩
    rintro n ⟨s, hs, _, rfl⟩
    simp [List.suffix_nil.mp hs]
  · refine ⟨⟨[], List.nil_infix, nofun, rfl⟩, ?_⟩
    rintro n ⟨s, hs, _, rfl⟩
    simp [List.infix_nil.mp hs]

/-- The step lemma of the streaks. -/
theorem Streaks.concat {seen : List K} {st : Nat × Nat} (h : Streaks seen st) (x : K) :
    Streaks (seen ++ [x]) (losingStreak st x) := by
  have hcurrent : IsGreatest {n | ∃ s, s <:+ seen ++ [x] ∧ (∀ y ∈ s, y < 0) ∧ s.length = n}
      (losingStreak st x).1 := by
    unfold losingStreak
    dsimp only
    split
    case isTrue hx =>
      obtain ⟨⟨t, ht, hneg, hlen⟩, hmost⟩ := h.current
      refine ⟨⟨t ++ [x], ?_, ?_, ?_⟩, ?_⟩
      · exact List.suffix_concat_iff.mpr (Or.inr ⟨t, rfl, ht⟩)
      · intro y hy
        rcases List.mem_append.mp hy with hy | hy
        · exact hneg y hy
        · rw [List.mem_singleton.mp hy]
          exact hx
      · simp [hlen]
      · rintro n ⟨s, hs, hneg', rfl⟩
        rcases List.suffix_concat_iff.mp hs with rfl | ⟨t', rfl, ht'⟩
        · exact Nat.zero_le _
        · have hle := hmost ⟨t', ht', fun y hy => hneg' y (List.mem_append_left _ hy), rfl⟩
          simpa using hle
    case isFalse hx =>
      refine ⟨⟨[], List.nil_suffix, nofun, rfl⟩, ?_⟩
      rintro n ⟨s, hs, hneg, rfl⟩
      rcases List.suffix_concat_iff.mp hs with rfl | ⟨t, rfl, _⟩
      · exact le_refl 0
      · exact absurd (hneg x (by simp)) hx
  refine ⟨hcurrent, ?_⟩
  obtain ⟨⟨s, hs, hsneg, hslen⟩, hmost⟩ := h.longest
  obtain ⟨⟨t, ht, htneg, htlen⟩, hends⟩ := hcurrent
  constructor
  · rcases le_total st.2 (losingStreak st x).1 with hle | hle
    · refine ⟨t, ht.isInfix, htneg, ?_⟩
      rw [htlen]
      exact (max_eq_right hle).symm
    · refine ⟨s, List.infix_concat_iff.mpr (Or.inr hs), hsneg, ?_⟩
      rw [hslen]
      exact (max_eq_left hle).symm
  · rintro n ⟨u, hu, huneg, rfl⟩
    rcases List.infix_concat_iff.mp hu with hu | hu
    · exact le_max_of_le_right (hends ⟨u, hu, huneg, rfl⟩)
    · exact le_max_of_le_left (hmost ⟨u, hu, huneg, rfl⟩)

theorem streaks_foldl (xs : List K) : Streaks xs (xs.foldl losingStreak (0, 0)) := by
  induction xs using List.reverseRecOn with
  | nil => exact streaks_nil
  | append_singleton xs x ih =>
      rw [List.foldl_append]
      exact ih.concat x

/-! ## Wins and losses -/

/-- Every session wins, loses or does neither. -/
theorem length_wins_losses (xs : List K) :
    (xs.filter (0 < ·)).length + (xs.filter (· < 0)).length + xs.countP (· = 0) = xs.length := by
  induction xs with
  | nil => rfl
  | cons x xs ih =>
      rcases lt_trichotomy x 0 with hx | rfl | hx
      · simp [hx, hx.le.not_gt, hx.ne]
        omega
      · simp
        omega
      · simp [hx, hx.le.not_gt, hx.ne']
        omega

variable [IsStrictOrderedRing K]

omit [IsStrictOrderedRing K] in
theorem sum_wins_losses (xs : List K) : (xs.filter (0 < ·)).sum + (xs.filter (· < 0)).sum = xs.sum := by
  induction xs with
  | nil => simp
  | cons x xs ih =>
      rcases lt_trichotomy x 0 with hx | rfl | hx
      · simp only [hx, hx.le.not_gt, decide_false, decide_true, List.filter_cons_of_pos, List.filter_cons_of_neg,
          Bool.false_eq_true, not_false_eq_true, List.sum_cons, ← ih]
        ring
      · simp [ih]
      · simp only [hx, hx.le.not_gt, decide_false, decide_true, List.filter_cons_of_pos, List.filter_cons_of_neg,
          Bool.false_eq_true, not_false_eq_true, List.sum_cons, ← ih]
        ring

/-- A number of sessions times their average is their sum. -/
theorem length_mul_average (xs : List K) :
    (xs.length : K) * (if xs.isEmpty then 0 else xs.sum / xs.length) = xs.sum := by
  cases xs with
  | nil => simp
  | cons x xs =>
      have hne : ((x :: xs).length : K) ≠ 0 := Nat.cast_ne_zero.mpr (by simp)
      rw [if_neg (by simp)]
      exact mul_div_cancel₀ _ hne

/-- The sum of the losses is negative as soon as there is one. -/
theorem sum_losses_neg {xs : List K} (h : xs.filter (· < 0) ≠ []) : 0 < -(xs.filter (· < 0)).sum := by
  have hlt := List.sum_lt_sum_of_ne_nil h (fun x : K => x) (fun _ => 0) (by
    intro x hx
    simpa using (List.mem_filter.mp hx).2)
  rw [List.map_id', List.map_const', List.sum_replicate, smul_zero] at hlt
  exact neg_pos.mpr hlt

omit [Field K] [LinearOrder K] [IsStrictOrderedRing K] in
/-- The extreme of the sessions a test picks, `d` where it picks none, bounds them all if `d` separates the picked ones
    from the others. -/
theorem extreme_getD {r : K → K → Prop} [IsTrans K r] {xs : List K} {p : K → Bool} {best : Option K} {d : K}
    (hnone : best = none → xs.filter p = [])
    (hsome : ∀ m, best = some m → m ∈ xs.filter p ∧ ∀ x ∈ xs.filter p, r x m)
    (hd : ∀ x, p x = false → r x d) (hp : ∀ x, p x = true → r d x) :
    (∀ x ∈ xs, r x (best.getD d)) ∧ (best.getD d ∈ xs ∨ (xs.filter p = [] ∧ best.getD d = d)) := by
  cases best with
  | none =>
      have hnil := hnone rfl
      refine ⟨fun x hx => hd x ?_, Or.inr ⟨hnil, rfl⟩⟩
      simpa using List.filter_eq_nil_iff.mp hnil x hx
  | some m =>
      obtain ⟨hmem, hmost⟩ := hsome m rfl
      obtain ⟨hm, hpm⟩ := List.mem_filter.mp hmem
      refine ⟨fun x hx => ?_, Or.inl hm⟩
      cases hpx : p x with
      | true => exact hmost x (List.mem_filter.mpr ⟨hx, hpx⟩)
      | false => exact Trans.trans (hd x hpx) (hp m hpm)

/-! ## Volatility -/

/-- No sum of squares is negative. -/
theorem sum_squares_nonneg (xs : List K) (m : K) : 0 ≤ (xs.map (fun x => (x - m) ^ 2)).sum := by
  apply List.sum_nonneg
  intro y hy
  obtain ⟨x, _, rfl⟩ := List.mem_map.mp hy
  exact sq_nonneg (x - m)

/-- The squares about the mean add up to 0 only if all entries are the mean. -/
theorem sum_squares_eq_zero_iff {xs : List K} {m : K} : (xs.map (fun x => (x - m) ^ 2)).sum = 0 ↔ ∀ x ∈ xs, x = m := by
  induction xs with
  | nil => simp
  | cons x xs ih =>
      rw [List.map_cons, List.sum_cons, add_eq_zero_iff_of_nonneg (sq_nonneg _) (sum_squares_nonneg xs m), ih,
        List.forall_mem_cons, sq_eq_zero_iff, sub_eq_zero]

omit [LinearOrder K] [IsStrictOrderedRing K] in
/-- Entries that all agree are their own mean. -/
theorem eq_mean_iff [CharZero K] {xs : List K} (hne : xs ≠ []) :
    (∀ x ∈ xs, x = xs.sum / xs.length) ↔ ∀ x ∈ xs, ∀ y ∈ xs, x = y := by
  constructor
  · intro h x hx y hy
    rw [h x hx, ← h y hy]
  · intro h x hx
    have hlength : (xs.length : K) ≠ 0 := by
      simpa using hne
    have hall : xs = List.replicate xs.length x := List.eq_replicate_iff.mpr ⟨rfl, fun y hy => h y hy x hx⟩
    have hsum : xs.sum = xs.length * x := by
      conv_lhs => rw [hall]
      rw [List.sum_replicate, nsmul_eq_mul]
    rw [hsum, mul_div_cancel_left₀ x hlength]

/-- What a report uses of `math.sqrt`. -/
structure SquareRoot (sqrt : K → K) : Prop where
  nonneg : ∀ x, 0 ≤ x → 0 ≤ sqrt x
  zero : ∀ x, 0 ≤ x → (sqrt x = 0 ↔ x = 0)

/-- A quotient by a positive number has the sign of its numerator. -/
theorem sign_div_of_pos {x y : K} (hy : 0 < y) : SignType.sign (x / y) = SignType.sign x := by
  rw [div_eq_mul_inv, sign_mul, sign_pos (inv_pos.mpr hy), mul_one]

/-- The two ratios of a run with margin and at least two sessions. -/
structure Ratios (p : Performance K D) (r : K × K) : Prop where
  nonneg : 0 ≤ r.1
  volatility : r.1 = 0 ↔ ∀ x ∈ p.dailyPnl, ∀ y ∈ p.dailyPnl, x = y
  sharpe : SignType.sign r.2 = if r.1 = 0 then 0 else SignType.sign p.dailyPnl.sum

omit [IsStrictOrderedRing K] in
theorem ratios_eq_zero (sqrt : K → K) {p : Performance K D}
    (h : ¬ (0 < p.peakMargin ∧ 1 < p.dailyPnl.length)) : ratios sqrt p = (0, 0) := if_neg h

theorem ratios_spec {sqrt : K → K} (hsqrt : SquareRoot sqrt) {p : Performance K D} (hmargin : 0 < p.peakMargin)
    (hmany : 1 < p.dailyPnl.length) : Ratios p (ratios sqrt p) := by
  have hne : p.dailyPnl ≠ [] := by
    intro h
    simp [h] at hmany
  have hyear : 0 < sqrt (sessionsPerYear : K) := by
    have hpos : (0 : K) < sessionsPerYear := Nat.cast_pos.mpr (by decide)
    exact lt_of_le_of_ne (hsqrt.nonneg _ hpos.le) (fun h => hpos.ne' ((hsqrt.zero _ hpos.le).mp h.symm))
  have hdegrees : (0 : K) < p.dailyPnl.length - 1 := by
    rw [sub_pos]
    exact_mod_cast hmany
  unfold ratios
  rw [if_pos ⟨hmargin, hmany⟩]
  dsimp only
  generalize hreturns : p.dailyPnl.map (· / p.peakMargin) = returns
  have hlength : returns.length = p.dailyPnl.length := by rw [← hreturns, List.length_map]
  have hrne : returns ≠ [] := by
    rw [← List.length_pos_iff, hlength]
    omega
  have hsum : returns.sum = p.dailyPnl.sum / p.peakMargin := by
    simp only [← hreturns, div_eq_mul_inv, List.sum_map_mul_right, List.map_id']
  rw [hlength]
  generalize hsquares : (returns.map (fun r => (r - returns.sum / (p.dailyPnl.length : K)) ^ 2)).sum = squares
  have hsquares_nonneg : 0 ≤ squares := hsquares ▸ sum_squares_nonneg returns _
  have hvariance : 0 ≤ squares / ((p.dailyPnl.length : K) - 1) := div_nonneg hsquares_nonneg hdegrees.le
  refine ⟨mul_nonneg (hsqrt.nonneg _ hvariance) hyear.le, ?_, ?_⟩
  · -- no deviation is left exactly if every return is the mean
    rw [mul_eq_zero, or_iff_left hyear.ne', hsqrt.zero _ hvariance, div_eq_zero_iff, or_iff_left hdegrees.ne',
      ← hsquares, sum_squares_eq_zero_iff, ← hlength, eq_mean_iff hrne, ← hreturns]
    simp only [List.forall_mem_map]
    have hcancel : ∀ x y : K, x / p.peakMargin = y / p.peakMargin ↔ x = y := fun x y => div_left_inj' hmargin.ne'
    simp only [hcancel]
  · have hn : (0 : K) < p.dailyPnl.length := by
      exact_mod_cast Nat.lt_trans Nat.zero_lt_one hmany
    rcases (hsqrt.nonneg _ hvariance).eq_or_lt with hsd | hsd
    · rw [← hsd, if_neg (lt_irrefl 0), if_pos (zero_mul _), sign_zero]
    · rw [if_pos hsd, if_neg (mul_pos hsd hyear).ne', sign_mul, sign_pos hyear, mul_one, sign_div_of_pos hsd,
        sign_div_of_pos hn, hsum, sign_div_of_pos hmargin]

/-- Volatility is zero where nothing is measured, and where every session earns the same. -/
theorem ratios_volatility {sqrt : K → K} (hsqrt : SquareRoot sqrt) (p : Performance K D) :
    0 ≤ (ratios sqrt p).1 ∧ ((ratios sqrt p).1 = 0 ↔
      p.peakMargin ≤ 0 ∨ p.dailyPnl.length ≤ 1 ∨ ∀ x ∈ p.dailyPnl, ∀ y ∈ p.dailyPnl, x = y) := by
  by_cases hmeasured : 0 < p.peakMargin ∧ 1 < p.dailyPnl.length
  · have hspec := ratios_spec hsqrt hmeasured.1 hmeasured.2
    rw [hspec.volatility, or_iff_right hmeasured.1.not_ge, or_iff_right hmeasured.2.not_ge]
    exact ⟨hspec.nonneg, Iff.rfl⟩
  · rw [ratios_eq_zero sqrt hmeasured]
    refine ⟨le_refl 0, iff_of_true rfl ?_⟩
    rcases not_and_or.mp hmeasured with hmargin | hmany
    · exact Or.inl (not_lt.mp hmargin)
    · exact Or.inr (Or.inl (not_lt.mp hmany))

/-- The Sharpe ratio has the sign of what the run earns, where it is measured. -/
theorem ratios_sharpe {sqrt : K → K} (hsqrt : SquareRoot sqrt) (p : Performance K D) :
    SignType.sign (ratios sqrt p).2 = if (ratios sqrt p).1 = 0 then 0 else SignType.sign p.dailyPnl.sum := by
  by_cases hmeasured : 0 < p.peakMargin ∧ 1 < p.dailyPnl.length
  · exact (ratios_spec hsqrt hmeasured.1 hmeasured.2).sharpe
  · rw [ratios_eq_zero sqrt hmeasured, if_pos rfl]
    exact sign_zero

/-! ## Main result -/

/-- The statistics of a report are about the same run. -/
structure Agrees (p : Performance K D) : Prop where
  total : p.dailyPnl.sum = p.finalEquity
  counted : (p.winningSessions : Int) + p.losingSessions + p.flatSessions = p.sessions
  flat : p.flatSessions = p.dailyPnl.countP (· = 0)
  averages : p.winningSessions * p.averageWin + p.losingSessions * p.averageLoss = p.finalEquity
  winRate : p.winRate * (p.winningSessions + p.losingSessions) = p.winningSessions
  best : (∀ x ∈ p.dailyPnl, x ≤ p.bestSession) ∧
    (p.bestSession ∈ p.dailyPnl ∨ (p.winningSessions = 0 ∧ p.bestSession = 0))
  worst : (∀ x ∈ p.dailyPnl, p.worstSession ≤ x) ∧
    (p.worstSession ∈ p.dailyPnl ∨ (p.losingSessions = 0 ∧ p.worstSession = 0))
  /-- A run that lost on some session wins more than it loses if and only if it ends above its start. -/
  factor : p.losingSessions ≠ 0 → (1 < p.profitFactor ↔ 0 < p.finalEquity)
  streak : IsGreatest {n | ∃ s, s <:+: p.dailyPnl ∧ (∀ x ∈ s, x < 0) ∧ s.length = n} p.longestLosingStreak
  /-- Without margin, or without a second session, no return is measured. -/
  volatility : 0 ≤ p.volatility ∧ (p.volatility = 0 ↔
    p.peakMargin ≤ 0 ∨ p.sessions ≤ 1 ∨ ∀ x ∈ p.dailyPnl, ∀ y ∈ p.dailyPnl, x = y)
  sharpe : SignType.sign p.sharpe = if p.volatility = 0 then 0 else SignType.sign p.finalEquity

omit [LinearOrder K] [IsStrictOrderedRing K] in
theorem sum_dailyPnl (curve : List K) : (differences 0 curve).sum = curve.getLast?.getD 0 := by
  have hend := @getElem?_of_le_length K _ 0 _ _ (le_refl curve.length)
  rw [zero_add, List.take_of_length_le (le_of_eq (length_differences 0 curve))] at hend
  cases curve using List.reverseRecOn with
  | nil => rfl
  | append_singleton curve x =>
      rw [List.length_append, List.length_singleton, List.getElem?_cons_succ, List.getElem?_concat_length] at hend
      rw [List.getLast?_concat]
      exact (Option.some.inj hend).symm

/-- Without sessions there is nothing to disagree about. -/
theorem agrees_totals {result : Result K D} (hnil : result.daily = []) (hlast : result.finalEquity = 0) :
    Agrees (totals result) := by
  have hpnl : (totals result).dailyPnl = [] := by
    simp [totals, hnil, differences]
  have hsessions : (totals result).sessions = 0 := by
    simp [totals, hnil]
  have hfinal : (totals result).finalEquity = 0 := hlast
  refine { total := ?_, counted := ?_, flat := ?_, averages := ?_, winRate := ?_, best := ?_, worst := ?_,
           factor := ?_, streak := ?_, volatility := ?_, sharpe := ?_ }
  · rw [hpnl, hfinal]
    rfl
  · rw [hsessions]
    rfl
  · rw [hpnl]
    rfl
  · rw [hfinal]
    simp [totals]
  · simp [totals]
  · rw [hpnl]
    exact ⟨fun x hx => absurd hx List.not_mem_nil, Or.inr ⟨rfl, rfl⟩⟩
  · rw [hpnl]
    exact ⟨fun x hx => absurd hx List.not_mem_nil, Or.inr ⟨rfl, rfl⟩⟩
  · intro h
    exact absurd rfl h
  · rw [hpnl]
    exact streaks_nil.longest
  · rw [hsessions]
    exact ⟨le_refl 0, iff_of_true rfl (Or.inr (Or.inl (Nat.zero_le 1)))⟩
  · rw [if_pos (show (totals result).volatility = 0 from rfl)]
    exact sign_zero

/-- The profit factor is above 1 exactly if the profits outweigh the losses. -/
theorem one_lt_factor {xs : List K} (h : (xs.filter (· < 0)).length ≠ 0) :
    1 < (if 0 < -(xs.filter (· < 0)).sum then (((xs.filter (0 < ·)).sum / -(xs.filter (· < 0)).sum : K) : WithTop K)
      else ⊤) ↔ 0 < xs.sum := by
  have hloss := sum_losses_neg (fun hnil => h (List.length_eq_zero_iff.mpr hnil))
  rw [if_pos hloss, ← WithTop.coe_one, WithTop.coe_lt_coe, one_lt_div hloss, neg_lt_iff_pos_add, sum_wins_losses]

/-- A report agrees if the result ends as its last session did. -/
theorem agrees_analyze {sqrt : K → K} (hsqrt : SquareRoot sqrt) {result : Result K D}
    (hlast : result.finalEquity = (result.daily.map Session.equity).getLast?.getD 0) :
    Agrees (analyze sqrt result) := by
  have htotal : (totals result).dailyPnl.sum = (totals result).finalEquity := (sum_dailyPnl _).trans hlast.symm
  have hlength : (totals result).dailyPnl.length = (totals result).sessions := by
    simp [totals, length_differences]
  unfold analyze
  dsimp only
  split
  case isTrue hempty =>
    have hnil : result.daily = [] := by
      rw [List.isEmpty_iff.mp hempty] at hlength
      exact List.length_eq_zero_iff.mp hlength.symm
    rw [hnil] at hlast
    exact agrees_totals hnil hlast
  case isFalse =>
    have hcount := length_wins_losses (totals result).dailyPnl
    have hflat : ((totals result).sessions : Int) - ((totals result).dailyPnl.filter (0 < ·)).length
        - ((totals result).dailyPnl.filter (· < 0)).length = (totals result).dailyPnl.countP (· = 0) := by
      omega
    refine { total := htotal, counted := ?_, flat := hflat, averages := ?_, winRate := ?_, best := ?_, worst := ?_,
             factor := ?_, streak := ?_, volatility := ?_, sharpe := ?_ }
    · dsimp only
      omega
    · dsimp only
      rw [length_mul_average, length_mul_average, sum_wins_losses]
      exact htotal
    · dsimp only
      split
      case isTrue hnone =>
        obtain ⟨hwins, hlosses⟩ := Nat.add_eq_zero_iff.mp hnone
        simp [hwins]
      case isFalse hdecided =>
        rw [← Nat.cast_add]
        exact div_mul_cancel₀ _ (Nat.cast_ne_zero.mpr hdecided)
    · dsimp only
      rw [List.length_eq_zero_iff]
      apply extreme_getD (r := (· ≤ ·))
      · exact List.max?_eq_none_iff.mp
      · intro m hm
        exact List.max?_eq_some_iff.mp hm
      · intro x hx
        simpa using hx
      · intro x hx
        exact le_of_lt (by simpa using hx)
    · dsimp only
      rw [List.length_eq_zero_iff]
      apply extreme_getD (r := (· ≥ ·))
      · exact List.min?_eq_none_iff.mp
      · intro m hm
        exact List.min?_eq_some_iff.mp hm
      · intro x hx
        simpa using hx
      · intro x hx
        exact le_of_lt (by simpa using hx)
    · intro hlosing
      rw [← htotal]
      exact one_lt_factor hlosing
    · exact (streaks_foldl _).longest
    · dsimp only
      rw [← hlength]
      exact ratios_volatility hsqrt (totals result)
    · dsimp only
      rw [← htotal]
      exact ratios_sharpe hsqrt (totals result)

omit [IsStrictOrderedRing K] in
/-- What a report copies from the result. -/
theorem analyze_totals (sqrt : K → K) (result : Result K D) :
    (analyze sqrt result).gross = result.realized ∧ (analyze sqrt result).costs = result.costs ∧
      (analyze sqrt result).unrealized = result.unrealized ∧
      (analyze sqrt result).finalEquity = result.finalEquity ∧ (analyze sqrt result).trades = result.trades := by
  unfold analyze
  dsimp only
  split
  · exact ⟨rfl, rfl, rfl, rfl, rfl⟩
  · exact ⟨rfl, rfl, rfl, rfl, rfl⟩

omit [IsStrictOrderedRing K] in
theorem analyze_measured (sqrt : K → K) (result : Result K D) :
    (analyze sqrt result).sessions = result.daily.length ∧ (analyze sqrt result).peakMargin = result.peakMargin := by
  unfold analyze
  dsimp only
  split
  · exact ⟨rfl, rfl⟩
  · exact ⟨rfl, rfl⟩

omit [LinearOrder K] [IsStrictOrderedRing K] in
/-- A run ends with the equity of its last session. -/
theorem finalEquity_report {F : Type} [Double F] {source : DataSource} {underlying : UnderlyingId}
    {spot : InstrumentId} {strategy : Strategy F} {config : BacktestConfig F}
    (hfills : Portfolio.NonNegative (config.fills.getD crossSpreadFill)) {dates : List Date} {result : BacktestResult}
    (h : runBacktest source underlying spot strategy config dates = .ok result) :
    (report result : Result K Date).finalEquity
      = ((report result : Result K Date).daily.map Session.equity).getLast?.getD 0 ∧
    result.finalEquity = result.realized - result.costs + result.unrealized ∧
    result.trades = (result.daily.map (·.trades)).sum := by
  rcases accounts_of_run hfills h with ⟨_, rfl⟩ | ⟨c, parts, rfl, hne, haccounts⟩
  · refine ⟨?_, rfl, rfl⟩
    simp [report, toDouble]
  · refine ⟨?_, rfl, ?_⟩
    · have hend := List.getLast?_eq_some_getLast hne
      have hunrealized : c.result.finalEquity = (c.daily.getLast hne).equity := by
        simp [Campaign.result, hend]
      have hdaily : c.result.daily = c.daily := rfl
      simp [report, hdaily, hend, hunrealized, session]
    · have hparts : c.daily.map (·.trades) = parts.map List.length := by
        apply List.ext_getElem (by simp [haccounts.length])
        intro k hk hk'
        rw [List.length_map] at hk hk'
        have hday := haccounts.daily k _ _ (List.getElem?_eq_getElem hk) (List.getElem?_eq_getElem hk')
        simpa using hday.trades
      show c.engine.portfolio.trades.length = (c.daily.map (·.trades)).sum
      rw [hparts, ← List.length_flatten, haccounts.log]

/-- **The statistics of a run agree.** The daily profits of a run lead along its equity curve to its final equity, which
    is what was realised less costs and with what is still open; the trades are those of the sessions. All other
    statistics are about those same profits. -/
theorem statistics_agree {F : Type} [Double F] {source : DataSource} {underlying : UnderlyingId} {spot : InstrumentId}
    {strategy : Strategy F} {config : BacktestConfig F}
    (hfills : Portfolio.NonNegative (config.fills.getD crossSpreadFill)) {dates : List Date} {result : BacktestResult}
    (h : runBacktest source underlying spot strategy config dates = .ok result) {sqrt : K → K}
    (hsqrt : SquareRoot sqrt) :
    (∀ k s, result.daily[k]? = some s →
      ((analyze sqrt (report result)).dailyPnl.take (k + 1)).sum = toDouble s.equity) ∧
    (analyze sqrt (report result)).finalEquity = (analyze sqrt (report result)).gross
      - (analyze sqrt (report result)).costs + (analyze sqrt (report result)).unrealized ∧
    (analyze sqrt (report result)).trades = (result.daily.map (·.trades)).sum ∧
    Agrees (analyze sqrt (report result)) := by
  obtain ⟨hlast, hbooks, htrades⟩ := finalEquity_report (K := K) hfills h
  obtain ⟨hgross, hcosts, hunrealized, hfinal, hcount⟩ := analyze_totals sqrt (report result : Result K Date)
  refine ⟨?_, ?_, ?_, agrees_analyze hsqrt hlast⟩
  · intro k s hs
    have hk : k < result.daily.length := (List.getElem?_eq_some_iff.mp hs).1
    have hpoint := @getElem?_of_le_length K _ 0 ((report result : Result K Date).daily.map Session.equity) (k + 1)
      (by simpa [report] using hk)
    rw [zero_add, List.getElem?_cons_succ] at hpoint
    rw [analyze_dailyPnl]
    have hs' : ((report result : Result K Date).daily.map Session.equity)[k]? = some (toDouble s.equity) := by
      simp [report, hs, session]
    rw [hs'] at hpoint
    exact (Option.some.inj hpoint).symm
  · rw [hfinal, hgross, hcosts, hunrealized]
    simp only [report, toDouble, hbooks]
    push_cast
    ring
  · rw [hcount]
    exact htrades

theorem squareRoot_sqrt : SquareRoot Real.sqrt where
  nonneg x _ := Real.sqrt_nonneg x
  zero _ hx := Real.sqrt_eq_zero hx

/-- Over two sessions, with margin for what is sold short. -/
def marginedConfig : BacktestConfig Steep where
  costs := some noCosts
  margin := some countLegs

/-- A run that loses 1.00 on its first session and nothing on its second one, with margin for a short pair: the ratios
    are measured, and the Sharpe ratio is negative. -/
theorem statistics_agree_two_days :
    ∃ result, runBacktest twoDaySource 0 0 callThenStraddle marginedConfig [] = .ok result ∧
      result.daily.map (·.equity) = [-100, -100] ∧
      ((analyze Real.sqrt (report result)).dailyPnl.take 1).sum = (toDouble (-100) : ℝ) ∧
      Agrees (analyze Real.sqrt (report result)) ∧
      0 < (analyze Real.sqrt (report result)).volatility ∧ (analyze Real.sqrt (report result)).sharpe < 0 := by
  obtain ⟨result, h, htest⟩ := Run.exists_of_succeeds
    (fun r => r.daily.map (·.equity) = [-100, -100] ∧ r.finalEquity = -100 ∧ r.peakMargin = 2)
    (runBacktest twoDaySource 0 0 callThenStraddle marginedConfig []) (by decide +kernel)
  obtain ⟨hequity, hfinal, hmargin⟩ := of_decide_eq_true htest
  have hfills : Portfolio.NonNegative (marginedConfig.fills.getD crossSpreadFill) :=
    Portfolio.crossSpreadFill_nonNegative
  obtain ⟨hcurve, _, _, hall⟩ := statistics_agree hfills h squareRoot_sqrt
  obtain ⟨hsessions, hpeak⟩ := analyze_measured Real.sqrt (report result : Result ℝ Date)
  have hreport : (report result : Result ℝ Date).daily.map Session.equity = [toDouble (-100), toDouble (-100)] := by
    have hmap := congrArg (List.map (toDouble (K := ℝ))) hequity
    rw [List.map_map] at hmap
    simpa [report, session, Function.comp_def] using hmap
  have hpnl : (analyze Real.sqrt (report result)).dailyPnl = [-1, 0] := by
    rw [analyze_dailyPnl, hreport]
    norm_num [Falls.differences, toDouble]
  have hfinalEquity : (analyze Real.sqrt (report result)).finalEquity = -1 := by
    rw [(analyze_totals Real.sqrt (report result : Result ℝ Date)).2.2.2.1]
    norm_num [report, hfinal, toDouble]
  have hmany : (report result : Result ℝ Date).daily.length = 2 := by
    rw [← List.length_map (f := Session.equity), hreport]
    rfl
  have hvolatility : 0 < (analyze Real.sqrt (report result)).volatility := by
    refine hall.volatility.1.lt_of_ne (fun hzero => ?_)
    rcases hall.volatility.2.mp hzero.symm with hno | hone | hsame
    · rw [hpeak] at hno
      norm_num [report, hmargin, toDouble] at hno
    · rw [hsessions, hmany] at hone
      omega
    · rw [hpnl] at hsame
      have hne := hsame (-1) (by simp) 0 (by simp)
      norm_num at hne
  refine ⟨result, h, hequity, ?_, hall, hvolatility, ?_⟩
  · obtain ⟨s, hs, hequity₀⟩ : ∃ s, result.daily[0]? = some s ∧ s.equity = -100 := by
      have hfirst := congrArg (·[0]?) hequity
      rw [List.getElem?_map] at hfirst
      exact Option.map_eq_some_iff.mp hfirst
    rw [hcurve 0 s hs, hequity₀]
  · rw [← sign_eq_neg_one_iff, hall.sharpe, if_neg hvolatility.ne', hfinalEquity]
    exact sign_neg (by norm_num)

end Analysis

end Volforge
