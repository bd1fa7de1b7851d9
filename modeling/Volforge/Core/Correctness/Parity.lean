import Volforge.Core.Correctness.Fills
import Mathlib.Data.Nat.Log

/-!
# `Core.Correctness.Parity` — the strike the forward is priced off

Call minus put falls as the strike rises, and the strike with the smallest difference is the one nearest the
forward. The search starts in the middle of the ladder, probes at doubling strides towards the crossing and
bisects the stretch that brackets it. When the next probe leaves the ladder it stops, and the strikes past the
last probe are never looked at.

## Contents
- **Falling differences.** What decreases strictly is smallest in size where it changes sign.
- **The search.** `bracket_up`, `bracket_down`, `bisect_closest`.
- **Reading the ladder** off the market, and the linear scan of `forward_from_parity`.
-/

namespace Volforge

open Double

/-! ## Falling differences -/

/-- Differences that fall strictly along a ladder of `n` strikes. -/
def Falling (d : ℕ → ℤ) (n : ℕ) : Prop := ∀ i j, i < j → j < n → d j < d i

/-- No strike of the ladder has a smaller difference, in size. -/
def Closest (d : ℕ → ℤ) (n best : ℕ) : Prop := ∀ j < n, |d best| ≤ |d j|

namespace Falling

variable {d : ℕ → ℤ} {n i j : ℕ}

theorem le (h : Falling d n) (hij : i ≤ j) (hj : j < n) : d j ≤ d i := by
  rcases Nat.lt_or_eq_of_le hij with hlt | rfl
  · exact le_of_lt (h i j hlt hj)
  · exact le_refl _

/-- Below a strike where the difference is not negative, it is no smaller. -/
theorem abs_le_below (h : Falling d n) (hji : j ≤ i) (hi : i < n) (hd : 0 ≤ d i) : |d i| ≤ |d j| := by
  have hle := h.le hji hi
  rw [abs_of_nonneg hd, abs_of_nonneg (le_trans hd hle)]
  exact hle

/-- Above a strike where the difference is not positive, it is no smaller in size. -/
theorem abs_le_above (h : Falling d n) (hij : i ≤ j) (hj : j < n) (hd : d i ≤ 0) : |d i| ≤ |d j| := by
  have hle := h.le hij hj
  rw [abs_of_nonpos hd, abs_of_nonpos (le_trans hle hd)]
  omega

end Falling

/-- The last strike that probes upwards from the middle reach: strides of 1, 2, 4 and so on. -/
def lastProbeUp (n : ℕ) : ℕ := n / 2 + (2 ^ Nat.log 2 (n - n / 2) - 1)

/-- The last strike that probes downwards from the middle reach. -/
def lastProbeDown (n : ℕ) : ℕ := n / 2 - (2 ^ Nat.log 2 (n / 2 + 1) - 1)

/-- The crossing is not past the last probe: next to it on the outer side, the difference is at least as large
    the other way. -/
structure WithinProbes (d : ℕ → ℤ) (n : ℕ) : Prop where
  up : lastProbeUp n + 1 < n → d (lastProbeUp n) + d (lastProbeUp n + 1) ≤ 0
  down : 0 < lastProbeDown n → 0 ≤ d (lastProbeDown n - 1) + d (lastProbeDown n)

theorem lastProbeUp_lt {n : ℕ} (hn : 0 < n) : lastProbeUp n < n := by
  have hpow : 2 ^ Nat.log 2 (n - n / 2) ≤ n - n / 2 := Nat.pow_log_le_self 2 (by omega)
  unfold lastProbeUp
  omega

theorem lastProbeUp_eq {n k : ℕ} (hin : n / 2 + (2 ^ k - 1) < n) (hout : n ≤ n / 2 + (2 ^ (k + 1) - 1)) :
    lastProbeUp n = n / 2 + (2 ^ k - 1) := by
  have hpos : 0 < 2 ^ k := Nat.two_pow_pos k
  have hlog : Nat.log 2 (n - n / 2) = k := Nat.log_eq_of_pow_le_of_lt_pow (by omega) (by omega)
  unfold lastProbeUp
  rw [hlog]

theorem le_lastProbeUp {n k : ℕ} (hin : n / 2 + (2 ^ k - 1) < n) : n / 2 + (2 ^ k - 1) ≤ lastProbeUp n := by
  have hpos : 0 < 2 ^ k := Nat.two_pow_pos k
  have hk : k ≤ Nat.log 2 (n - n / 2) := Nat.le_log_of_pow_le Nat.one_lt_two (by omega)
  have hpow : 2 ^ k ≤ 2 ^ Nat.log 2 (n - n / 2) := Nat.pow_le_pow_right Nat.two_pos hk
  unfold lastProbeUp
  omega

theorem lastProbeDown_eq {n k : ℕ} (hin : 2 ^ k ≤ n / 2 + 1) (hout : n / 2 + 1 < 2 ^ (k + 1)) :
    lastProbeDown n = n / 2 - (2 ^ k - 1) := by
  unfold lastProbeDown
  rw [Nat.log_eq_of_pow_le_of_lt_pow hin hout]

theorem lastProbeDown_le {n k : ℕ} (hin : 2 ^ k ≤ n / 2 + 1) : lastProbeDown n ≤ n / 2 - (2 ^ k - 1) := by
  have hk : k ≤ Nat.log 2 (n / 2 + 1) := Nat.le_log_of_pow_le Nat.one_lt_two hin
  have hpow : 2 ^ k ≤ 2 ^ Nat.log 2 (n / 2 + 1) := Nat.pow_le_pow_right Nat.two_pos hk
  unfold lastProbeDown
  omega

theorem middle_le_lastProbeUp (n : ℕ) : n / 2 ≤ lastProbeUp n := Nat.le_add_right _ _

theorem lastProbeDown_le_middle (n : ℕ) : lastProbeDown n ≤ n / 2 := Nat.sub_le _ _

/-- A strike between the last probes that is closest leaves nothing past them. -/
theorem Closest.withinProbes {d : ℕ → ℤ} {n best : ℕ} (hfall : Falling d n) (hn : 0 < n)
    (hdown : lastProbeDown n ≤ best) (hup : best ≤ lastProbeUp n) (h : Closest d n best) : WithinProbes d n := by
  have hlast := lastProbeUp_lt hn
  constructor
  · intro hnext
    by_contra hpos
    have hstep := hfall _ _ (Nat.lt_succ_self (lastProbeUp n)) hnext
    have hbest := hfall.le hup hlast
    have hclose := h _ hnext
    have hsmall : |d (lastProbeUp n + 1)| < d (lastProbeUp n) := abs_lt.mpr ⟨by omega, hstep⟩
    have hlarge : d (lastProbeUp n) ≤ |d best| := le_trans hbest (le_abs_self _)
    omega
  · intro hprev
    by_contra hneg
    have hlt : lastProbeDown n < n := by omega
    have hstep := hfall (lastProbeDown n - 1) (lastProbeDown n) (by omega) hlt
    have hbest := hfall.le hdown (by omega)
    have hclose := h (lastProbeDown n - 1) (by omega)
    have hsmall : |d (lastProbeDown n - 1)| < -d (lastProbeDown n) := abs_lt.mpr ⟨by omega, by omega⟩
    have hlarge : -d (lastProbeDown n) ≤ |d best| := le_trans (by omega) (neg_le_abs _)
    omega

/-- The last probe upwards is closest when the crossing is past no probe. -/
theorem Falling.closest_up {d : ℕ → ℤ} {n : ℕ} (h : Falling d n) (hn : 0 < n) (hpos : 0 < d (lastProbeUp n))
    (hwithin : WithinProbes d n) : Closest d n (lastProbeUp n) := by
  intro j hj
  by_cases hle : j ≤ lastProbeUp n
  · exact h.abs_le_below hle (lastProbeUp_lt hn) (le_of_lt hpos)
  · have hnext : lastProbeUp n + 1 ≤ j := by omega
    have hsum := hwithin.up (by omega)
    have hj' := h.le hnext hj
    rw [abs_of_pos hpos, abs_of_nonpos (by omega)]
    omega

theorem Falling.closest_down {d : ℕ → ℤ} {n : ℕ} (h : Falling d n) (hneg : d (lastProbeDown n) ≤ 0)
    (hwithin : WithinProbes d n) : Closest d n (lastProbeDown n) := by
  have hmiddle := lastProbeDown_le_middle n
  intro j hj
  by_cases hle : lastProbeDown n ≤ j
  · exact h.abs_le_above hle hj hneg
  · have hsum := hwithin.down (by omega)
    have hj' : d (lastProbeDown n - 1) ≤ d j := h.le (by omega) (by omega)
    rw [abs_of_nonpos hneg, abs_of_nonneg (by omega)]
    omega

/-! ## The search -/

variable {F : Type} [Double F]

/-- A ladder of `n` strikes with a parity difference at each: `x i` as a `double`, `d i` in paise. Signs and sizes of
    the one compare as those of the other. -/
structure Ladder (parity : ℕ → Option F) (n : ℕ) (x : ℕ → F) (d : ℕ → ℤ) : Prop where
  usable : ∀ i < n, parity i = some (x i)
  zero_lt : ∀ i < n, lt zero (x i) = true ↔ 0 < d i
  le_zero : ∀ i < n, le (x i) zero = true ↔ d i ≤ 0
  zero_le : ∀ i < n, le zero (x i) = true ↔ 0 ≤ d i
  closer : ∀ i < n, ∀ j < n, |d i| < |d j| → lt (Double.abs (x i)) (Double.abs (x j)) = true
  not_farther : ∀ i < n, ∀ j < n, lt (Double.abs (x i)) (Double.abs (x j)) = true → |d i| ≤ |d j|
  falling : Falling d n

namespace Parity

section

variable {parity : ℕ → Option F} {n : ℕ} {x : ℕ → F} {d : ℕ → ℤ}

/-- The search holds the difference of its best strike, which is on the ladder. -/
structure Search.At (s : Search F) (n : ℕ) (x : ℕ → F) : Prop where
  best : s.best < n
  diff : s.bestDiff = x s.best

/-- **Keeping the better strike**: the new one or the old one, and no farther from zero than either. -/
theorem Search.At.improve (hl : Ladder parity n x d) {s : Search F} (hs : s.At n x) {i : ℕ} (hi : i < n) :
    (s.improve i (x i)).At n x ∧ ((s.improve i (x i)).best = i ∨ (s.improve i (x i)).best = s.best) ∧
      |d (s.improve i (x i)).best| ≤ |d i| ∧ |d (s.improve i (x i)).best| ≤ |d s.best| := by
  unfold Search.improve
  rw [hs.diff]
  by_cases hlt : lt (Double.abs (x i)) (Double.abs (x s.best)) = true
  · rw [if_pos hlt]
    exact ⟨⟨hi, rfl⟩, .inl rfl, le_refl _, hl.not_farther i hi _ hs.best hlt⟩
  · rw [if_neg hlt]
    refine ⟨hs, .inr rfl, ?_, le_refl _⟩
    by_contra hfar
    exact hlt (hl.closer i hi _ hs.best (not_le.mp hfar))

theorem Search.improve_lo (s : Search F) (i : ℕ) (v : F) : (s.improve i v).lo = s.lo := by
  unfold Search.improve
  split_ifs <;> rfl

theorem Search.improve_hi (s : Search F) (i : ℕ) (v : F) : (s.improve i v).hi = s.hi := by
  unfold Search.improve
  split_ifs <;> rfl

/-- One probe at `i`, after which the bracket is `lo` to `hi`. -/
theorem Search.At.probe (hl : Ladder parity n x d) {s : Search F} (hs : s.At n x) (lo hi : ℕ) {i : ℕ} (h : i < n) :
    ∃ s', ({ s with lo := lo, hi := hi } : Search F).improve i (x i) = s' ∧ s'.At n x ∧ s'.lo = lo ∧ s'.hi = hi ∧
      (s'.best = i ∨ s'.best = s.best) ∧ |d s'.best| ≤ |d i| ∧ |d s'.best| ≤ |d s.best| ∧
      (|d i| < |d s.best| → s'.best = i) := by
  have hs' : ({ s with lo := lo, hi := hi } : Search F).At n x := ⟨hs.best, hs.diff⟩
  obtain ⟨hat, hbest, hnear, hbetter⟩ := hs'.improve hl h
  refine ⟨_, rfl, hat, Search.improve_lo _ i (x i), Search.improve_hi _ i (x i), hbest, hnear, hbetter, ?_⟩
  intro hcloser
  rcases hbest with hnew | hold
  · exact hnew
  · rw [hold] at hnear
    exact absurd hcloser (not_lt.mpr hnear)

/-- The crossing lies between `lo` and `hi`, and `best` is no farther from zero than either. All of them are between
    `a` and `b`. -/
structure Bracket (n : ℕ) (d : ℕ → ℤ) (a b lo hi best : ℕ) : Prop where
  order : lo < hi
  lo_ge : a ≤ lo
  hi_le : hi ≤ b
  within : hi < n
  lo_sign : 0 ≤ d lo
  hi_sign : d hi ≤ 0
  best_ge : a ≤ best
  best_le : best ≤ b
  lo_far : |d best| ≤ |d lo|
  hi_far : |d best| ≤ |d hi|

section Narrow

variable {a b lo hi best mid best' : ℕ} (h : Bracket n d a b lo hi best) (hlo : lo < mid) (hhi : mid < hi)
  (hbest : best' = mid ∨ best' = best) (hnear : |d best'| ≤ |d mid|) (hbetter : |d best'| ≤ |d best|)

include h hlo hhi hbest in
theorem Bracket.best_between : a ≤ best' ∧ best' ≤ b := by
  have hlo_ge := h.lo_ge
  have hhi_le := h.hi_le
  rcases hbest with rfl | rfl
  · exact ⟨by omega, by omega⟩
  · exact ⟨h.best_ge, h.best_le⟩

include h hlo hhi hbest hnear hbetter

/-- The crossing is above the middle. -/
theorem Bracket.above (hsign : 0 ≤ d mid) : Bracket n d a b mid hi best' where
  order := hhi
  lo_ge := le_trans h.lo_ge (le_of_lt hlo)
  hi_le := h.hi_le
  within := h.within
  lo_sign := hsign
  hi_sign := h.hi_sign
  best_ge := (h.best_between hlo hhi hbest).1
  best_le := (h.best_between hlo hhi hbest).2
  lo_far := hnear
  hi_far := le_trans hbetter h.hi_far

/-- The crossing is below the middle. -/
theorem Bracket.below (hsign : d mid ≤ 0) : Bracket n d a b lo mid best' where
  order := hlo
  lo_ge := h.lo_ge
  hi_le := le_trans (le_of_lt hhi) h.hi_le
  within := lt_trans hhi h.within
  lo_sign := h.lo_sign
  hi_sign := hsign
  best_ge := (h.best_between hlo hhi hbest).1
  best_le := (h.best_between hlo hhi hbest).2
  lo_far := le_trans hbetter h.lo_far
  hi_far := hnear

end Narrow

/-- A bracket of two neighbours leaves nothing closer than its best strike. -/
theorem Bracket.closest {a b lo hi best : ℕ} (hfall : Falling d n) (h : Bracket n d a b lo hi best)
    (hclosed : hi ≤ lo + 1) : Closest d n best := by
  intro j hj
  rcases Nat.lt_or_ge lo j with hlo | hlo
  · exact le_trans h.hi_far (hfall.abs_le_above (by omega) hj h.hi_sign)
  · exact le_trans h.lo_far (hfall.abs_le_below hlo (lt_trans h.order h.within) h.lo_sign)

/-- **Bisecting a bracket** finds the closest strike of the ladder. -/
theorem bisect_closest (hl : Ladder parity n x d) {a b : ℕ} (turns : ℕ) {s : Search F} (hat : s.At n x)
    (hs : Bracket n d a b s.lo s.hi s.best) (hturns : s.hi - s.lo ≤ turns) :
    (bisect parity turns s).At n x ∧ Closest d n (bisect parity turns s).best ∧
      a ≤ (bisect parity turns s).best ∧ (bisect parity turns s).best ≤ b := by
  induction turns generalizing s with
  | zero =>
      have horder := hs.order
      omega
  | succ turns ih =>
      unfold bisect
      by_cases hclosed : s.hi ≤ s.lo + 1
      · rw [if_pos hclosed]
        exact ⟨hat, hs.closest hl.falling hclosed, hs.best_ge, hs.best_le⟩
      · rw [if_neg hclosed]
        have hwithin := hs.within
        generalize hmid : s.lo + (s.hi - s.lo) / 2 = mid
        have hlo : s.lo < mid := by omega
        have hhi : mid < s.hi := by omega
        have hmid_lt : mid < n := lt_trans hhi hwithin
        dsimp only
        rw [hl.usable mid hmid_lt]
        dsimp only
        obtain ⟨hat', hbest, hnear, hbetter⟩ := hat.improve hl hmid_lt
        by_cases hpos : lt zero (x mid) = true
        · -- the crossing is above the middle
          rw [if_pos hpos]
          have hsign : 0 ≤ d mid := le_of_lt ((hl.zero_lt mid hmid_lt).mp hpos)
          have hnext := hs.above hlo hhi hbest hnear hbetter hsign
          refine ih ?_ ?_ ?_
          · exact ⟨hat'.best, hat'.diff⟩
          · show Bracket n d a b mid (s.improve mid (x mid)).hi _
            rw [s.improve_hi]
            exact hnext
          · show (s.improve mid (x mid)).hi - mid ≤ turns
            rw [s.improve_hi]
            omega
        · -- the crossing is at the middle or below
          rw [if_neg hpos]
          have hsign : d mid ≤ 0 := not_lt.mp (fun hd => hpos ((hl.zero_lt mid hmid_lt).mpr hd))
          have hnext := hs.below hlo hhi hbest hnear hbetter hsign
          refine ih ?_ ?_ ?_
          · exact ⟨hat'.best, hat'.diff⟩
          · show Bracket n d a b (s.improve mid (x mid)).lo mid _
            rw [s.improve_lo]
            exact hnext
          · show mid - (s.improve mid (x mid)).lo ≤ turns
            rw [s.improve_lo]
            omega

/-- Bisecting a stretch with no crossing and nothing closer keeps the best strike. -/
theorem bisect_keeps (hl : Ladder parity n x d) (turns : ℕ) {s : Search F} (hat : s.At n x) (hhi : s.hi < n)
    (hfar : ∀ i, s.lo < i → i < s.hi → |d s.best| < |d i|) :
    (bisect parity turns s).At n x ∧ (bisect parity turns s).best = s.best := by
  induction turns generalizing s with
  | zero => exact ⟨hat, rfl⟩
  | succ turns ih =>
      unfold bisect
      by_cases hclosed : s.hi ≤ s.lo + 1
      · rw [if_pos hclosed]
        exact ⟨hat, rfl⟩
      · rw [if_neg hclosed]
        generalize hmid : s.lo + (s.hi - s.lo) / 2 = mid
        have hlo_lt : s.lo < mid := by omega
        have hhi_lt : mid < s.hi := by omega
        have hmid_lt : mid < n := lt_trans hhi_lt hhi
        have hkeep : s.improve mid (x mid) = s := by
          unfold Search.improve
          rw [hat.diff]
          refine if_neg (fun hlt => ?_)
          have hle := hl.not_farther mid hmid_lt _ hat.best hlt
          exact absurd (hfar mid hlo_lt hhi_lt) (not_lt.mpr hle)
        dsimp only
        rw [hl.usable mid hmid_lt]
        dsimp only
        rw [hkeep]
        by_cases hpos : lt zero (x mid) = true
        · rw [if_pos hpos]
          exact ih ⟨hat.best, hat.diff⟩ hhi (fun i hi hi' => hfar i (lt_trans hlo_lt hi) hi')
        · rw [if_neg hpos]
          exact ih ⟨hat.best, hat.diff⟩ hmid_lt (fun i hi hi' => hfar i hi (lt_trans hi' hhi_lt))

/-- A search whose bracket holds the crossing, between the last probes. -/
def Search.Crossed (s : Search F) (n : ℕ) (d : ℕ → ℤ) : Prop :=
  Bracket n d (lastProbeDown n) (lastProbeUp n) s.lo s.hi s.best

/-- A search that went up to the last probe and met no crossing. -/
structure Search.AtTop (s : Search F) (n : ℕ) (d : ℕ → ℤ) : Prop where
  best : s.best = lastProbeUp n
  sign : 0 < d s.best
  hi : s.hi = s.best

/-- A search that went down to the last probe and met no crossing. -/
structure Search.AtBottom (s : Search F) (n : ℕ) (d : ℕ → ℤ) : Prop where
  best : s.best = lastProbeDown n
  sign : d s.best ≤ 0
  lo : s.lo = s.best
  hi : s.hi < n

/-- **Probing upwards** from the middle ends with a bracket, or at the last probe. `r` strides are left, from
    `2 ^ k` on. -/
theorem bracket_up (hl : Ladder parity n x d) (r : ℕ) {k : ℕ} {s : Search F} (hat : s.At n x)
    (hbest : s.best = n / 2 + (2 ^ k - 1)) (hpos : 0 < d s.best) (hhi : s.hi = s.best) (hr : n ≤ 2 ^ (k + r)) :
    (bracket parity n ((List.range' k r).map (2 ^ ·)) s).At n x ∧
      ((bracket parity n ((List.range' k r).map (2 ^ ·)) s).Crossed n d ∨
        (bracket parity n ((List.range' k r).map (2 ^ ·)) s).AtTop n d) := by
  induction r generalizing k s with
  | zero =>
      have hlt := hat.best
      have hdouble : 2 ^ (k + 1) = 2 * 2 ^ k := by rw [pow_succ, Nat.mul_comm]
      rw [Nat.add_zero] at hr
      have hlast : lastProbeUp n = s.best := by
        rw [hbest]
        exact lastProbeUp_eq (by omega) (by omega)
      exact ⟨hat, .inr ⟨hlast.symm, hpos, hhi⟩⟩
  | succ r ih =>
      have hlt := hat.best
      have hdouble : 2 ^ (k + 1) = 2 * 2 ^ k := by rw [pow_succ, Nat.mul_comm]
      have hone : 0 < 2 ^ k := Nat.two_pow_pos k
      have hmiddle := lastProbeDown_le_middle n
      rw [List.range'_succ, List.map_cons]
      unfold bracket
      have hup : lt zero s.bestDiff = true := by
        rw [hat.diff]
        exact (hl.zero_lt _ hlt).mpr hpos
      rw [if_pos hup]
      dsimp only
      by_cases hout : n ≤ s.best + 2 ^ k
      · -- the next probe would leave the ladder
        rw [if_pos hout]
        have hlast : lastProbeUp n = s.best := by
          rw [hbest]
          exact lastProbeUp_eq (by omega) (by omega)
        exact ⟨hat, .inr ⟨hlast.symm, hpos, hhi⟩⟩
      · rw [if_neg hout]
        have hprobe : s.best + 2 ^ k < n := not_le.mp hout
        have hlast : s.best + 2 ^ k ≤ lastProbeUp n := by
          have h : n / 2 + (2 ^ (k + 1) - 1) ≤ lastProbeUp n := le_lastProbeUp (by omega)
          omega
        rw [hl.usable _ hprobe]
        dsimp only
        obtain ⟨s', heq, hat', hlo', hhi', hkept, hnear, hbetter, hcloser⟩ :=
          hat.probe hl s.best (s.best + 2 ^ k) hprobe
        rw [heq]
        by_cases hstop : le (x (s.best + 2 ^ k)) zero = true
        · -- the sign changed since the last probe
          rw [if_pos hstop]
          have hsign : d (s.best + 2 ^ k) ≤ 0 := (hl.le_zero _ hprobe).mp hstop
          refine ⟨hat', .inl ?_⟩
          unfold Search.Crossed
          rw [hlo', hhi']
          exact {
            order := by omega
            lo_ge := by omega
            hi_le := hlast
            within := hprobe
            lo_sign := le_of_lt hpos
            hi_sign := hsign
            best_ge := by rcases hkept with h | h <;> omega
            best_le := by rcases hkept with h | h <;> omega
            lo_far := hbetter
            hi_far := hnear }
        · -- still above zero, so closer than the last probe: the next stride is twice as long
          rw [if_neg hstop]
          have hsign : 0 < d (s.best + 2 ^ k) := not_le.mp (fun hd => hstop ((hl.le_zero _ hprobe).mpr hd))
          have hfall : d (s.best + 2 ^ k) < d s.best := hl.falling _ _ (by omega) hprobe
          have hnew : s'.best = s.best + 2 ^ k := by
            apply hcloser
            rw [abs_of_pos hsign, abs_of_pos hpos]
            exact hfall
          have hr' : n ≤ 2 ^ (k + 1 + r) := by
            rw [Nat.add_assoc, Nat.add_comm 1 r]
            exact hr
          exact ih hat' (by omega) (by rw [hnew]; exact hsign) (by rw [hhi', hnew]) hr'

/-- **Probing downwards** from the middle ends with a bracket, or at the last probe. -/
theorem bracket_down (hl : Ladder parity n x d) (r : ℕ) {k : ℕ} {s : Search F} (hat : s.At n x)
    (hk : 2 ^ k ≤ n / 2 + 1) (hbest : s.best = n / 2 - (2 ^ k - 1)) (hneg : d s.best ≤ 0) (hlo : s.lo = s.best)
    (hhi : s.hi < n) (hr : n ≤ 2 ^ (k + r)) :
    (bracket parity n ((List.range' k r).map (2 ^ ·)) s).At n x ∧
      ((bracket parity n ((List.range' k r).map (2 ^ ·)) s).Crossed n d ∨
        (bracket parity n ((List.range' k r).map (2 ^ ·)) s).AtBottom n d) := by
  induction r generalizing k s with
  | zero =>
      have hlt := hat.best
      have hdouble : 2 ^ (k + 1) = 2 * 2 ^ k := by rw [pow_succ, Nat.mul_comm]
      rw [Nat.add_zero] at hr
      have hlast : lastProbeDown n = s.best := by
        rw [hbest]
        exact lastProbeDown_eq hk (by omega)
      exact ⟨hat, .inr ⟨hlast.symm, hneg, hlo, hhi⟩⟩
  | succ r ih =>
      have hlt := hat.best
      have hdouble : 2 ^ (k + 1) = 2 * 2 ^ k := by rw [pow_succ, Nat.mul_comm]
      have hone : 0 < 2 ^ k := Nat.two_pow_pos k
      have hmiddle := middle_le_lastProbeUp n
      rw [List.range'_succ, List.map_cons]
      unfold bracket
      have hdown : ¬ lt zero s.bestDiff = true := by
        rw [hat.diff, hl.zero_lt _ hlt]
        exact not_lt.mpr hneg
      rw [if_neg hdown]
      dsimp only
      by_cases hout : s.best < 2 ^ k
      · -- the next probe would leave the ladder
        rw [if_pos hout]
        have hlast : lastProbeDown n = s.best := by
          rw [hbest]
          exact lastProbeDown_eq hk (by omega)
        exact ⟨hat, .inr ⟨hlast.symm, hneg, hlo, hhi⟩⟩
      · rw [if_neg hout]
        have hprobe : s.best - 2 ^ k < n := by omega
        have hnext : 2 ^ (k + 1) ≤ n / 2 + 1 := by omega
        have hlast : lastProbeDown n ≤ s.best - 2 ^ k := by
          have h := lastProbeDown_le hnext
          omega
        rw [hl.usable _ hprobe]
        dsimp only
        obtain ⟨s', heq, hat', hlo', hhi', hkept, hnear, hbetter, hcloser⟩ :=
          hat.probe hl (s.best - 2 ^ k) s.best hprobe
        rw [heq]
        by_cases hstop : le zero (x (s.best - 2 ^ k)) = true
        · -- the sign changed since the last probe
          rw [if_pos hstop]
          have hsign : 0 ≤ d (s.best - 2 ^ k) := (hl.zero_le _ hprobe).mp hstop
          refine ⟨hat', .inl ?_⟩
          unfold Search.Crossed
          rw [hlo', hhi']
          exact {
            order := by omega
            lo_ge := hlast
            hi_le := by omega
            within := hlt
            lo_sign := hsign
            hi_sign := hneg
            best_ge := by rcases hkept with h | h <;> omega
            best_le := by rcases hkept with h | h <;> omega
            lo_far := hnear
            hi_far := hbetter }
        · -- still below zero, so closer than the last probe
          rw [if_neg hstop]
          have hsign : d (s.best - 2 ^ k) < 0 := not_le.mp (fun hd => hstop ((hl.zero_le _ hprobe).mpr hd))
          have hfall : d s.best < d (s.best - 2 ^ k) := hl.falling _ _ (by omega) hlt
          have hnew : s'.best = s.best - 2 ^ k := by
            apply hcloser
            rw [abs_of_neg hsign, abs_of_nonpos hneg]
            omega
          have hr' : n ≤ 2 ^ (k + 1 + r) := by
            rw [Nat.add_assoc, Nat.add_comm 1 r]
            exact hr
          exact ih hat' hnext (by omega) (by rw [hnew]; exact le_of_lt hsign) (by rw [hlo', hnew])
            (by rw [hhi']; exact hlt) hr'

/-! ### The whole search -/

/-- What `Ctx::forward` searches with: the best strike found on a ladder of `n`. -/
def search (parity : ℕ → Option F) (n : ℕ) : Option (Search F) := do
  let (start, diff) ← usableNear parity n (n / 2)
  let s := bracket parity n (strides n) { best := start, bestDiff := diff, lo := start, hi := start }
  return bisect parity (s.hi - s.lo) s

theorem strides_eq (n : ℕ) : strides n = (List.range' 0 (Nat.clog 2 n)).map (2 ^ ·) := by
  have hpow : ∀ k, 2 ^ k < n ↔ k < Nat.clog 2 n := fun k => (Nat.lt_clog_iff_pow_lt Nat.one_lt_two).symm
  have hle : Nat.clog 2 n ≤ n := by
    rcases Nat.eq_zero_or_pos n with rfl | hn
    · simp
    · exact Nat.clog_le_of_le_pow (le_of_lt Nat.lt_two_pow_self)
  obtain ⟨r, hr⟩ := Nat.exists_eq_add_of_le hle
  have hsplit : List.range n = List.range (Nat.clog 2 n) ++ (List.range r).map (Nat.clog 2 n + ·) := by
    conv_lhs => rw [hr]
    rw [List.range_add]
  have hkeep : ∀ k ∈ List.range (Nat.clog 2 n), (decide (2 ^ k < n)) = true := by
    intro k hk
    rw [decide_eq_true_eq, hpow]
    exact List.mem_range.mp hk
  have hdrop : ∀ k ∈ (List.range r).map (Nat.clog 2 n + ·), ¬ (decide (2 ^ k < n)) = true := by
    intro k hk
    obtain ⟨j, _, rfl⟩ := List.mem_map.mp hk
    rw [decide_eq_true_eq, hpow]
    omega
  unfold strides
  rw [List.filter_map, hsplit, List.filter_append]
  show ((List.range (Nat.clog 2 n)).filter (fun k => decide (2 ^ k < n)) ++
    ((List.range r).map (Nat.clog 2 n + ·)).filter (fun k => decide (2 ^ k < n))).map _ = _
  rw [List.filter_eq_self.mpr hkeep, List.filter_eq_nil_iff.mpr hdrop, List.append_nil, List.range_eq_range']

theorem usableNear_middle (hl : Ladder parity n x d) (hn : 0 < n) :
    usableNear parity n (n / 2) = some (n / 2, x (n / 2)) := by
  have hmiddle : n / 2 < n := Nat.div_lt_self hn Nat.one_lt_two
  obtain ⟨m, hm⟩ := Nat.exists_eq_add_of_le' (Nat.one_le_iff_ne_zero.mpr (show min n 14 ≠ 0 by omega))
  unfold usableNear
  rw [hm, List.range_succ_eq_map, List.findSome?_cons]
  simp [hmiddle, hl.usable _ hmiddle]

/-- **The strike the search ends at is closest exactly when the crossing is past no last probe.** -/
theorem search_spec (hl : Ladder parity n x d) (hn : 0 < n) :
    ∃ s, search parity n = some s ∧ s.At n x ∧ (Closest d n s.best ↔ WithinProbes d n) := by
  have hmiddle : n / 2 < n := Nat.div_lt_self hn Nat.one_lt_two
  have hup := middle_le_lastProbeUp n
  have hdown := lastProbeDown_le_middle n
  have hlast := lastProbeUp_lt hn
  have hat : ({ best := n / 2, bestDiff := x (n / 2), lo := n / 2, hi := n / 2 } : Search F).At n x :=
    ⟨hmiddle, rfl⟩
  have hr : n ≤ 2 ^ (0 + Nat.clog 2 n) := by
    rw [Nat.zero_add]
    exact Nat.le_pow_clog Nat.one_lt_two n
  refine ⟨_, by unfold search; rw [usableNear_middle hl hn]; rfl, ?_⟩
  rw [strides_eq]
  -- what bisecting makes of a bracket that holds the crossing
  have hcrossed : ∀ {s : Search F}, s.At n x → s.Crossed n d →
      (bisect parity (s.hi - s.lo) s).At n x ∧
        (Closest d n (bisect parity (s.hi - s.lo) s).best ↔ WithinProbes d n) := by
    intro s hs hbracket
    obtain ⟨hs', hclosest, hge, hle⟩ := bisect_closest hl (s.hi - s.lo) hs hbracket (le_refl _)
    exact ⟨hs', iff_of_true hclosest (hclosest.withinProbes hl.falling hn hge hle)⟩
  by_cases hpos : 0 < d (n / 2)
  · obtain ⟨hs, hcase⟩ := bracket_up hl _ hat rfl hpos rfl hr
    rcases hcase with hbracket | htop
    · exact hcrossed hs hbracket
    · generalize bracket parity n _ _ = s at hs htop
      obtain ⟨hs', hbest⟩ := bisect_keeps hl (s.hi - s.lo) hs (by rw [htop.hi]; exact hs.best) (by
        intro i _ hi
        rw [htop.hi] at hi
        have hfall := hl.falling i s.best hi hs.best
        rw [abs_of_pos htop.sign, abs_of_pos (lt_trans htop.sign hfall)]
        exact hfall)
      have hsign := htop.sign
      rw [htop.best] at hbest hsign
      refine ⟨hs', ?_⟩
      rw [hbest]
      exact ⟨fun h => h.withinProbes hl.falling hn (le_trans hdown hup) (le_refl _),
        fun h => hl.falling.closest_up hn hsign h⟩
  · obtain ⟨hs, hcase⟩ := bracket_down hl _ hat (by simp) rfl (not_lt.mp hpos) rfl hmiddle hr
    rcases hcase with hbracket | hbottom
    · exact hcrossed hs hbracket
    · generalize bracket parity n _ _ = s at hs hbottom
      obtain ⟨hs', hbest⟩ := bisect_keeps hl (s.hi - s.lo) hs hbottom.hi (by
        intro i hi hi'
        rw [hbottom.lo] at hi
        have hfall := hl.falling s.best i hi (lt_trans hi' hbottom.hi)
        have hneg := hbottom.sign
        rw [abs_of_nonpos hneg, abs_of_nonpos (by omega)]
        omega)
      have hsign := hbottom.sign
      rw [hbottom.best] at hbest hsign
      refine ⟨hs', ?_⟩
      rw [hbest]
      exact ⟨fun h => h.withinProbes hl.falling hn (le_refl _) (le_trans hdown hup),
        fun h => hl.falling.closest_down hsign h⟩

end

/-! ## Reading the ladder off the market -/

/-- What a price can be: thirty-two bits, signed. -/
def IsPrice (a : Price) : Prop := -2 ^ 31 ≤ a ∧ a < 2 ^ 31

/-- Prices in rupees, and differences of two of them, compare as the prices in paise do. Rounding to a `double` keeps
    this, as it is far finer than a paisa. -/
class OrdersPrices (F : Type) [Double F] : Prop where
  zero_lt : ∀ a, IsPrice a → (lt zero (ofMinor a : F) = true ↔ 0 < a)
  sub_pos : ∀ a b, IsPrice a → IsPrice b → (lt zero (ofMinor a - ofMinor b : F) = true ↔ 0 < a - b)
  sub_nonpos : ∀ a b, IsPrice a → IsPrice b → (le (ofMinor a - ofMinor b : F) zero = true ↔ a - b ≤ 0)
  sub_nonneg : ∀ a b, IsPrice a → IsPrice b → (le zero (ofMinor a - ofMinor b : F) = true ↔ 0 ≤ a - b)
  closer : ∀ a b a' b', IsPrice a → IsPrice b → IsPrice a' → IsPrice b' → |a - b| < |a' - b'| →
    lt (Double.abs (ofMinor a - ofMinor b : F)) (Double.abs (ofMinor a' - ofMinor b')) = true
  not_farther : ∀ a b a' b', IsPrice a → IsPrice b → IsPrice a' → IsPrice b' →
    lt (Double.abs (ofMinor a - ofMinor b : F)) (Double.abs (ofMinor a' - ofMinor b')) = true → |a - b| ≤ |a' - b'|

/-- The mids of call and put at one strike of the ladder, when both are two-sided. -/
def midsAt (c : Ctx F) (expiry : Date) (strikes : List Int32) (i : ℕ) : Option (Price × Price) := do
  let strike ← strikes[i]?
  let call ← c.registry.findOption c.underlying expiry strike .Call
  let put ← c.registry.findOption c.underlying expiry strike .Put
  let cq ← c.market.current call
  let pq ← c.market.current put
  if !cq.twoSided || !pq.twoSided then none else return (cq.mid, pq.mid)

theorem parityAt_eq (c : Ctx F) (expiry : Date) (strikes : List Int32) (i : ℕ) :
    parityAt c expiry strikes i = (midsAt c expiry strikes i).map (fun m => ofMinor m.1 - ofMinor m.2) := by
  unfold parityAt midsAt
  cases strikes[i]? with
  | none => rfl
  | some strike =>
      simp only [Option.bind_eq_bind, Option.bind_some]
      cases c.registry.findOption c.underlying expiry strike .Call with
      | none => rfl
      | some call =>
          simp only [Option.bind_some]
          cases c.registry.findOption c.underlying expiry strike .Put with
          | none => rfl
          | some put =>
              simp only [Option.bind_some]
              cases c.market.current call with
              | none => rfl
              | some cq =>
                  simp only [Option.bind_some]
                  cases c.market.current put with
                  | none => rfl
                  | some pq =>
                      simp only [Option.bind_some]
                      split_ifs <;> rfl

/-- A two-sided quote of a session has a mid above zero. -/
theorem mid_of_twoSided {s : SessionData} {now : Timestamp} {id : InstrumentId} {q : Quote}
    (hq : (s.view now).current id = some q) (htwo : q.twoSided = true) : IsPrice q.mid ∧ 0 < q.mid := by
  obtain ⟨i, _, rfl⟩ := QuoteColumns.quoteAt_zero_eq_some.mp hq
  unfold Quote.twoSided at htwo
  rw [Bool.and_eq_true, decide_eq_true_eq, decide_eq_true_eq] at htwo
  have hb : 0 < ((s.quotes id).bid.getD i 0).toInt := htwo.1
  have ha : 0 < ((s.quotes id).ask.getD i 0).toInt := htwo.2
  have hbid := ((s.quotes id).bid.getD i 0).toInt_lt
  have hask := ((s.quotes id).ask.getD i 0).toInt_lt
  have hmid : ((s.quotes id).atRow i).mid =
      (((s.quotes id).bid.getD i 0).toInt + ((s.quotes id).ask.getD i 0).toInt) / 2 :=
    Int.tdiv_eq_ediv_of_nonneg (Int.add_nonneg (le_of_lt hb) (le_of_lt ha))
  unfold IsPrice
  rw [hmid]
  generalize ((s.quotes id).bid.getD i 0).toInt = bid at *
  generalize ((s.quotes id).ask.getD i 0).toInt = ask at *
  refine ⟨⟨?_, ?_⟩, ?_⟩
  · show (-2 ^ 31 : Int) ≤ (bid + ask) / 2
    omega
  · show (bid + ask) / 2 < (2 ^ 31 : Int)
    omega
  · show (0 : Int) < (bid + ask) / 2
    omega

omit [Double F] in
theorem midsAt_prices {c : Ctx F} {s : SessionData} {now : Timestamp} (hmarket : c.market = s.view now)
    {expiry : Date} {strikes : List Int32} {i : ℕ} {m : Price × Price} (h : midsAt c expiry strikes i = some m) :
    (IsPrice m.1 ∧ 0 < m.1) ∧ IsPrice m.2 ∧ 0 < m.2 := by
  unfold midsAt at h
  simp only [Option.bind_eq_bind, Option.bind_eq_some_iff] at h
  obtain ⟨strike, _, call, _, put, _, cq, hcq, pq, hpq, h⟩ := h
  rw [hmarket] at hcq hpq
  split_ifs at h with htwo
  simp only [Bool.or_eq_true, not_or, Bool.not_eq_false, Bool.not_eq_eq_eq_not,
    Bool.not_true] at htwo
  cases h
  exact ⟨mid_of_twoSided hcq htwo.1, mid_of_twoSided hpq htwo.2⟩

section Quoted

variable [OrdersPrices F] {c : Ctx F} {s : SessionData} {now : Timestamp} {expiry : Date} {strikes : List Int32}
  {call put : ℕ → Price}

/-- A quoted ladder with falling differences. -/
theorem ladder_of_quotes (hmarket : c.market = s.view now)
    (hquoted : ∀ i < strikes.length, midsAt c expiry strikes i = some (call i, put i))
    (hfall : Falling (fun i => call i - put i) strikes.length) :
    Ladder (parityAt c expiry strikes) strikes.length (fun i => ofMinor (call i) - ofMinor (put i) : ℕ → F)
      (fun i => call i - put i) := by
  have hprices : ∀ i < strikes.length, IsPrice (call i) ∧ IsPrice (put i) := by
    intro i hi
    have h := midsAt_prices hmarket (hquoted i hi)
    exact ⟨h.1.1, h.2.1⟩
  exact {
    usable := by
      intro i hi
      rw [parityAt_eq, hquoted i hi]
      rfl
    zero_lt := fun i hi => OrdersPrices.sub_pos _ _ (hprices i hi).1 (hprices i hi).2
    le_zero := fun i hi => OrdersPrices.sub_nonpos _ _ (hprices i hi).1 (hprices i hi).2
    zero_le := fun i hi => OrdersPrices.sub_nonneg _ _ (hprices i hi).1 (hprices i hi).2
    closer := fun i hi j hj =>
      OrdersPrices.closer _ _ _ _ (hprices i hi).1 (hprices i hi).2 (hprices j hj).1 (hprices j hj).2
    not_farther := fun i hi j hj =>
      OrdersPrices.not_farther _ _ _ _ (hprices i hi).1 (hprices i hi).2 (hprices j hj).1 (hprices j hj).2
    falling := hfall }

/-- What the linear scan is handed: every strike of the ladder with its mids. -/
def scanQuote (F : Type) [Double F] (strikes : List Int32) (call put : ℕ → Price) (i : ℕ) : ParityQuote F where
  strike := ofMinor (strikes.getD i 0).toInt
  call := ofMinor (call i)
  put := ofMinor (put i)

/-- **The linear scan** selects a strike that is closest, when all strikes are above zero. -/
theorem scan_closest {n : ℕ} (hn : 0 < n) (hstrikes : ∀ i < n, 0 < (strikes.getD i 0).toInt)
    (hcall : ∀ i < n, IsPrice (call i) ∧ 0 < call i) (hput : ∀ i < n, IsPrice (put i) ∧ 0 < put i) :
    ∃ j < n, ((List.range n).map (scanQuote F strikes call put)).foldl closerParity none =
        some (scanQuote F strikes call put j, Double.abs (ofMinor (call j) - ofMinor (put j))) ∧
      Closest (fun i => call i - put i) n j := by
  have husable : ∀ i < n, ((!lt zero (scanQuote F strikes call put i).strike ||
      !lt zero (scanQuote F strikes call put i).call || !lt zero (scanQuote F strikes call put i).put) = true) =
      False := by
    intro i hi
    have hprice : IsPrice (strikes.getD i 0).toInt := ⟨Int32.le_toInt _, Int32.toInt_lt _⟩
    have hs : lt zero (scanQuote F strikes call put i).strike = true :=
      (OrdersPrices.zero_lt _ hprice).mpr (hstrikes i hi)
    have hc : lt zero (scanQuote F strikes call put i).call = true :=
      (OrdersPrices.zero_lt _ (hcall i hi).1).mpr (hcall i hi).2
    have hp : lt zero (scanQuote F strikes call put i).put = true :=
      (OrdersPrices.zero_lt _ (hput i hi).1).mpr (hput i hi).2
    simp [hs, hc, hp]
  induction n with
  | zero => exact absurd hn (lt_irrefl 0)
  | succ n ih =>
      rw [List.range_succ, List.map_append, List.foldl_append]
      have hlast := husable n (Nat.lt_succ_self n)
      rcases Nat.eq_zero_or_pos n with rfl | hpos
      · refine ⟨0, Nat.one_pos, ?_, ?_⟩
        · show closerParity none (scanQuote F strikes call put 0) = _
          unfold closerParity
          rw [if_neg (fun h => by rw [hlast] at h; exact h)]
          rfl
        · intro i hi
          rw [Nat.lt_one_iff.mp hi]
      · obtain ⟨j, hj, hfold, hclosest⟩ := ih hpos (fun i hi => hstrikes i (Nat.lt_succ_of_lt hi))
          (fun i hi => hcall i (Nat.lt_succ_of_lt hi)) (fun i hi => hput i (Nat.lt_succ_of_lt hi))
          (fun i hi => husable i (Nat.lt_succ_of_lt hi))
        have hcn := (hcall n (Nat.lt_succ_self n)).1
        have hpn := (hput n (Nat.lt_succ_self n)).1
        have hcj := (hcall j (Nat.lt_succ_of_lt hj)).1
        have hpj := (hput j (Nat.lt_succ_of_lt hj)).1
        rw [hfold]
        show ∃ k < n + 1, closerParity (some (scanQuote F strikes call put j, _)) (scanQuote F strikes call put n) = _ ∧ _
        unfold closerParity
        rw [if_neg (fun h => by rw [hlast] at h; exact h)]
        dsimp only
        by_cases hlt : lt (Double.abs (ofMinor (call n) - ofMinor (put n) : F))
            (Double.abs (ofMinor (call j) - ofMinor (put j))) = true
        · -- the last strike replaces the best one so far
          have hle : |call n - put n| ≤ |call j - put j| := OrdersPrices.not_farther _ _ _ _ hcn hpn hcj hpj hlt
          refine ⟨n, Nat.lt_succ_self n, if_pos hlt, ?_⟩
          intro i hi
          rcases Nat.lt_or_eq_of_le (Nat.lt_succ_iff.mp hi) with hlt' | rfl
          · exact le_trans hle (hclosest i hlt')
          · exact le_refl _
        · -- the best one so far is kept
          refine ⟨j, Nat.lt_succ_of_lt hj, if_neg hlt, ?_⟩
          intro i hi
          rcases Nat.lt_or_eq_of_le (Nat.lt_succ_iff.mp hi) with hlt' | rfl
          · exact hclosest i hlt'
          · by_contra hfar
            exact hlt (OrdersPrices.closer _ _ _ _ hcn hpn hcj hpj (not_le.mp hfar))

/-- The strike `best` is closest, and as close as the strike the linear scan selects. -/
structure PricesOffClosest (F : Type) [Double F] (strikes : List Int32) (call put : ℕ → Price) (best : ℕ) : Prop where
  closest : Closest (fun i => call i - put i) strikes.length best
  scan : (∀ k ∈ strikes, 0 < k.toInt) → ∃ j < strikes.length,
    (((List.range strikes.length).map (scanQuote F strikes call put)).foldl closerParity none).map (·.1) =
        some (scanQuote F strikes call put j) ∧
      |call best - put best| = |call j - put j|

end Quoted

end Parity

/-! ## The forward -/

section Forward

variable {F : Type} [Double F]

/-- The forward priced off one strike, from its parity difference. -/
def Ctx.forwardOff (c : Ctx F) (expiry : Date) (strike : Int32) (diff : F) : Option F :=
  let t : F := timeToExpiry c.now expiry c.utcOffset
  let fwd := ofMinor strike.toInt + exp (c.rate * t) * diff
  if !lt zero fwd || !isFinite fwd then none else some fwd

theorem Ctx.forward_eq (c : Ctx F) (expiry : Date) :
    c.forward expiry =
      if !lt zero (timeToExpiry c.now expiry c.utcOffset : F) then none
      else if (ChainView.new c expiry).strikes.isEmpty then none
      else (Parity.search (Parity.parityAt c expiry (ChainView.new c expiry).strikes)
          (ChainView.new c expiry).strikes.length).bind
        (fun s => c.forwardOff expiry ((ChainView.new c expiry).strikes.getD s.best 0) s.bestDiff) := by
  unfold Ctx.forward Parity.search
  dsimp only
  split_ifs with ht hne
  · rfl
  · rfl
  · cases Parity.usableNear (Parity.parityAt c expiry (ChainView.new c expiry).strikes)
      (ChainView.new c expiry).strikes.length ((ChainView.new c expiry).strikes.length / 2) with
    | none => rfl
    | some found => rfl

/-- **The forward is priced off the closest strike exactly when the crossing is past no last probe.** On a ladder of
    two-sided strikes where call minus put falls strictly, the search ends at a strike of the ladder, the forward is
    priced off that one, and it has the smallest difference of all, as the strike of the linear scan has, just in
    case the differences next to the last probes do not point outwards. -/
theorem forward_prices_off_closest_iff [Parity.OrdersPrices F] {c : Ctx F} {s : SessionData}
    {now : Timestamp} (hmarket : c.market = s.view now) {expiry : Date} {strikes : List Int32}
    (hstrikes : (ChainView.new c expiry).strikes = strikes) (hne : strikes ≠ []) {call put : ℕ → Price}
    (hquoted : ∀ i < strikes.length, Parity.midsAt c expiry strikes i = some (call i, put i))
    (hfall : Falling (fun i => call i - put i) strikes.length) :
    ∃ found, Parity.search (Parity.parityAt c expiry strikes) strikes.length = some found ∧
      found.best < strikes.length ∧
      c.forward expiry = (if !lt zero (timeToExpiry c.now expiry c.utcOffset : F) then none
        else c.forwardOff expiry (strikes.getD found.best 0)
          (ofMinor (call found.best) - ofMinor (put found.best))) ∧
      (Parity.PricesOffClosest F strikes call put found.best ↔
        WithinProbes (fun i => call i - put i) strikes.length) := by
  have hn : 0 < strikes.length := List.length_pos_iff.mpr hne
  have hl := Parity.ladder_of_quotes hmarket hquoted hfall
  obtain ⟨found, hsearch, hat, hiff⟩ := Parity.search_spec hl hn
  refine ⟨found, hsearch, hat.best, ?_, ?_⟩
  · have hnonempty : strikes.isEmpty = false := List.isEmpty_eq_false_iff.mpr hne
    rw [c.forward_eq, hstrikes, hsearch, hnonempty, Option.bind_some, hat.diff]
    rfl
  · rw [← hiff]
    constructor
    · intro h
      exact h.closest
    · intro hclosest
      refine ⟨hclosest, ?_⟩
      intro hpos
      have hmids : ∀ i < strikes.length, (Parity.IsPrice (call i) ∧ 0 < call i) ∧ Parity.IsPrice (put i) ∧ 0 < put i :=
        fun i hi => Parity.midsAt_prices hmarket (hquoted i hi)
      have hladder : ∀ i < strikes.length, 0 < (strikes.getD i 0).toInt := by
        intro i hi
        apply hpos
        rw [List.getD_eq_getElem?_getD, List.getElem?_eq_getElem hi]
        exact List.getElem_mem hi
      obtain ⟨j, hj, hfold, hscan⟩ := Parity.scan_closest (F := F) hn hladder (fun i hi => (hmids i hi).1)
        (fun i hi => (hmids i hi).2)
      refine ⟨j, hj, by rw [hfold]; rfl, ?_⟩
      exact le_antisymm (hclosest j hj) (hscan _ hat.best)

end Forward

/-! ### A strike past the last probe -/

theorem ofMinor_rat (a : Int) : (ofMinor a : ℚ) = (a : ℚ) / 100 := rfl

theorem sub_ofMinor_rat (a b : Int) : (ofMinor a - ofMinor b : ℚ) = ((a - b : Int) : ℚ) / 100 := by
  rw [ofMinor_rat, ofMinor_rat]
  push_cast
  ring

theorem abs_sub_ofMinor_rat (a b : Int) :
    (Double.abs (ofMinor a - ofMinor b) : ℚ) = ((|a - b| : Int) : ℚ) / 100 := by
  rw [sub_ofMinor_rat]
  show |((a - b : Int) : ℚ) / 100| = _
  rw [abs_div, Int.cast_abs]
  norm_num

theorem zero_rat : (Double.zero : ℚ) = 0 := Int.cast_zero

/-- Exact arithmetic orders prices. -/
instance : Parity.OrdersPrices ℚ where
  zero_lt a _ := by
    show decide ((Double.zero : ℚ) < ofMinor a) = true ↔ _
    rw [decide_eq_true_eq, zero_rat, ofMinor_rat, div_pos_iff_of_pos_right (by norm_num), Int.cast_pos]
  sub_pos a b _ _ := by
    show decide ((Double.zero : ℚ) < ofMinor a - ofMinor b) = true ↔ _
    rw [decide_eq_true_eq, zero_rat, sub_ofMinor_rat, div_pos_iff_of_pos_right (by norm_num), Int.cast_pos]
  sub_nonpos a b _ _ := by
    show decide ((ofMinor a - ofMinor b : ℚ) ≤ Double.zero) = true ↔ _
    rw [decide_eq_true_eq, zero_rat, sub_ofMinor_rat, div_le_iff₀ (by norm_num), zero_mul, Int.cast_nonpos]
  sub_nonneg a b _ _ := by
    show decide ((Double.zero : ℚ) ≤ ofMinor a - ofMinor b) = true ↔ _
    rw [decide_eq_true_eq, zero_rat, sub_ofMinor_rat, le_div_iff₀ (by norm_num), zero_mul, Int.cast_nonneg_iff]
  closer a b a' b' _ _ _ _ h := by
    show decide ((Double.abs (ofMinor a - ofMinor b) : ℚ) < Double.abs (ofMinor a' - ofMinor b')) = true
    rw [decide_eq_true_eq, abs_sub_ofMinor_rat, abs_sub_ofMinor_rat, div_lt_div_iff_of_pos_right (by norm_num),
      Int.cast_lt]
    exact h
  not_farther a b a' b' _ _ _ _ h := by
    change decide ((Double.abs (ofMinor a - ofMinor b) : ℚ) < Double.abs (ofMinor a' - ofMinor b')) = true at h
    rw [decide_eq_true_eq, abs_sub_ofMinor_rat, abs_sub_ofMinor_rat, div_lt_div_iff_of_pos_right (by norm_num),
      Int.cast_lt] at h
    exact le_of_lt h

/-- A registry with a call and a put at each strike: ids `2 i` and `2 i + 1`. -/
def ladderRegistry (strikes : List Int32) : InstrumentRegistry :=
  strikes.foldl (fun r k =>
    ((r.add { underlying := 0, kind := .Option, expiry := ⟨20250703⟩, strike := k, right := .Call }).1.add
      { underlying := 0, kind := .Option, expiry := ⟨20250703⟩, strike := k, right := .Put }).1)
    (({} : InstrumentRegistry).internUnderlying [78]).1

/-- Every option prints once, at time 1, with one price on both sides: the calls as listed, the puts at five. -/
def ladderQuotes (calls : List Int32) (id : InstrumentId) : QuoteColumns :=
  if 0 ≤ id ∧ id < 2 * calls.length then
    let price : Int32 := if id % 2 = 0 then calls.getD (id / 2).toNat 0 else 500
    { flatQuotes [1] with bid := [price], ask := [price] }
  else {}

def ladderSession (strikes calls : List Int32) : SessionData where
  date := ⟨20250701⟩
  registry := ladderRegistry strikes
  instruments := (List.range (2 * calls.length)).map (fun i => (i : Int))
  quotes := ladderQuotes calls
  totalObservations := 2 * calls.length
  eventOrder := []
  timeline := []
  printedBy := SessionData.lookPrintedBy (ladderQuotes calls)

def ladderCtx (strikes calls : List Int32) : Ctx ℚ where
  market := (ladderSession strikes calls).view 1
  portfolio := .empty crossSpreadFill 0 noCosts
  underlying := 0
  spot := -1
  date := ⟨20250701⟩
  utcOffset := kISTOffsetSeconds
  anchor := 0
  rate := 0
  margin := defaultMarginModel
  calendar := none
  series := []

/-- Four strikes; call and put are equal at the first. -/
def fourStrikes : List Int32 := [10000, 10100, 10200, 10300]
def fourCalls : ℕ → Price := fun i => [500, 400, 300, 200].getD i 0

theorem fourCalls_falling : Falling (fun i => fourCalls i - 500) 4 := by
  have h : ∀ j < 4, ∀ i < j, fourCalls j - 500 < fourCalls i - 500 := by decide
  intro i j hij hj
  exact h j hj i hij

/-- The middle is the third strike. One probe down reaches the second, the next would leave the ladder, and the
    forward is priced off the second strike although call and put are equal at the first. -/
theorem first_strike_is_never_probed :
    (ChainView.new (ladderCtx fourStrikes [500, 400, 300, 200]) ⟨20250703⟩).strikes = fourStrikes ∧
    (∀ i < 4, Parity.midsAt (ladderCtx fourStrikes [500, 400, 300, 200]) ⟨20250703⟩ fourStrikes i =
      some (fourCalls i, 500)) ∧
    Falling (fun i => fourCalls i - 500) 4 ∧
    ∃ found, Parity.search (Parity.parityAt (ladderCtx fourStrikes [500, 400, 300, 200]) ⟨20250703⟩ fourStrikes) 4 =
        some found ∧
      (ladderCtx fourStrikes [500, 400, 300, 200]).forward ⟨20250703⟩ =
        (ladderCtx fourStrikes [500, 400, 300, 200]).forwardOff ⟨20250703⟩ (fourStrikes.getD found.best 0)
          found.bestDiff ∧
      ¬ Closest (fun i => fourCalls i - 500) 4 found.best := by
  have hstrikes : (ChainView.new (ladderCtx fourStrikes [500, 400, 300, 200]) ⟨20250703⟩).strikes = fourStrikes := by
    decide +kernel
  have halive : ¬ (!lt (zero : ℚ) (timeToExpiry (ladderCtx fourStrikes [500, 400, 300, 200]).now ⟨20250703⟩
      kISTOffsetSeconds)) = true := by
    decide +kernel
  have hbest : (Parity.search (Parity.parityAt (ladderCtx fourStrikes [500, 400, 300, 200]) ⟨20250703⟩ fourStrikes)
      4).map (·.best) = some 1 := by
    decide +kernel
  refine ⟨hstrikes, by decide +kernel, fourCalls_falling, ?_⟩
  obtain ⟨found, hsearch, hbest⟩ := Option.map_eq_some_iff.mp hbest
  refine ⟨found, hsearch, ?_, ?_⟩
  · rw [Ctx.forward_eq, hstrikes]
    refine (if_neg halive).trans ?_
    rw [show fourStrikes.length = 4 by rfl, hsearch]
    rfl
  · intro h
    rw [hbest] at h
    exact absurd (h 0 (by decide)) (by decide)

/-- Twelve strikes; call and put are closest at the ninth. -/
def twelveStrikes : List Int32 :=
  [10000, 10100, 10200, 10300, 10400, 10500, 10600, 10700, 10800, 10900, 11000, 11100]
def twelveCalls : List Int32 := [1310, 1210, 1110, 1010, 910, 810, 710, 610, 510, 410, 310, 210]

/-- The middle is the seventh strike. Probes up reach the eighth and the tenth, and the ninth is between them. -/
theorem forward_prices_off_closest_iff_twelve :
    ∃ found, Parity.search (Parity.parityAt (ladderCtx twelveStrikes twelveCalls) ⟨20250703⟩ twelveStrikes) 12 =
        some found ∧
      found.best = 8 ∧
      Parity.PricesOffClosest ℚ twelveStrikes (fun i => (twelveCalls.getD i 0).toInt) (fun _ => 500) found.best := by
  have hmarket : (ladderCtx twelveStrikes twelveCalls).market = (ladderSession twelveStrikes twelveCalls).view 1 := rfl
  have hfall : Falling (fun i => (twelveCalls.getD i 0).toInt - 500) 12 := by
    have h : ∀ j < 12, ∀ i < j, (twelveCalls.getD j 0).toInt - 500 < (twelveCalls.getD i 0).toInt - 500 := by
      decide +kernel
    intro i j hij hj
    exact h j hj i hij
  have hstrikes : (ChainView.new (ladderCtx twelveStrikes twelveCalls) ⟨20250703⟩).strikes = twelveStrikes := by
    decide +kernel
  have hquoted : ∀ i < 12, Parity.midsAt (ladderCtx twelveStrikes twelveCalls) ⟨20250703⟩ twelveStrikes i =
      some ((twelveCalls.getD i 0).toInt, 500) := by
    decide +kernel
  have hwithin : WithinProbes (fun i => (twelveCalls.getD i 0).toInt - 500) 12 :=
    ⟨by decide +kernel, by decide +kernel⟩
  have hbest : (Parity.search (Parity.parityAt (ladderCtx twelveStrikes twelveCalls) ⟨20250703⟩ twelveStrikes)
      12).map (·.best) = some 8 := by
    decide +kernel
  obtain ⟨found, hsearch, _, _, hiff⟩ :=
    forward_prices_off_closest_iff hmarket hstrikes (by decide) hquoted hfall
  have hsearch : Parity.search (Parity.parityAt (ladderCtx twelveStrikes twelveCalls) ⟨20250703⟩ twelveStrikes) 12 =
      some found := hsearch
  rw [hsearch] at hbest
  exact ⟨found, hsearch, Option.some.inj hbest, hiff.mpr hwithin⟩

end Volforge
