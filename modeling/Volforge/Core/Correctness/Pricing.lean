import Volforge.Lib.Gauss
import Volforge.Core.Correctness.Grouping
import Volforge.Core.Correctness.Parity

/-!
# `Core.Correctness.Pricing` — put-call parity and the forward it recovers

In exact arithmetic a call less a put is worth the discounted distance of the forward from the strike, whatever the
volatility. Both ways of recovering the forward solve this for the forward, at the strike they select: on quotes that
keep parity the strike does not matter.

## Contents
- **Formulas.** `cdf` and `value`, the real numbers behind `norm_cdf` and `black76_price`.
- **Parity.** `black76_parity`.
- **The search.** What it ends with is a difference it has probed.
- **Main result.** `parity_recovers_forward`.
-/

namespace Volforge

namespace Pricing

/-! ## Formulas -/

/-- The decimal of the source. -/
noncomputable def sqrt2 : ℝ := (141421356237309504880 : ℤ) / (100000000000000000000 : ℕ)

theorem sqrt2_pos : 0 < sqrt2 := by
  unfold sqrt2
  norm_num

noncomputable def cdf (x : ℝ) : ℝ := (5 : ℤ) / (10 : ℕ) * Exact.erfc (-x / sqrt2)

theorem erfc_eq_tail (x : ℝ) : Exact.erfc x = 2 / √Real.pi * Gauss.tail x := rfl

theorem normCdf_eq (x : ℝ) : normCdf (some x : Exact) = some (cdf x) := by
  have hsqrt2 : (kSqrt2 : Exact) = some sqrt2 := rfl
  unfold normCdf
  rw [hsqrt2, Exact.lit_eq, Exact.neg_some, Exact.div_some _ sqrt2_pos.ne']
  rfl

/-- The two tails of the distribution. -/
theorem cdf_add_cdf_neg (x : ℝ) : cdf x + cdf (-x) = 1 := by
  have htails := Gauss.tail_add_tail_neg (-x / sqrt2)
  have hopposite : -(-x / sqrt2) = - -x / sqrt2 := by ring
  rw [hopposite] at htails
  have hpi : √Real.pi ≠ 0 := (Real.sqrt_pos.mpr Real.pi_pos).ne'
  unfold cdf
  rw [erfc_eq_tail, erfc_eq_tail, ← mul_add, ← mul_add, htails]
  push_cast
  field_simp
  norm_num

theorem continuous_cdf : Continuous cdf := by
  unfold cdf
  simp only [erfc_eq_tail]
  exact continuous_const.mul (continuous_const.mul (Gauss.continuous_tail.comp (continuous_neg.div_const _)))

noncomputable def d1 (forward strike t sigma : ℝ) : ℝ :=
  (Real.log (forward / strike) + (5 : ℤ) / (10 : ℕ) * sigma * sigma * t) / (sigma * √t)

noncomputable def d2 (forward strike t sigma : ℝ) : ℝ := d1 forward strike t sigma - sigma * √t

/-- The value of an option that has time, volatility and a positive forward and strike. -/
noncomputable def value (forward strike t sigma rate : ℝ) (right : Right) : ℝ :=
  if right = .Call then
    Real.exp (-rate * t) * (forward * cdf (d1 forward strike t sigma) - strike * cdf (d2 forward strike t sigma))
  else Real.exp (-rate * t) * (strike * cdf (-d2 forward strike t sigma) - forward * cdf (-d1 forward strike t sigma))

variable {forward strike t sigma : ℝ}

theorem computeD_eq (hforward : 0 < forward) (hstrike : 0 < strike) (ht : 0 < t) (hsigma : 0 < sigma) (rate : ℝ) :
    computeD (some forward : Exact) (some strike) (some t) (some sigma) (some rate) =
      { d1 := some (d1 forward strike t sigma), d2 := some (d2 forward strike t sigma), sqrtT := some (√t),
        df := some (Real.exp (-rate * t)) } := by
  have hvol : sigma * √t ≠ 0 := ne_of_gt (mul_pos hsigma (Real.sqrt_pos.mpr ht))
  unfold computeD
  simp only [Exact.sqrt_some ht.le, Exact.mul_some, Exact.lit_eq, Exact.div_some _ hstrike.ne',
    Exact.log_some (div_pos hforward hstrike), Exact.add_some, Exact.div_some _ hvol, Exact.sub_some, Exact.neg_some,
    Exact.exp_some]
  rfl

theorem degenerate_eq (forward strike t sigma : ℝ) :
    degenerate (some forward : Exact) (some strike) (some t) (some sigma) = false ↔
      0 < forward ∧ 0 < strike ∧ 0 < t ∧ 0 < sigma := by
  simp only [degenerate, Exact.zero_eq, Exact.lt_some, Bool.or_eq_false_iff, Bool.not_eq_false', decide_eq_true_eq]
  tauto

theorem black76Price_eq (hforward : 0 < forward) (hstrike : 0 < strike) (ht : 0 < t) (hsigma : 0 < sigma) (rate : ℝ)
    (right : Right) :
    black76Price (some forward : Exact) (some strike) (some t) (some sigma) (some rate) right =
      some (value forward strike t sigma rate right) := by
  have hnot := (degenerate_eq forward strike t sigma).mpr ⟨hforward, hstrike, ht, hsigma⟩
  unfold black76Price value
  rw [hnot, if_neg Bool.false_ne_true, computeD_eq hforward hstrike ht hsigma]
  simp only [Exact.neg_some, normCdf_eq, Exact.mul_some, Exact.sub_some]
  split_ifs <;> rfl

/-! ## Parity -/

/-- **Put-call parity**, of any volatility, and of none. -/
theorem black76_parity (forward strike t sigma rate : ℝ) :
    ∃ call put : ℝ,
      black76Price (some forward : Exact) (some strike) (some t) (some sigma) (some rate) .Call = some call ∧
      black76Price (some forward : Exact) (some strike) (some t) (some sigma) (some rate) .Put = some put ∧
      call - put = Real.exp (-rate * max 0 t) * (forward - strike) := by
  cases hdeg : degenerate (some forward : Exact) (some strike) (some t) (some sigma) with
  | true =>
      refine ⟨Real.exp (-rate * max 0 t) * max 0 (forward - strike),
        Real.exp (-rate * max 0 t) * max 0 (strike - forward), ?_, ?_, ?_⟩
      · simp [black76Price, hdeg, intrinsic]
      · simp [black76Price, hdeg, intrinsic]
      · rcases le_total forward strike with hle | hle
        · rw [max_eq_left (sub_nonpos.mpr hle), max_eq_right (sub_nonneg.mpr hle)]
          ring
        · rw [max_eq_right (sub_nonneg.mpr hle), max_eq_left (sub_nonpos.mpr hle)]
          ring
  | false =>
      obtain ⟨hforward, hstrike, ht, hsigma⟩ := (degenerate_eq _ _ _ _).mp hdeg
      refine ⟨_, _, black76Price_eq hforward hstrike ht hsigma rate .Call,
        black76Price_eq hforward hstrike ht hsigma rate .Put, ?_⟩
      have h1 := cdf_add_cdf_neg (d1 forward strike t sigma)
      have h2 := cdf_add_cdf_neg (d2 forward strike t sigma)
      rw [max_eq_right ht.le]
      unfold value
      rw [if_pos rfl, if_neg (by decide), ← mul_sub]
      congr 1
      linear_combination forward * h1 - strike * h2

end Pricing

/-! ## The search -/

namespace Parity

variable {F : Type} [Double F] {parity : ℕ → Option F}

open Double

/-- The difference the search would price off is one it has probed. -/
def Search.Probed (parity : ℕ → Option F) (s : Search F) : Prop := parity s.best = some s.bestDiff

theorem Search.Probed.improve {s : Search F} (h : s.Probed parity) {i : ℕ} {d : F} (hd : parity i = some d) :
    (s.improve i d).Probed parity := by
  unfold Search.improve
  split
  · exact hd
  · exact h

theorem bracket_probed {n : ℕ} (strides : List ℕ) {s : Search F} (h : s.Probed parity) :
    (bracket parity n strides s).Probed parity := by
  induction strides generalizing s with
  | nil => exact h
  | cons stride strides ih =>
      unfold bracket
      dsimp only
      split
      · -- probing upwards
        split
        · exact h
        · split
          · exact h
          · next d hd =>
            have hprobed : ({ s with lo := s.best, hi := s.best + stride } : Search F).Probed parity := h
            split
            · exact hprobed.improve hd
            · exact ih (hprobed.improve hd)
      · -- probing downwards
        split
        · exact h
        · split
          · exact h
          · next d hd =>
            have hprobed : ({ s with hi := s.best, lo := s.best - stride } : Search F).Probed parity := h
            split
            · exact hprobed.improve hd
            · exact ih (hprobed.improve hd)

theorem bisect_probed (turns : ℕ) {s : Search F} (h : s.Probed parity) : (bisect parity turns s).Probed parity := by
  induction turns generalizing s with
  | zero => exact h
  | succ turns ih =>
      unfold bisect
      dsimp only
      split
      · exact h
      · split
        · exact h
        · next d hd =>
          have himproved := h.improve hd
          split
          · exact ih himproved
          · exact ih himproved

omit [Double F] in
theorem usableNear_eq_some {n i j : ℕ} {d : F} (h : usableNear parity n i = some (j, d)) : parity j = some d := by
  obtain ⟨step, _, h⟩ := List.exists_of_findSome?_eq_some h
  rw [Option.orElse_eq_orElse, Option.orElse_eq_or] at h
  rcases Option.or_eq_some_iff.mp h with h | ⟨_, h⟩
  · split at h
    · obtain ⟨d', hd', h⟩ := Option.map_eq_some_iff.mp h
      cases h
      exact hd'
    · cases h
  · split at h
    · obtain ⟨d', hd', h⟩ := Option.map_eq_some_iff.mp h
      cases h
      exact hd'
    · cases h

omit [Double F] in
/-- The search begins wherever a usable strike lies within thirteen of where it looks. -/
theorem usableNear_isSome_iff {n i : ℕ} (hi : i < n) :
    (usableNear parity n i).isSome ↔ ∃ j < n, i ≤ j + 13 ∧ j ≤ i + 13 ∧ (parity j).isSome := by
  unfold usableNear
  rw [List.findSome?_isSome_iff]
  constructor
  · rintro ⟨step, hstep, h⟩
    rw [List.mem_range] at hstep
    rw [Option.orElse_eq_orElse, Option.orElse_eq_or, Option.isSome_or, Bool.or_eq_true] at h
    rcases h with h | h
    · split at h
      · next hlt =>
        exact ⟨i + step, hlt, by omega, by omega, by simpa using h⟩
      · cases h
    · split at h
      · exact ⟨i - step, by omega, by omega, by omega, by simpa using h⟩
      · cases h
  · rintro ⟨j, hj, hbelow, habove, h⟩
    rcases Nat.le_total i j with hle | hle
    · refine ⟨j - i, List.mem_range.mpr (by omega), ?_⟩
      have hat : i + (j - i) = j := by omega
      simp [hat, hj, h]
    · refine ⟨i - j, List.mem_range.mpr (by omega), ?_⟩
      have hat : i - (i - j) = j := by omega
      rcases Nat.eq_or_lt_of_le hle with rfl | hlt
      · simp [hj, h]
      · have hdown : i - j ≠ 0 ∧ i - j ≤ i := by omega
        simp [hdown, hat, h]

theorem search_eq_some {n : ℕ} {s : Search F} (h : search parity n = some s) : s.Probed parity := by
  obtain ⟨⟨start, diff⟩, hstart, h⟩ := Option.bind_eq_some_iff.mp h
  cases h
  exact bisect_probed _ (bracket_probed _ (usableNear_eq_some hstart))

theorem search_isSome (parity : ℕ → Option F) (n : ℕ) : (search parity n).isSome = (usableNear parity n (n / 2)).isSome := by
  unfold search
  cases usableNear parity n (n / 2) <;> rfl

/-! ## The scan -/

/-- The scan looks at quotes with a positive strike and two positive prices. -/
def Usable (q : ParityQuote F) : Prop := lt zero q.strike = true ∧ lt zero q.call = true ∧ lt zero q.put = true

theorem closerParity_of_not_usable (best : Option (ParityQuote F × F)) {q : ParityQuote F} (h : ¬ Usable q) :
    closerParity best q = best := by
  unfold closerParity
  rw [if_pos]
  unfold Usable at h
  simp only [Bool.or_eq_true, Bool.not_eq_true']
  grind

theorem closerParity_of_usable (best : Option (ParityQuote F × F)) {q : ParityQuote F} (h : Usable q) :
    ∃ b, closerParity best q = some b ∧ (b.1 = q ∨ best = some b) := by
  obtain ⟨hstrike, hcall, hput⟩ := h
  unfold closerParity
  simp only [hstrike, hcall, hput, Bool.not_true, Bool.or_self, Bool.false_eq_true, if_false]
  cases best with
  | none => exact ⟨_, rfl, Or.inl rfl⟩
  | some b =>
      obtain ⟨q', gap⟩ := b
      dsimp only
      split
      · exact ⟨_, rfl, Or.inl rfl⟩
      · exact ⟨_, rfl, Or.inr rfl⟩

/-- What the scan ends with, after the quotes of `seen`. -/
structure Scanned (seen : List (ParityQuote F)) (best : Option (ParityQuote F × F)) : Prop where
  from_seen : ∀ b, best = some b → b.1 ∈ seen ∧ Usable b.1
  found : best.isSome ↔ ∃ q ∈ seen, Usable q

theorem scanned_foldl (quotes : List (ParityQuote F)) : Scanned quotes (quotes.foldl closerParity none) := by
  induction quotes using List.reverseRecOn with
  | nil => exact ⟨nofun, by simp⟩
  | append_singleton quotes q ih =>
      rw [List.foldl_append, List.foldl_cons, List.foldl_nil]
      by_cases hq : Usable q
      · obtain ⟨b, hb, hfrom⟩ := closerParity_of_usable (quotes.foldl closerParity none) hq
        rw [hb]
        refine ⟨?_, ?_⟩
        · rintro b' ⟨⟩
          rcases hfrom with rfl | hbest
          · exact ⟨by simp, hq⟩
          · obtain ⟨hmem, husable⟩ := ih.from_seen b hbest
            exact ⟨List.mem_append_left _ hmem, husable⟩
        · simp only [Option.isSome_some, true_iff]
          exact ⟨q, by simp, hq⟩
      · rw [closerParity_of_not_usable _ hq]
        refine ⟨?_, ?_⟩
        · intro b hb
          obtain ⟨hmem, husable⟩ := ih.from_seen b hb
          exact ⟨List.mem_append_left _ hmem, husable⟩
        · rw [ih.found]
          constructor
          · rintro ⟨q', hmem, husable⟩
            exact ⟨q', List.mem_append_left _ hmem, husable⟩
          · rintro ⟨q', hmem, husable⟩
            rcases List.mem_append.mp hmem with hmem | hmem
            · exact ⟨q', hmem, husable⟩
            · exact absurd (List.mem_singleton.mp hmem ▸ husable) hq

end Parity

/-! ## Main result -/

namespace Pricing

/-- The years left to an expiry. -/
noncomputable def years (now : Timestamp) (expiry : Date) (utcOffsetSeconds : Int) : ℝ :=
  max 0 (((timestampOf expiry kExpirySecondOfDay utcOffsetSeconds - now : Int) : ℝ) / 1000000000) / (365 * 86400)

theorem le_some (x y : ℝ) : Double.le (some x : Exact) (some y) = decide (x ≤ y) := by
  show decide (∃ a ∈ (some x : Option ℝ), ∃ b ∈ (some y : Option ℝ), a ≤ b) = _
  simp

theorem timeToExpiry_eq (now : Timestamp) (expiry : Date) (utcOffsetSeconds : Int) :
    (timeToExpiry now expiry utcOffsetSeconds : Exact) = some (years now expiry utcOffsetSeconds) := by
  unfold timeToExpiry years
  dsimp only
  rw [Exact.ofInt_eq, Exact.ofInt_eq, Exact.div_some _ (by norm_num), Exact.zero_eq, le_some]
  split
  case isTrue hle =>
    rw [decide_eq_true_eq] at hle
    push_cast at hle ⊢
    rw [max_eq_left hle, zero_div]
  case isFalse hgt =>
    rw [decide_eq_true_eq, not_le] at hgt
    rw [Exact.ofInt_eq, Exact.ofInt_eq, Exact.mul_some, Exact.div_some _ (by norm_num)]
    push_cast at hgt ⊢
    rw [max_eq_right hgt.le]

/-- The forward read off one strike of quotes that keep parity. -/
theorem forward_of_difference (forward strike t rate : ℝ) :
    strike + Real.exp (rate * t) * (Real.exp (-rate * t) * (forward - strike)) = forward := by
  rw [← mul_assoc, ← Real.exp_add]
  have hcancel : rate * t + -rate * t = 0 := by ring
  rw [hcancel, Real.exp_zero]
  ring

/-- The quote of one strike and its volatility at their Black-76 prices. -/
noncomputable def quoted (forward t rate : ℝ) (x : ℝ × ℝ) : ParityQuote Exact where
  strike := some x.1
  call := black76Price (some forward) (some x.1) (some t) (some x.2) (some rate) .Call
  put := black76Price (some forward) (some x.1) (some t) (some x.2) (some rate) .Put

/-- The two-sided strikes of the chain keep put-call parity about the forward. -/
def KeepsParity (c : Ctx Exact) (expiry : Date) (rate forward : ℝ) : Prop :=
  ∀ i d, Parity.parityAt c expiry (ChainView.new c expiry).strikes i = some d →
    d = some (Real.exp (-rate * years c.now expiry c.utcOffset) *
      (forward - (((ChainView.new c expiry).strikes.getD i 0).toInt : ℝ) / 100))

/-- The answer is the forward, and there is one exactly under the condition. -/
structure Recovers (answer : Option Exact) (forward : ℝ) (possible : Prop) : Prop where
  right : ∀ f, answer = some f → f = some forward
  answers : answer.isSome ↔ possible

theorem recovers_some {forward : ℝ} {possible : Prop} (h : possible) : Recovers (some (some forward)) forward possible where
  right := by
    rintro f ⟨⟩
    rfl
  answers := by simp [h]

theorem recovers_none {forward : ℝ} {possible : Prop} (h : ¬ possible) : Recovers none forward possible where
  right := nofun
  answers := by simp [h]

/-- The price of a forward passes the last check of both. -/
theorem accepted {forward : ℝ} (hforward : 0 < forward) :
    (!Double.lt Double.zero (some forward : Exact) || !Double.isFinite (some forward : Exact)) = false := by
  have hfinite : Double.isFinite (some forward : Exact) = true := rfl
  simp [hfinite, hforward]

/-- The linear scan over Black-76 prices. -/
theorem forwardFromParity_recovers {forward : ℝ} (hforward : 0 < forward) {t : ℝ} (ht : 0 ≤ t) (rate : ℝ)
    (smile : List (ℝ × ℝ)) :
    Recovers (forwardFromParity (smile.map (quoted forward t rate)) (some t) (some rate)) forward
      (∃ x ∈ smile, Parity.Usable (quoted forward t rate x)) := by
  have hscan := Parity.scanned_foldl (smile.map (quoted forward t rate))
  have hfound := hscan.found
  simp only [List.mem_map, exists_exists_and_eq_and] at hfound
  unfold forwardFromParity
  cases hbest : (smile.map (quoted forward t rate)).foldl closerParity none with
  | none =>
      rw [hbest] at hfound
      exact recovers_none (fun h => by simpa using hfound.mpr h)
  | some b =>
      rw [hbest] at hfound
      obtain ⟨hmem, _⟩ := hscan.from_seen b hbest
      obtain ⟨x, _, hx⟩ := List.mem_map.mp hmem
      obtain ⟨call, put, hcall, hput, hparity⟩ := black76_parity forward x.1 t x.2 rate
      rw [max_eq_right ht] at hparity
      obtain ⟨q, gap⟩ := b
      dsimp only at hx ⊢
      have hfwd : q.strike + Double.exp ((some rate : Exact) * some t) * (q.call - q.put) = some forward := by
        rw [← hx]
        dsimp only [quoted]
        rw [hcall, hput, Exact.sub_some, hparity, Exact.mul_some, Exact.exp_some, Exact.mul_some, Exact.add_some,
          forward_of_difference]
      rw [hfwd, accepted hforward]
      exact recovers_some (hfound.mp rfl)

/-- The search of a context. -/
theorem forward_recovers {c : Ctx Exact} {expiry : Date} {rate forward : ℝ} (hrate : c.rate = some rate)
    (hforward : 0 < forward) (ht : 0 < years c.now expiry c.utcOffset) (hparity : KeepsParity c expiry rate forward) :
    Recovers (c.forward expiry) forward
      (∃ j < (ChainView.new c expiry).strikes.length, (ChainView.new c expiry).strikes.length / 2 ≤ j + 13 ∧
        j ≤ (ChainView.new c expiry).strikes.length / 2 + 13 ∧
        (Parity.parityAt c expiry (ChainView.new c expiry).strikes j).isSome) := by
  have hlive : (!Double.lt (Double.zero : Exact) (timeToExpiry c.now expiry c.utcOffset)) = false := by
    rw [timeToExpiry_eq]
    simp [ht]
  rw [Ctx.forward_eq, hlive, if_neg Bool.false_ne_true]
  cases hladder : (ChainView.new c expiry).strikes.isEmpty with
  | true =>
      rw [List.isEmpty_iff] at hladder
      rw [if_pos rfl, hladder]
      exact recovers_none (by simp)
  | false =>
      have hn : 0 < (ChainView.new c expiry).strikes.length := List.length_pos_iff.mpr (by simpa using hladder)
      have hmiddle := Nat.div_lt_self hn Nat.one_lt_two
      have hsome := @Parity.usableNear_isSome_iff Exact (Parity.parityAt c expiry (ChainView.new c expiry).strikes) _ _
        hmiddle
      rw [← Parity.search_isSome] at hsome
      rw [if_neg Bool.false_ne_true]
      cases hsearch : Parity.search (Parity.parityAt c expiry (ChainView.new c expiry).strikes)
          (ChainView.new c expiry).strikes.length with
      | none =>
          rw [hsearch] at hsome
          exact recovers_none (fun h => by simpa using hsome.mpr h)
      | some s =>
          rw [hsearch] at hsome
          have hdiff := hparity s.best s.bestDiff (Parity.search_eq_some hsearch)
          have hfwd : c.forwardOff expiry ((ChainView.new c expiry).strikes.getD s.best 0) s.bestDiff =
              some (some forward) := by
            unfold Ctx.forwardOff
            dsimp only
            rw [hdiff, hrate, timeToExpiry_eq, Exact.ofMinor_eq, Exact.mul_some, Exact.exp_some, Exact.mul_some,
              Exact.add_some, forward_of_difference, accepted hforward]
            rfl
          rw [Option.bind_some, hfwd]
          exact recovers_some (hsome.mp rfl)

/-- **Parity recovers the forward.** A call less a put is the discounted distance of the forward from the strike,
    whatever the volatility. So on any smile of Black-76 prices the scan answers with the forward as soon as one quote is
    usable; and on a chain whose two-sided strikes keep parity the search of a context does, whichever strike it ends
    at, as soon as one of the thirteen strikes about the middle is two-sided. -/
theorem parity_recovers_forward :
    (∀ forward strike t sigma rate : ℝ, ∃ call put : ℝ,
      black76Price (some forward : Exact) (some strike) (some t) (some sigma) (some rate) .Call = some call ∧
      black76Price (some forward : Exact) (some strike) (some t) (some sigma) (some rate) .Put = some put ∧
      call - put = Real.exp (-rate * max 0 t) * (forward - strike)) ∧
    (∀ (forward t rate : ℝ) (smile : List (ℝ × ℝ)), 0 < forward → 0 ≤ t →
      Recovers (forwardFromParity (smile.map (quoted forward t rate)) (some t) (some rate)) forward
        (∃ x ∈ smile, Parity.Usable (quoted forward t rate x))) ∧
    (∀ (c : Ctx Exact) (expiry : Date) (rate forward : ℝ), c.rate = some rate → 0 < forward →
      0 < years c.now expiry c.utcOffset → KeepsParity c expiry rate forward →
      Recovers (c.forward expiry) forward
        (∃ j < (ChainView.new c expiry).strikes.length, (ChainView.new c expiry).strikes.length / 2 ≤ j + 13 ∧
          j ≤ (ChainView.new c expiry).strikes.length / 2 + 13 ∧
          (Parity.parityAt c expiry (ChainView.new c expiry).strikes j).isSome)) := by
  refine ⟨black76_parity, ?_, ?_⟩
  · intro forward t rate smile hforward ht
    exact forwardFromParity_recovers hforward ht rate smile
  · intro c expiry rate forward hrate hforward ht hparity
    exact forward_recovers hrate hforward ht hparity

/-- Four strikes that keep parity about 100, at a rate of zero. -/
noncomputable def parityCtx : Ctx Exact where
  market := (ladderSession fourStrikes [500, 400, 300, 200]).view 1
  portfolio := .empty crossSpreadFill 0 noCosts
  underlying := 0
  spot := -1
  date := ⟨20250701⟩
  utcOffset := kISTOffsetSeconds
  anchor := 0
  rate := some 0
  margin := defaultMarginModel
  calendar := none
  series := []

theorem parityCtx_strikes : (ChainView.new parityCtx ⟨20250703⟩).strikes = fourStrikes := by decide +kernel

theorem parityCtx_keepsParity : KeepsParity parityCtx ⟨20250703⟩ 0 100 := by
  have hquoted : ∀ i < 4, Parity.midsAt parityCtx ⟨20250703⟩ fourStrikes i = some (fourCalls i, 500) := by decide +kernel
  have hdifference : ∀ i < 4, fourCalls i - 500 = 10000 - (fourStrikes.getD i 0).toInt := by decide
  intro i d hd
  rw [parityCtx_strikes] at hd ⊢
  rw [Parity.parityAt_eq] at hd
  rcases Nat.lt_or_ge i 4 with hi | hi
  · rw [hquoted i hi, Option.map_some, Option.some.injEq] at hd
    have hint : ((fourCalls i : ℤ) : ℝ) - (500 : ℤ) = (10000 : ℤ) - ((fourStrikes.getD i 0).toInt : ℝ) := by
      exact_mod_cast hdifference i hi
    rw [← hd, Exact.ofMinor_eq, Exact.ofMinor_eq, Exact.sub_some, neg_zero, zero_mul, Real.exp_zero, one_mul]
    congr 1
    push_cast at hint ⊢
    linarith
  · have hnone : fourStrikes[i]? = none := List.getElem?_eq_none hi
    simp [Parity.midsAt, hnone] at hd

theorem parity_recovers_forward_four : parityCtx.forward ⟨20250703⟩ = some (some 100) := by
  have ht : 0 < years parityCtx.now ⟨20250703⟩ parityCtx.utcOffset := by
    have hend : timestampOf ⟨20250703⟩ kExpirySecondOfDay parityCtx.utcOffset - parityCtx.now = 1751536799999999999 := by
      decide +kernel
    unfold years
    rw [hend]
    norm_num
  have h := parity_recovers_forward.2.2 parityCtx ⟨20250703⟩ 0 100 rfl (by norm_num) ht parityCtx_keepsParity
  have hmiddle : (Parity.parityAt parityCtx ⟨20250703⟩ fourStrikes 2).isSome := by
    rw [Parity.parityAt_eq, Option.isSome_map]
    decide +kernel
  have hsome := h.answers.mpr ⟨2, by rw [parityCtx_strikes]; decide, by rw [parityCtx_strikes]; decide,
    by rw [parityCtx_strikes]; decide, by rw [parityCtx_strikes]; exact hmiddle⟩
  obtain ⟨f, hf⟩ := Option.isSome_iff_exists.mp hsome
  rw [hf, h.right f hf]

end Pricing

end Volforge
