import Volforge.Core.Exact
import Volforge.Core.Margin
import Volforge.Lib.Worst

/-!
# `Core.Correctness.Grouping` — margin of books held together

In exact arithmetic the value of a book is a sum over its legs, so what it loses in a scenario is the sum of
what its parts lose there. The worst loss, the floor and the exposure of a book are then at most those of its
parts together. Only the special case of a book with nothing short stands against it: such a book posts nothing,
while what its legs can lose counts as soon as they are held with a short one.

## Contents
- **Exact prices.** `black76Price` of real numbers is a real number.
- **Books.** `valueOf`, `lossOf`, and the worst loss of a book.
- **Requirements.** `beforeRounding`, and the parts it is made of.
- **Main result.** `grouping_costs_at_most`.
-/

namespace Volforge

/-! ## Exact prices -/

namespace Exact

@[simp] theorem one_eq : (Double.one : Exact) = some 1 := congrArg some Int.cast_one

@[simp] theorem neg_some (x : ℝ) : -(some x : Exact) = some (-x) := rfl

theorem lit_eq (n : Int) (d : Nat) : (Double.lit n d : Exact) = some ((n : ℝ) / d) := rfl

@[simp] theorem lt_some (x y : ℝ) : Double.lt (some x : Exact) (some y) = decide (x < y) := by
  show decide (∃ a ∈ (some x : Option ℝ), ∃ b ∈ (some y : Option ℝ), a < b) = _
  simp

@[simp] theorem max_some (x y : ℝ) : Double.max (some x : Exact) (some y) = some (max x y) := by
  unfold Double.max
  by_cases h : x < y
  · rw [if_pos (by simpa using h), max_eq_right (le_of_lt h)]
  · rw [if_neg (by simpa using h), max_eq_left (not_lt.mp h)]

@[simp] theorem exp_some (x : ℝ) : (Double.exp (some x) : Exact) = some (Real.exp x) := rfl

theorem log_some {x : ℝ} (hx : 0 < x) : (Double.log (some x) : Exact) = some (Real.log x) :=
  if_neg (not_le.mpr hx)

theorem normCdf_some (x : ℝ) : ∃ v : ℝ, normCdf (some x : Exact) = some v := by
  obtain ⟨k, hk, hk₀⟩ : ∃ k : ℝ, (kSqrt2 : Exact) = some k ∧ k ≠ 0 :=
    ⟨((141421356237309504880 : ℤ) : ℝ) / (100000000000000000000 : ℕ), rfl, by norm_num⟩
  unfold normCdf
  rw [hk, neg_some, div_some _ hk₀, lit_eq]
  exact ⟨_, rfl⟩

/-- **A price is a number.** -/
theorem black76Price_some (forward strike t sigma rate : ℝ) (right : Right) :
    ∃ v : ℝ, black76Price (some forward : Exact) (some strike) (some t) (some sigma) (some rate) right = some v := by
  unfold black76Price
  by_cases hdeg : degenerate (some forward : Exact) (some strike) (some t) (some sigma) = true
  · rw [if_pos hdeg]
    unfold intrinsic
    simp only [zero_eq, max_some, neg_some, mul_some, exp_some, sub_some]
    split_ifs
    · exact ⟨_, mul_some _ _⟩
    · exact ⟨_, mul_some _ _⟩
  · rw [if_neg hdeg]
    simp only [degenerate, zero_eq, lt_some, Bool.or_eq_true, Bool.not_eq_true', decide_eq_false_iff_not, not_or,
      not_not] at hdeg
    -- not degenerate, so every quotient, root and logarithm is of a positive number
    obtain ⟨⟨⟨hforward, hstrike⟩, ht⟩, hsigma⟩ := hdeg
    have hvol : sigma * √t ≠ 0 := ne_of_gt (mul_pos hsigma (Real.sqrt_pos.mpr ht))
    have hd : ∃ d1 d2 df : ℝ, (computeD (some forward : Exact) (some strike) (some t) (some sigma) (some rate)).d1 = some d1 ∧
        (computeD (some forward : Exact) (some strike) (some t) (some sigma) (some rate)).d2 = some d2 ∧
        (computeD (some forward : Exact) (some strike) (some t) (some sigma) (some rate)).df = some df := by
      unfold computeD
      simp only [sqrt_some (le_of_lt ht), mul_some, lit_eq, div_some _ (ne_of_gt hstrike),
        log_some (div_pos hforward hstrike), add_some, div_some _ hvol, sub_some, neg_some, exp_some]
      exact ⟨_, _, _, rfl, rfl, rfl⟩
    obtain ⟨d1, d2, df, hd1, hd2, hdf⟩ := hd
    obtain ⟨n1, hn1⟩ := normCdf_some d1
    obtain ⟨n2, hn2⟩ := normCdf_some d2
    obtain ⟨m1, hm1⟩ := normCdf_some (-d1)
    obtain ⟨m2, hm2⟩ := normCdf_some (-d2)
    simp only [hd1, hd2, hdf, hn1, hn2, hm1, hm2, neg_some, mul_some, sub_some]
    split_ifs
    · exact ⟨_, rfl⟩
    · exact ⟨_, rfl⟩

end Exact

/-! ## Books -/

/-- A leg whose strike and volatility are numbers. -/
def MarginLeg.exact (l : MarginLeg ℝ) : MarginLeg Exact := ⟨l.right, some l.strike, l.qty, some l.iv⟩

namespace Grouping

/-- A number that is not below zero. -/
def NonNegative (x : Exact) : Prop := ∃ r : ℝ, 0 ≤ r ∧ x = some r

end Grouping

/-- Parameters that are numbers, none of them below zero. -/
structure SpanParameters.NonNegative (p : SpanParameters Exact) : Prop where
  priceScan : Grouping.NonNegative p.priceScanPct
  volScan : Grouping.NonNegative p.volScanPct
  extreme : Grouping.NonNegative p.extremeMultiplier
  weight : Grouping.NonNegative p.extremeWeight
  minimum : Grouping.NonNegative p.shortOptionMinimumPct
  exposure : Grouping.NonNegative p.exposurePct

namespace Grouping

/-- The value of a book is a sum over its legs. -/
theorem portfolioValue_sum (forward t rate shift vol : ℝ) : ∃ worth : MarginLeg ℝ → ℝ,
    ∀ legs : List (MarginLeg ℝ),
    portfolioValue (legs.map MarginLeg.exact) (some forward) (some t) (some rate) (some shift) (some vol) =
      some (legs.map worth).sum := by
  have hprice : ∀ l : MarginLeg ℝ, ∃ px : ℝ, black76Price (some forward + some shift : Exact) (some l.strike) (some t)
      (Double.max (Double.lit 1 10000) (some l.iv * some vol)) (some rate) l.right = some px := by
    intro l
    rw [Exact.lit_eq, Exact.mul_some, Exact.max_some, Exact.add_some]
    exact Exact.black76Price_some _ _ _ _ _ _
  choose px hpx using hprice
  refine ⟨fun l => px l * l.qty, fun legs => ?_⟩
  unfold portfolioValue
  generalize hstep : (fun (value : Exact) (leg : MarginLeg Exact) => _) = step
  have hone : ∀ (v : ℝ) (l : MarginLeg ℝ), step (some v) l.exact = some (v + px l * l.qty) := by
    intro v l
    have hl := hpx l
    rw [← hstep]
    dsimp only [MarginLeg.exact]
    rw [hl, Exact.ofInt_eq, Exact.mul_some, Exact.add_some]
  have hfold : ∀ (legs : List (MarginLeg ℝ)) (v : ℝ),
      (legs.map MarginLeg.exact).foldl step (some v) = some (v + (legs.map (fun l => px l * l.qty)).sum) := by
    intro legs
    induction legs with
    | nil =>
        intro v
        simp
    | cons l legs ih =>
        intro v
        rw [List.map_cons, List.foldl_cons, hone, ih, List.map_cons, List.sum_cons, add_assoc]
  rw [Exact.zero_eq, hfold, zero_add]

/-- What a book is worth. -/
noncomputable def valueOf (legs : List (MarginLeg ℝ)) (forward t rate shift vol : ℝ) : ℝ :=
  (portfolioValue (legs.map MarginLeg.exact) (some forward) (some t) (some rate) (some shift) (some vol)).getD 0

theorem portfolioValue_eq (legs : List (MarginLeg ℝ)) (forward t rate shift vol : ℝ) :
    portfolioValue (legs.map MarginLeg.exact) (some forward) (some t) (some rate) (some shift) (some vol) =
      some (valueOf legs forward t rate shift vol) := by
  obtain ⟨worth, hworth⟩ := portfolioValue_sum forward t rate shift vol
  unfold valueOf
  rw [hworth]
  rfl

/-- **Value adds up.** -/
theorem valueOf_append (A B : List (MarginLeg ℝ)) (forward t rate shift vol : ℝ) :
    valueOf (A ++ B) forward t rate shift vol =
      valueOf A forward t rate shift vol + valueOf B forward t rate shift vol := by
  obtain ⟨worth, hworth⟩ := portfolioValue_sum forward t rate shift vol
  unfold valueOf
  rw [hworth, hworth, hworth, List.map_append, List.sum_append]
  rfl

/-- The scenario's numbers. -/
def Known (s : Scenario Exact) : Prop :=
  ∃ x v w : ℝ, s = ⟨some x, some v, some w⟩

theorem buildScenarios_eq (m w : ℝ) : buildScenarios (some m : Exact) (some w) =
    [⟨some 0, some 1, some 1⟩, ⟨some 0, some (-1), some 1⟩,
     ⟨some (1 / 3), some 1, some 1⟩, ⟨some (1 / 3), some (-1), some 1⟩,
     ⟨some (-(1 / 3)), some 1, some 1⟩, ⟨some (-(1 / 3)), some (-1), some 1⟩,
     ⟨some (2 / 3), some 1, some 1⟩, ⟨some (2 / 3), some (-1), some 1⟩,
     ⟨some (-(2 / 3)), some 1, some 1⟩, ⟨some (-(2 / 3)), some (-1), some 1⟩,
     ⟨some 1, some 1, some 1⟩, ⟨some 1, some (-1), some 1⟩,
     ⟨some (-1), some 1, some 1⟩, ⟨some (-1), some (-1), some 1⟩,
     ⟨some m, some 0, some w⟩, ⟨some (-m), some 0, some w⟩] := by
  have hthird : (Double.ofInt 1 / Double.ofInt 3 : Exact) = some (1 / 3) := by
    rw [Exact.ofInt_eq, Exact.ofInt_eq, Exact.div_some _ (by norm_num)]
    norm_num
  have htwo : (Double.ofInt 2 / Double.ofInt 3 : Exact) = some (2 / 3) := by
    rw [Exact.ofInt_eq, Exact.ofInt_eq, Exact.div_some _ (by norm_num)]
    norm_num
  unfold buildScenarios
  simp only [hthird, htwo, Exact.one_eq, Exact.zero_eq, Exact.neg_some]

theorem buildScenarios_known (m w : ℝ) : ∀ s ∈ buildScenarios (some m : Exact) (some w), Known s := by
  rw [buildScenarios_eq]
  simp only [List.forall_mem_cons, List.not_mem_nil, false_implies, implies_true, and_true]
  simp only [Known, Scenario.mk.injEq, Option.some.injEq, exists_and_left, exists_eq', and_true, and_self]

/-- What a book loses in a scenario, as it is charged. -/
noncomputable def lossOf (legs : List (MarginLeg ℝ)) (forward t rate scan vol : ℝ) (s : Scenario Exact) : ℝ :=
  (valueOf legs forward t rate 0 1 -
    valueOf legs forward t rate (s.priceFraction.getD 0 * scan) (1 + s.volFraction.getD 0 * vol)) * s.weight.getD 0

theorem lossOf_append (A B : List (MarginLeg ℝ)) (forward t rate scan vol : ℝ) (s : Scenario Exact) :
    lossOf (A ++ B) forward t rate scan vol s =
      lossOf A forward t rate scan vol s + lossOf B forward t rate scan vol s := by
  unfold lossOf
  rw [valueOf_append, valueOf_append]
  ring

theorem charged_eq (legs : List (MarginLeg ℝ)) (forward t rate scan vol : ℝ) {s : Scenario Exact} (hs : Known s) :
    ((some (valueOf legs forward t rate 0 1) : Exact) -
      portfolioValue (legs.map MarginLeg.exact) (some forward) (some t) (some rate) (s.priceFraction * some scan)
        (Double.one + s.volFraction * some vol)) * s.weight = some (lossOf legs forward t rate scan vol s) := by
  obtain ⟨x, v, w, rfl⟩ := hs
  simp only [Exact.one_eq, Exact.mul_some, Exact.add_some, portfolioValue_eq, Exact.sub_some]
  rfl

/-- The loop over the scenarios keeps the worst loss. -/
theorem scanScenarios_worst (legs : List (MarginLeg ℝ)) (forward t rate scan vol : ℝ) {ss : List (Scenario Exact)}
    (hss : ∀ s ∈ ss, Known s) :
    (scanScenarios (legs.map MarginLeg.exact) (some forward) (some t) (some rate)
      (some (valueOf legs forward t rate 0 1)) (some scan) (some vol) ss).1 =
      some (Worst.worst (lossOf legs forward t rate scan vol) ss) := by
  unfold scanScenarios Worst.worst
  -- the loop's body, which also carries the index of the worst scenario
  generalize hstep : (fun (worst : Exact × Int) (x : Scenario Exact × ℕ) => _) = step
  have hone : ∀ (m : ℝ) (i : Int) (s : Scenario Exact) (k : ℕ), Known s →
      ∃ i', step (some m, i) (s, k) = (some (max m (lossOf legs forward t rate scan vol s)), i') := by
    intro m i s k hs
    rw [← hstep]
    dsimp only
    rw [charged_eq legs forward t rate scan vol hs, Exact.lt_some]
    by_cases hlt : m < lossOf legs forward t rate scan vol s
    · rw [if_pos (by simpa using hlt), max_eq_right (le_of_lt hlt)]
      exact ⟨_, rfl⟩
    · rw [if_neg (by simpa using hlt), max_eq_left (not_lt.mp hlt)]
      exact ⟨_, rfl⟩
  have hloop : ∀ (ss : List (Scenario Exact)) (n : ℕ) (m : ℝ) (i : Int), (∀ s ∈ ss, Known s) →
      ((ss.zipIdx n).foldl step (some m, i)).1 =
        some (ss.foldl (fun m s => max m (lossOf legs forward t rate scan vol s)) m) := by
    intro ss
    induction ss with
    | nil => exact fun _ _ _ _ => rfl
    | cons s ss ih =>
        intro n m i hall
        obtain ⟨hs, hss⟩ := List.forall_mem_cons.mp hall
        obtain ⟨i', hi'⟩ := hone m i s n hs
        rw [List.zipIdx_cons, List.foldl_cons, List.foldl_cons, hi']
        exact ih (n + 1) _ i' hss
  rw [Exact.zero_eq]
  exact hloop ss 0 0 (-1) hss

/-! ## Requirements -/

section Requirement

variable {F : Type} [Double F]

/-- Short contracts that no long ones offset. -/
def netShort (legs : List (MarginLeg F)) : Qty :=
  max 0 ((legs.map (fun l => if l.qty < 0 then -l.qty else 0)).sum - (legs.map (fun l => if l.qty < 0 then 0 else l.qty)).sum)

/-- `span_margin` up to where it rounds: the span value and the exposure. -/
def beforeRounding (p : SpanParameters F) (legs : List (MarginLeg F)) (forward t rate : F) : F × F :=
  if legs.isEmpty || !Double.lt Double.zero forward then (Double.zero, Double.zero)
  else if !legs.any (fun l => l.qty < 0) then (Double.zero, Double.zero)
  else
    let base := portfolioValue legs forward t rate Double.zero Double.one
    let (scanningRisk, _) := scanScenarios legs forward t rate base (forward * p.priceScanPct) p.volScanPct
      (buildScenarios p.extremeMultiplier p.extremeWeight)
    let shortNotional := forward * Double.ofInt (netShort legs)
    let shortOptionMin := shortNotional * p.shortOptionMinimumPct
    (if Double.lt scanningRisk shortOptionMin then shortOptionMin else scanningRisk, shortNotional * p.exposurePct)

/-- The requirement before it is rounded. -/
def required (p : SpanParameters F) (legs : List (MarginLeg F)) (forward t rate : F) : F :=
  let (span, exposure) := beforeRounding p legs forward t rate
  span + exposure

end Requirement

/-- The result is what `beforeRounding` says, rounded to paise. -/
@[mk_iff]
structure Rounds (p : SpanParameters Exact) (legs : List (MarginLeg Exact)) (forward t rate : Exact) : Prop where
  span : (spanMargin p legs forward t rate).span =
    Double.llround ((beforeRounding p legs forward t rate).1 * Double.ofInt 100)
  exposure : (spanMargin p legs forward t rate).exposure =
    Double.llround ((beforeRounding p legs forward t rate).2 * Double.ofInt 100)
  total : (spanMargin p legs forward t rate).total =
    (spanMargin p legs forward t rate).span + (spanMargin p legs forward t rate).exposure

theorem rounds (p : SpanParameters Exact) (legs : List (MarginLeg Exact)) (forward t rate : Exact) :
    Rounds p legs forward t rate := by
  have hnothing : Double.llround ((Double.zero : Exact) * Double.ofInt 100) = 0 := by
    rw [Exact.zero_eq, Exact.ofInt_eq, Exact.mul_some, zero_mul]
    show (if (0 : ℝ) ≤ 0 then ⌊(0 : ℝ) + 1 / 2⌋ else ⌈(0 : ℝ) - 1 / 2⌉) = 0
    norm_num
  rw [rounds_iff]
  unfold spanMargin beforeRounding
  split_ifs
  · exact ⟨hnothing.symm, hnothing.symm, rfl⟩
  · exact ⟨hnothing.symm, hnothing.symm, rfl⟩
  · exact ⟨rfl, rfl, rfl⟩

/-! ### The parts -/

theorem hasShort_iff (legs : List (MarginLeg ℝ)) :
    (legs.map MarginLeg.exact).any (fun l => decide (l.qty < 0)) = true ↔ ∃ l ∈ legs, l.qty < 0 := by
  rw [List.any_map, List.any_eq_true]
  simp only [Function.comp_apply, decide_eq_true_eq]
  rfl

/-- The net short position is the sum of the quantities, where that is short. -/
theorem netShort_eq (legs : List (MarginLeg ℝ)) :
    netShort (legs.map MarginLeg.exact) = max 0 (-(legs.map (·.qty)).sum) := by
  unfold netShort
  have hsum : ∀ legs : List (MarginLeg ℝ),
      ((legs.map MarginLeg.exact).map (fun l => if l.qty < 0 then -l.qty else 0)).sum -
        ((legs.map MarginLeg.exact).map (fun l => if l.qty < 0 then 0 else l.qty)).sum =
        -(legs.map (·.qty)).sum := by
    intro legs
    induction legs with
    | nil => rfl
    | cons l legs ih =>
        simp only [List.map_cons, List.sum_cons, MarginLeg.exact] at ih ⊢
        split_ifs <;> lia
  rw [hsum]

/-- The worst loss of a book over the sixteen scenarios. -/
noncomputable def worstLoss (p : SpanParameters Exact) (legs : List (MarginLeg ℝ)) (forward t rate : ℝ) : ℝ :=
  Worst.worst (lossOf legs forward t rate (forward * p.priceScanPct.getD 0) (p.volScanPct.getD 0))
    (buildScenarios p.extremeMultiplier p.extremeWeight)

theorem worstLoss_append (p : SpanParameters Exact) (A B : List (MarginLeg ℝ)) (forward t rate : ℝ) :
    worstLoss p (A ++ B) forward t rate ≤ worstLoss p A forward t rate + worstLoss p B forward t rate :=
  Worst.worst_add_le (fun s _ => lossOf_append A B forward t rate _ _ s)

/-- What is charged on the net short position, at a rate. -/
noncomputable def shortCharge (legs : List (MarginLeg ℝ)) (forward pct : ℝ) : ℝ :=
  forward * ((netShort (legs.map MarginLeg.exact) : Int) : ℝ) * pct

/-- Longs offset shorts across the two books. -/
theorem shortCharge_append (A B : List (MarginLeg ℝ)) {forward pct : ℝ} (hforward : 0 < forward) (hpct : 0 ≤ pct) :
    shortCharge (A ++ B) forward pct ≤ shortCharge A forward pct + shortCharge B forward pct := by
  have hnet : netShort ((A ++ B).map MarginLeg.exact) ≤
      netShort (A.map MarginLeg.exact) + netShort (B.map MarginLeg.exact) := by
    rw [netShort_eq, netShort_eq, netShort_eq, List.map_append, List.sum_append, neg_add]
    exact Worst.net_add_le _ _
  have hreal : ((netShort ((A ++ B).map MarginLeg.exact) : Int) : ℝ) ≤
      (netShort (A.map MarginLeg.exact) : Int) + (netShort (B.map MarginLeg.exact) : Int) := by
    exact_mod_cast hnet
  unfold shortCharge
  calc forward * ((netShort ((A ++ B).map MarginLeg.exact) : Int) : ℝ) * pct
      ≤ forward * ((netShort (A.map MarginLeg.exact) : Int) + (netShort (B.map MarginLeg.exact) : Int)) * pct :=
        mul_le_mul_of_nonneg_right (mul_le_mul_of_nonneg_left hreal (le_of_lt hforward)) hpct
    _ = _ := by ring

theorem shortCharge_of_long {legs : List (MarginLeg ℝ)} (h : ¬ ∃ l ∈ legs, l.qty < 0) (forward pct : ℝ) :
    shortCharge legs forward pct = 0 := by
  have hsum : 0 ≤ (legs.map (·.qty)).sum := by
    refine List.sum_nonneg fun q hq => ?_
    obtain ⟨l, hl, rfl⟩ := List.mem_map.mp hq
    exact not_lt.mp fun hneg => h ⟨l, hl, hneg⟩
  unfold shortCharge
  rw [netShort_eq, max_eq_left (by lia)]
  simp

/-- The requirement of a book as if having nothing short did not matter. -/
noncomputable def charge (p : SpanParameters Exact) (legs : List (MarginLeg ℝ)) (forward t rate : ℝ) : ℝ :=
  max (worstLoss p legs forward t rate) (shortCharge legs forward (p.shortOptionMinimumPct.getD 0)) +
    shortCharge legs forward (p.exposurePct.getD 0)

/-- **Each part behaves under concatenation**, and so does what is charged. -/
theorem charge_append {p : SpanParameters Exact} (hp : p.NonNegative) (A B : List (MarginLeg ℝ)) {forward : ℝ}
    (hforward : 0 < forward) (t rate : ℝ) :
    charge p (A ++ B) forward t rate ≤ charge p A forward t rate + charge p B forward t rate := by
  obtain ⟨minimum, hmin₀, hmin⟩ := hp.minimum
  obtain ⟨exposure, hexp₀, hexp⟩ := hp.exposure
  have hworst := worstLoss_append p A B forward t rate
  have hfloor := shortCharge_append A B hforward hmin₀
  have hexposure := shortCharge_append A B hforward hexp₀
  unfold charge
  rw [hmin, hexp, Option.getD_some, Option.getD_some]
  have hspan := le_trans (max_le_max hworst hfloor) max_add_add_le_max_add_max
  linarith

/-- A book with nothing short is charged its worst loss, were it charged. -/
theorem charge_of_long (p : SpanParameters Exact) {legs : List (MarginLeg ℝ)} (h : ¬ ∃ l ∈ legs, l.qty < 0)
    (forward t rate : ℝ) : charge p legs forward t rate = worstLoss p legs forward t rate := by
  unfold charge
  rw [shortCharge_of_long h, shortCharge_of_long h, add_zero]
  exact max_eq_left (Worst.worst_nonneg _ _)

/-- **The requirement** is the charge of a book with something short, and nothing otherwise. -/
theorem required_eq {p : SpanParameters Exact} (hp : p.NonNegative) (legs : List (MarginLeg ℝ)) {forward : ℝ}
    (hforward : 0 < forward) (t rate : ℝ) [Decidable (∃ l ∈ legs, l.qty < 0)] :
    required p (legs.map MarginLeg.exact) (some forward) (some t) (some rate) =
      some (if ∃ l ∈ legs, l.qty < 0 then charge p legs forward t rate else 0) := by
  have hpos : Double.lt (Double.zero : Exact) (some forward) = true := by
    rw [Exact.zero_eq, Exact.lt_some]
    exact decide_eq_true hforward
  unfold required beforeRounding
  by_cases hshort : ∃ l ∈ legs, l.qty < 0
  · have hany := (hasShort_iff legs).mpr hshort
    have hne : (legs.map MarginLeg.exact).isEmpty = false := by
      obtain ⟨l, hl, _⟩ := hshort
      cases legs with
      | nil => cases hl
      | cons l legs => rfl
    obtain ⟨scan, _, hscan⟩ := hp.priceScan
    obtain ⟨vol, _, hvol⟩ := hp.volScan
    obtain ⟨extreme, _, hextreme⟩ := hp.extreme
    obtain ⟨weight, _, hweight⟩ := hp.weight
    obtain ⟨minimum, _, hmin⟩ := hp.minimum
    obtain ⟨exposure, _, hexp⟩ := hp.exposure
    have hknown := buildScenarios_known extreme weight
    have hworst := scanScenarios_worst legs forward t rate (forward * scan) vol hknown
    rw [if_pos hshort, hne, hpos, hany]
    unfold charge worstLoss shortCharge
    rw [hscan, hvol, hextreme, hweight, hmin, hexp]
    simp only [Exact.zero_eq, Exact.one_eq, portfolioValue_eq, Exact.mul_some, Exact.ofInt_eq, hworst,
      Bool.not_true, Bool.or_false, Bool.false_eq_true, if_false, Option.getD_some]
    -- the comparison that applies the floor is the larger of the two
    change Double.max (some _ : Exact) (some _) + some _ = _
    rw [Exact.max_some, Exact.add_some]
  · have hany : (legs.map MarginLeg.exact).any (fun l => decide (l.qty < 0)) = false := by
      rw [Bool.eq_false_iff]
      exact fun h => hshort ((hasShort_iff legs).mp h)
    have hnothing : (Double.zero : Exact) + Double.zero = some 0 := by
      rw [Exact.zero_eq, Exact.add_some, add_zero]
    rw [if_neg hshort, hany, Bool.not_false, if_pos rfl, ite_self]
    exact hnothing

/-! ## Main result -/

open Classical in
/-- **Grouping.** `a`, `b` and `ab` are what the books `A`, `B` and `A ++ B` require before rounding. Held together
    they require no more than apart, when both have something short or neither has (or one is empty). A book
    with nothing short posts nothing by itself, and adds at most its own worst loss to one that has. -/
theorem grouping_costs_at_most {p : SpanParameters Exact} (hp : p.NonNegative) (A B : List (MarginLeg ℝ))
    {forward : ℝ} (hforward : 0 < forward) (t rate : ℝ) :
    (∀ legs : List (MarginLeg ℝ), Rounds p (legs.map MarginLeg.exact) (some forward) (some t) (some rate)) ∧
    ∃ a b ab : ℝ,
      required p (A.map MarginLeg.exact) (some forward) (some t) (some rate) = some a ∧
      required p (B.map MarginLeg.exact) (some forward) (some t) (some rate) = some b ∧
      required p ((A ++ B).map MarginLeg.exact) (some forward) (some t) (some rate) = some ab ∧
      (((∃ l ∈ A, l.qty < 0) ↔ ∃ l ∈ B, l.qty < 0) → ab ≤ a + b) ∧
      (A = [] ∨ B = [] → ab ≤ a + b) ∧
      ((∃ l ∈ A, l.qty < 0) → (∀ l ∈ B, 0 ≤ l.qty) →
        b = 0 ∧ ab ≤ a + worstLoss p B forward t rate) ∧
      ((∀ l ∈ A, 0 ≤ l.qty) → (∃ l ∈ B, l.qty < 0) →
        a = 0 ∧ ab ≤ worstLoss p A forward t rate + b) := by
  have happend : (∃ l ∈ A ++ B, l.qty < 0) ↔ (∃ l ∈ A, l.qty < 0) ∨ ∃ l ∈ B, l.qty < 0 := by
    simp [or_and_right, exists_or]
  have hlong : ∀ legs : List (MarginLeg ℝ), (∀ l ∈ legs, 0 ≤ l.qty) → ¬ ∃ l ∈ legs, l.qty < 0 := by
    rintro legs hall ⟨l, hl, hneg⟩
    exact not_lt.mpr (hall l hl) hneg
  have hsum := charge_append hp A B hforward t rate
  refine ⟨fun legs => rounds p _ _ _ _, _, _, _, required_eq hp A hforward t rate, required_eq hp B hforward t rate,
    required_eq hp (A ++ B) hforward t rate, fun hboth => ?_, ?_, fun hshort hnone => ?_, fun hnone hshort => ?_⟩
  · by_cases hA : ∃ l ∈ A, l.qty < 0
    · have hB := hboth.mp hA
      rw [if_pos (happend.mpr (.inl hA)), if_pos hA, if_pos hB]
      exact hsum
    · have hB : ¬ ∃ l ∈ B, l.qty < 0 := fun h => hA (hboth.mpr h)
      rw [if_neg (fun h => (happend.mp h).elim hA hB), if_neg hA, if_neg hB, add_zero]
  · rintro (rfl | rfl)
    · simp
    · simp
  · -- the book without a short is charged nothing alone, and its own scan together with the other
    have hB := hlong B hnone
    rw [if_pos (happend.mpr (.inl hshort)), if_pos hshort, if_neg hB, ← charge_of_long p hB]
    exact ⟨rfl, hsum⟩
  · have hA := hlong A hnone
    rw [if_pos (happend.mpr (.inr hshort)), if_pos hshort, if_neg hA, ← charge_of_long p hA]
    exact ⟨rfl, hsum⟩

/-! ### A bought call next to a sold put -/

/-- At expiry an option is worth what it pays. -/
theorem valueOf_expired (l : MarginLeg ℝ) (forward rate shift vol : ℝ) :
    valueOf [l] forward 0 rate shift vol =
      (if l.right = .Call then max 0 (forward + shift - l.strike) else max 0 (l.strike - (forward + shift))) * l.qty := by
  have hdeg : ∀ sigma, degenerate (some forward + some shift : Exact) (some l.strike) (some 0) sigma = true := by
    intro sigma
    unfold degenerate
    rw [Exact.zero_eq, Exact.lt_some 0 0]
    simp
  unfold valueOf portfolioValue
  simp only [List.map_cons, List.map_nil, List.foldl_cons, List.foldl_nil, MarginLeg.exact, black76Price, hdeg, if_true]
  unfold intrinsic
  split_ifs <;> simp

/-- One put sold at the money, and one call bought in the money, on the day they expire. -/
def soldPut : MarginLeg ℝ := ⟨.Put, 100, -1, 0⟩
def boughtCall : MarginLeg ℝ := ⟨.Call, 90, 1, 0⟩

theorem default_nonNegative : ({} : SpanParameters Exact).NonNegative where
  priceScan := ⟨_, by norm_num, Exact.lit_eq _ _⟩
  volScan := ⟨_, by norm_num, Exact.lit_eq _ _⟩
  extreme := ⟨_, by norm_num, Exact.ofInt_eq _⟩
  weight := ⟨_, by norm_num, Exact.lit_eq _ _⟩
  minimum := ⟨_, by norm_num, Exact.lit_eq _ _⟩
  exposure := ⟨_, by norm_num, Exact.lit_eq _ _⟩

/-- The default scan range of a forward of 100. -/
theorem default_scan : (100 : ℝ) * ({} : SpanParameters Exact).priceScanPct.getD 0 = 7 / 2 := by
  show (100 : ℝ) * (((35 : ℤ) : ℝ) / (1000 : ℕ)) = 7 / 2
  norm_num

theorem default_scenarios : buildScenarios ({} : SpanParameters Exact).extremeMultiplier
    ({} : SpanParameters Exact).extremeWeight = buildScenarios (some 2 : Exact) (some (33 / 100)) := by
  have hm : ({} : SpanParameters Exact).extremeMultiplier = some 2 := by
    show (Double.ofInt 2 : Exact) = some 2
    rw [Exact.ofInt_eq]
    norm_num
  have hw : ({} : SpanParameters Exact).extremeWeight = some (33 / 100) := by
    show (Double.lit 33 100 : Exact) = some (33 / 100)
    rw [Exact.lit_eq]
    norm_num
  rw [hm, hw]

/-- The put loses what the forward falls. -/
theorem worstLoss_soldPut : worstLoss {} [soldPut] 100 0 0 ≤ 7 / 2 := by
  unfold worstLoss
  rw [default_scan, default_scenarios, buildScenarios_eq, Worst.worst_le_iff]
  refine ⟨by norm_num, ?_⟩
  simp only [List.forall_mem_cons, List.not_mem_nil, false_implies, implies_true, and_true]
  simp only [lossOf, valueOf_expired, soldPut, Option.getD_some, reduceCtorEq, if_false]
  norm_num

/-- Together the two lose on both, where the forward falls by the whole scan range. -/
theorem le_worstLoss_both : 7 ≤ worstLoss {} ([soldPut] ++ [boughtCall]) 100 0 0 := by
  unfold worstLoss
  rw [default_scan, default_scenarios]
  have hmem : (⟨some (-1), some 1, some 1⟩ : Scenario Exact) ∈ buildScenarios (some 2 : Exact) (some (33 / 100)) := by
    rw [buildScenarios_eq]
    simp
  refine le_trans ?_ (Worst.le_worst _ hmem)
  rw [lossOf_append]
  simp only [lossOf, valueOf_expired, soldPut, boughtCall, Option.getD_some, reduceCtorEq, if_false, if_true]
  norm_num

theorem charge_soldPut : charge {} [soldPut] 100 0 0 ≤ 13 / 2 := by
  have hcharge : ∀ pct : ℝ, shortCharge [soldPut] 100 pct = 100 * pct := by
    intro pct
    unfold shortCharge
    rw [netShort_eq]
    simp [soldPut]
  have hmin : ({} : SpanParameters Exact).shortOptionMinimumPct.getD 0 = 3 / 200 := by
    show ((15 : ℤ) : ℝ) / (1000 : ℕ) = 3 / 200
    norm_num
  have hexp : ({} : SpanParameters Exact).exposurePct.getD 0 = 3 / 100 := by
    show ((3 : ℤ) : ℝ) / (100 : ℕ) = 3 / 100
    norm_num
  unfold charge
  rw [hcharge, hcharge, hmin, hexp]
  have hspan := max_le worstLoss_soldPut (show (100 : ℝ) * (3 / 200) ≤ 7 / 2 by norm_num)
  linarith

theorem le_charge_both : 7 ≤ charge {} ([soldPut] ++ [boughtCall]) 100 0 0 := by
  have hflat : ∀ pct : ℝ, shortCharge ([soldPut] ++ [boughtCall]) 100 pct = 0 := by
    intro pct
    unfold shortCharge
    rw [netShort_eq]
    simp [soldPut, boughtCall]
  unfold charge
  rw [hflat, hflat, add_zero]
  exact le_trans le_worstLoss_both (le_max_left _ _)

open Classical in
/-- Adding a long leg raises the requirement. -/
theorem bought_call_raises_requirement :
    (∀ l ∈ [boughtCall], 0 < l.qty) ∧ ∃ a b ab : ℝ,
      required {} ([soldPut].map MarginLeg.exact) (some 100) (some 0) (some 0) = some a ∧
      required {} ([boughtCall].map MarginLeg.exact) (some 100) (some 0) (some 0) = some b ∧
      required {} (([soldPut] ++ [boughtCall]).map MarginLeg.exact) (some 100) (some 0) (some 0) = some ab ∧
      b = 0 ∧ a + b < ab := by
  have hforward : (0 : ℝ) < 100 := by norm_num
  refine ⟨by simp [boughtCall], _, _, _, required_eq default_nonNegative _ hforward 0 0,
    required_eq default_nonNegative _ hforward 0 0, required_eq default_nonNegative _ hforward 0 0, ?_, ?_⟩
  · rw [if_neg]
    simp [boughtCall]
  · rw [if_pos ⟨soldPut, by simp, by simp [soldPut]⟩, if_neg (by simp [boughtCall]),
      if_pos ⟨soldPut, by simp, by simp [soldPut]⟩]
    linarith [charge_soldPut, le_charge_both]

/-- It raises it by no more than the call can lose. -/
theorem grouping_costs_at_most_call :
    ∃ a ab : ℝ, required {} ([soldPut].map MarginLeg.exact) (some 100) (some 0) (some 0) = some a ∧
      required {} (([soldPut] ++ [boughtCall]).map MarginLeg.exact) (some 100) (some 0) (some 0) = some ab ∧
      ab ≤ a + worstLoss {} [boughtCall] 100 0 0 := by
  obtain ⟨_, a, b, ab, ha, _, hab, _, _, hcall, _⟩ :=
    grouping_costs_at_most default_nonNegative [soldPut] [boughtCall] (show (0 : ℝ) < 100 by norm_num) 0 0
  exact ⟨a, ab, ha, hab, (hcall ⟨soldPut, by simp, by simp [soldPut]⟩ (by simp [boughtCall])).2⟩

end Grouping

end Volforge
