import Volforge.Core.Correctness.Bars

/-!
# `Core.Correctness.Resampling` — bars partition the observations

The loop of `build` sees the rows in the order of time, so their buckets never go back and a bar that is left is done:
after each prefix of the rows every bar sums up the rows of its bucket in that prefix.

## Contents
- **Buckets.** The observations of a bucket, and what a bar says of them.
- **The loop.** `Resampled`, from one prefix to the next.
- **Main result.** `bars_partition_observations`.
-/

namespace Volforge

namespace BarSeries

/-! ## Buckets -/

instance (source : BarPrice) (q : Quote) : Decidable (Usable source q) := inferInstanceAs (Decidable (_ < _))

/-- The observations with a price in one bucket. -/
def bucketRows (anchor : Timestamp) (interval : Int) (source : BarPrice) (b : Int) (rows : List Quote) : List Quote :=
  rows.filter (fun q => Usable source q ∧ (q.ts - anchor) / interval = b)

/-- The bar of some prices, the first of them first. -/
structure Sums (bar : Bar) (prices : List Price) : Prop where
  open_ : prices.head? = some bar.open_
  close : prices.getLast? = some bar.close
  high : bar.high ∈ prices ∧ ∀ px ∈ prices, px ≤ bar.high
  low : bar.low ∈ prices ∧ ∀ px ∈ prices, bar.low ≤ px
  observations : bar.observations = prices.length

theorem sums_start (openTime closeTime : Timestamp) (px : Price) (qty : Qty) :
    Sums (.start openTime closeTime px qty) [px] where
  open_ := rfl
  close := rfl
  high := ⟨List.mem_singleton_self px, fun _ h => le_of_eq (List.mem_singleton.mp h)⟩
  low := ⟨List.mem_singleton_self px, fun _ h => le_of_eq (List.mem_singleton.mp h).symm⟩
  observations := rfl

theorem Sums.absorb {bar : Bar} {prices : List Price} (h : Sums bar prices) (px : Price) (qty : Qty) :
    Sums (bar.absorb px qty) (prices ++ [px]) where
  open_ := by
    rw [List.head?_append, h.open_]
    rfl
  close := List.getLast?_concat
  high := by
    constructor
    · show max bar.high px ∈ _
      rcases max_choice bar.high px with heq | heq
      · rw [heq]
        exact List.mem_append_left _ h.high.1
      · rw [heq]
        exact List.mem_append_right _ (List.mem_singleton_self px)
    · intro p hp
      rcases List.mem_append.mp hp with hp | hp
      · exact le_trans (h.high.2 p hp) (le_max_left _ _)
      · rw [List.mem_singleton.mp hp]
        exact le_max_right _ _
  low := by
    constructor
    · show min bar.low px ∈ _
      rcases min_choice bar.low px with heq | heq
      · rw [heq]
        exact List.mem_append_left _ h.low.1
      · rw [heq]
        exact List.mem_append_right _ (List.mem_singleton_self px)
    · intro p hp
      rcases List.mem_append.mp hp with hp | hp
      · exact le_trans (min_le_left _ _) (h.low.2 p hp)
      · rw [List.mem_singleton.mp hp]
        exact min_le_right _ _
  observations := by
    rw [List.length_append, List.length_singleton, ← h.observations]
    rfl

/-- The bar of one bucket of the rows. -/
structure OfBucket (anchor : Timestamp) (interval : Int) (source : BarPrice) (rows : List Quote) (b : Int) (bar : Bar) :
    Prop where
  openTime : bar.openTime = anchor + b * interval
  closeTime : bar.closeTime = bar.openTime + interval
  sums : Sums bar ((bucketRows anchor interval source b rows).map (priceOf source))

variable {anchor : Timestamp} {interval : Int} {source : BarPrice}

theorem bucketRows_skip {rows : List Quote} {q : Quote} {b : Int}
    (h : ¬ (Usable source q ∧ (q.ts - anchor) / interval = b)) :
    bucketRows anchor interval source b (rows ++ [q]) = bucketRows anchor interval source b rows := by
  unfold bucketRows
  rw [List.filter_append, List.filter_cons_of_neg (by simpa using h), List.filter_nil, List.append_nil]

theorem bucketRows_take {rows : List Quote} {q : Quote} {b : Int}
    (h : Usable source q ∧ (q.ts - anchor) / interval = b) :
    bucketRows anchor interval source b (rows ++ [q]) = bucketRows anchor interval source b rows ++ [q] := by
  unfold bucketRows
  rw [List.filter_append, List.filter_cons_of_pos (by simpa using h), List.filter_nil]

/-! ## The loop -/

/-- What `build` has made of the rows: a bar for each bucket that has one of them, the last one still open. -/
structure Resampled (anchor : Timestamp) (interval : Int) (source : BarPrice) (rows : List Quote) (st : BuildState)
    (buckets : List Int) : Prop where
  bars : List.Forall₂ (OfBucket anchor interval source rows) buckets st.bars
  ascending : buckets.Pairwise (· < ·)
  mem_iff : ∀ b, b ∈ buckets ↔ ∃ q ∈ rows, Usable source q ∧ (q.ts - anchor) / interval = b
  none_open : st.current = none → buckets = []
  last_open : ∀ b bar, st.current = some (b, bar) → ∃ front, buckets = front ++ [b]

/-- The bars of other buckets do not see a row. -/
theorem keep_bars {rows : List Quote} {q : Quote} {buckets : List Int} {bars : List Bar}
    (h : List.Forall₂ (OfBucket anchor interval source rows) buckets bars)
    (hne : ∀ b ∈ buckets, ¬ (Usable source q ∧ (q.ts - anchor) / interval = b)) :
    List.Forall₂ (OfBucket anchor interval source (rows ++ [q])) buckets bars := by
  refine ((List.forall₂_and_left buckets bars).mpr ⟨hne, h⟩).imp ?_
  rintro b bar ⟨hother, hbar⟩
  refine ⟨hbar.openTime, hbar.closeTime, ?_⟩
  rw [bucketRows_skip hother]
  exact hbar.sums

/-- A row without a price goes nowhere. -/
theorem Resampled.skip {rows : List Quote} {st : BuildState} {buckets : List Int} {q : Quote}
    (h : Resampled anchor interval source rows st buckets) (hq : ¬ Usable source q) :
    Resampled anchor interval source (rows ++ [q]) st buckets where
  bars := keep_bars h.bars (fun _ _ hin => hq hin.1)
  ascending := h.ascending
  mem_iff b := by
    rw [h.mem_iff]
    simp [hq]
  none_open := h.none_open
  last_open := h.last_open

/-- The buckets after a row with a price, whichever bar it goes into. -/
theorem Resampled.mem_concat {rows : List Quote} {st : BuildState} {buckets : List Int} {q : Quote}
    (h : Resampled anchor interval source rows st buckets) (hq : Usable source q) (b : Int) :
    (∃ r ∈ rows ++ [q], Usable source r ∧ (r.ts - anchor) / interval = b) ↔
      b ∈ buckets ∨ b = (q.ts - anchor) / interval := by
  rw [h.mem_iff]
  simp only [List.mem_append, List.mem_singleton, or_and_right, exists_or, exists_eq_left, hq, true_and]
  rw [@eq_comm _ b]

/-- A row of a later bucket opens a bar. -/
theorem Resampled.open_ {rows : List Quote} {st : BuildState} {buckets : List Int} {q : Quote}
    (h : Resampled anchor interval source rows st buckets) (hq : Usable source q)
    (hlater : ∀ b ∈ buckets, b < (q.ts - anchor) / interval) :
    Resampled anchor interval source (rows ++ [q])
      { done := st.bars
        current := some ((q.ts - anchor) / interval,
          openBar anchor interval ((q.ts - anchor) / interval) (priceOf source q) q.lastQty) }
      (buckets ++ [(q.ts - anchor) / interval]) where
  bars := by
    have hnone : bucketRows anchor interval source ((q.ts - anchor) / interval) rows = [] := by
      refine List.filter_eq_nil_iff.mpr (fun r hr hin => ?_)
      have hmem := (h.mem_iff _).mpr ⟨r, hr, by simpa using hin⟩
      exact lt_irrefl _ (hlater _ hmem)
    refine List.rel_append ?_ (.cons ⟨rfl, rfl, ?_⟩ .nil)
    · exact keep_bars h.bars (fun b hb hin => ne_of_gt (hlater b hb) hin.2)
    · rw [bucketRows_take ⟨hq, rfl⟩, hnone]
      exact sums_start _ _ _ _
  ascending := by
    refine List.pairwise_append.mpr ⟨h.ascending, List.pairwise_singleton _ _, ?_⟩
    intro b hb b' hb'
    rw [List.mem_singleton.mp hb']
    exact hlater b hb
  mem_iff b := by
    rw [h.mem_concat hq]
    simp
  none_open := nofun
  last_open := by
    rintro b bar ⟨⟩
    exact ⟨buckets, rfl⟩

/-- A row of the last bucket goes into its bar. -/
theorem Resampled.absorb {rows : List Quote} {st : BuildState} {buckets : List Int} {q : Quote} {bar : Bar}
    (h : Resampled anchor interval source rows st buckets) (hq : Usable source q)
    (hcurrent : st.current = some ((q.ts - anchor) / interval, bar)) :
    Resampled anchor interval source (rows ++ [q])
      { st with current := some ((q.ts - anchor) / interval, bar.absorb (priceOf source q) q.lastQty) } buckets := by
  obtain ⟨front, hfront⟩ := h.last_open _ _ hcurrent
  have hbars : st.bars = st.done ++ [bar] := by
    unfold BuildState.bars
    rw [hcurrent]
  refine ⟨?_, h.ascending, fun b => ?_, nofun, ?_⟩
  · have hall := h.bars
    have hasc := h.ascending
    rw [hfront, hbars] at hall
    rw [hfront, List.pairwise_append] at hasc
    have hlength : st.done.length = front.length := by simpa using hall.length_eq.symm
    have hdone := List.forall₂_take_append _ _ _ hall
    have hopen := List.forall₂_drop_append _ _ _ hall
    rw [List.take_left' hlength.symm] at hdone
    rw [List.drop_left' hlength.symm] at hopen
    obtain ⟨hlast, _⟩ := List.forall₂_cons.mp hopen
    have hnew : OfBucket anchor interval source (rows ++ [q]) ((q.ts - anchor) / interval)
        (bar.absorb (priceOf source q) q.lastQty) := by
      refine ⟨hlast.openTime, hlast.closeTime, ?_⟩
      rw [bucketRows_take ⟨hq, rfl⟩, List.map_append]
      exact hlast.sums.absorb _ _
    rw [hfront]
    refine List.rel_append (keep_bars hdone (fun b hb hin => ?_)) (.cons hnew .nil)
    exact absurd hin.2 (ne_of_gt (hasc.2.2 b hb _ (List.mem_singleton_self _)))
  · rw [h.mem_concat hq, or_iff_left_of_imp]
    rintro rfl
    rw [hfront]
    simp
  · rintro b bar' ⟨⟩
    exact ⟨front, hfront⟩

/-- **The step lemma** of the loop. -/
theorem Resampled.addRow (hint : 0 < interval) {rows : List Quote} {st : BuildState} {buckets : List Int} {q : Quote}
    (h : Resampled anchor interval source rows st buckets) (hlast : ∀ r ∈ rows, r.ts ≤ q.ts) :
    ∃ buckets', Resampled anchor interval source (rows ++ [q]) (BarSeries.addRow anchor interval source st q) buckets' := by
  by_cases hq : Usable source q
  · have hle : ∀ b ∈ buckets, b ≤ (q.ts - anchor) / interval := by
      intro b hb
      obtain ⟨r, hr, _, rfl⟩ := (h.mem_iff b).mp hb
      rw [← bucketOf_eq hint, ← bucketOf_eq hint]
      exact bucketOf_mono hint (hlast r hr)
    obtain ⟨bar, heq, rfl, hne⟩ | ⟨bar, _, hcurrent, rfl, heq⟩ := @addRow_cases anchor interval source st q hq
    · rw [heq, bucketOf_eq hint]
      rw [bucketOf_eq hint] at hne
      refine ⟨_, h.open_ hq (fun b hb => lt_of_le_of_ne (hle b hb) ?_)⟩
      rintro rfl
      -- the bucket of the open bar is the last one, so no earlier one is met again
      cases hcurrent : st.current with
      | none =>
          rw [h.none_open hcurrent] at hb
          cases hb
      | some cur =>
          obtain ⟨c, bar⟩ := cur
          obtain ⟨front, hfront⟩ := h.last_open c bar hcurrent
          have hasc := h.ascending
          rw [hfront, List.pairwise_append] at hasc
          have hc := hle c (by rw [hfront]; simp)
          rw [hfront] at hb
          rcases List.mem_append.mp hb with hb | hb
          · exact not_lt.mpr hc (hasc.2.2 _ hb c (List.mem_singleton_self c))
          · exact hne c bar hcurrent (List.mem_singleton.mp hb)
    · rw [heq, bucketOf_eq hint]
      rw [bucketOf_eq hint] at hcurrent
      exact ⟨buckets, h.absorb hq hcurrent⟩
  · rw [addRow_unusable hq]
    exact ⟨buckets, h.skip hq⟩

theorem resampled_foldl (hint : 0 < interval) {rows : List Quote} (hasc : rows.Pairwise (fun a b => a.ts ≤ b.ts)) :
    ∃ buckets, Resampled anchor interval source rows (rows.foldl (BarSeries.addRow anchor interval source) {}) buckets := by
  induction rows using List.reverseRecOn with
  | nil => exact ⟨[], .nil, .nil, by simp, fun _ => rfl, nofun⟩
  | append_singleton rows q ih =>
      obtain ⟨hasc, _, hlast⟩ := List.pairwise_append.mp hasc
      obtain ⟨buckets, h⟩ := ih hasc
      rw [List.foldl_append]
      exact h.addRow hint (fun r hr => hlast r hr q (List.mem_singleton_self q))

/-! ## What the bars are together -/

/-- A bar covers an instant from its open on and before its close. -/
def Covers (t : Timestamp) (bar : Bar) : Prop := bar.openTime ≤ t ∧ t < bar.closeTime

instance (t : Timestamp) (bar : Bar) : Decidable (Covers t bar) := inferInstanceAs (Decidable (_ ∧ _))

theorem OfBucket.covers_iff (hint : 0 < interval) {rows : List Quote} {b : Int} {bar : Bar}
    (h : OfBucket anchor interval source rows b bar) (t : Timestamp) :
    Covers t bar ↔ b = (t - anchor) / interval := by
  have hend : anchor + b * interval + interval = anchor + (b + 1) * interval := by ring
  unfold Covers
  rw [h.closeTime, h.openTime, hend]
  constructor
  · rintro ⟨hle, hlt⟩
    have hlow : b ≤ (t - anchor) / interval := (Int.le_ediv_iff_mul_le hint).mpr (by lia)
    have hhigh : (t - anchor) / interval < b + 1 := (Int.ediv_lt_iff_lt_mul hint).mpr (by lia)
    lia
  · rintro rfl
    have hlow := (Int.le_ediv_iff_mul_le hint).mp (le_refl ((t - anchor) / interval))
    have hhigh := (Int.ediv_lt_iff_lt_mul hint).mp (lt_add_one ((t - anchor) / interval))
    constructor
    · lia
    · lia

/-- Bars open one after the other. -/
theorem bars_ascending (hint : 0 < interval) {rows : List Quote} {buckets : List Int} {bars : List Bar}
    (h : List.Forall₂ (OfBucket anchor interval source rows) buckets bars) (hasc : buckets.Pairwise (· < ·)) :
    bars.Pairwise (fun a b => a.openTime < b.openTime ∧ a.closeTime < b.closeTime) := by
  rw [List.pairwise_iff_getElem] at hasc ⊢
  intro i j hi hj hij
  rw [← h.length_eq] at hi hj
  have hbi : OfBucket anchor interval source rows buckets[i] bars[i] := h.get hi _
  have hbj : OfBucket anchor interval source rows buckets[j] bars[j] := h.get hj _
  have hstart : anchor + buckets[i] * interval < anchor + buckets[j] * interval :=
    add_lt_add_right (mul_lt_mul_of_pos_right (hasc i j hi hj hij) hint) anchor
  rw [← hbi.openTime, ← hbj.openTime] at hstart
  refine ⟨hstart, ?_⟩
  rw [hbi.closeTime, hbj.closeTime]
  exact add_lt_add_left hstart interval

/-- As many bars cover an instant as its bucket is among theirs. -/
theorem countP_covers (hint : 0 < interval) {rows : List Quote} {buckets : List Int} {bars : List Bar}
    (h : List.Forall₂ (OfBucket anchor interval source rows) buckets bars) (t : Timestamp) :
    bars.countP (Covers t) = buckets.count ((t - anchor) / interval) := by
  induction h with
  | nil => rfl
  | cons hbar _ ih =>
      rw [List.countP_cons, List.count_cons, ih]
      simp only [decide_eq_true_eq, beq_iff_eq, hbar.covers_iff hint]

/-- The bars hold the observations of their buckets. -/
theorem sum_observations {rows : List Quote} {buckets : List Int} {bars : List Bar}
    (h : List.Forall₂ (OfBucket anchor interval source rows) buckets bars) :
    (bars.map Bar.observations).sum
      = (buckets.map (((rows.filter (Usable source)).map (fun q => (q.ts - anchor) / interval)).count ·)).sum := by
  induction h with
  | nil => rfl
  | @cons b bar buckets bars hbar _ ih =>
      rw [List.map_cons, List.map_cons, List.sum_cons, List.sum_cons, ih, hbar.sums.observations, List.length_map]
      congr 1
      unfold bucketRows
      rw [List.count, List.countP_map, List.countP_filter, List.countP_eq_length_filter]
      congr 2
      funext q
      simp [and_comm, Bool.beq_eq_decide_eq]

/-! ## Main result -/

/-- The bars are a partition of the observations with a price by their buckets, in the order of time. -/
structure Partition (anchor : Timestamp) (interval : Int) (source : BarPrice) (rows : List Quote) (buckets : List Int)
    (bars : List Bar) : Prop where
  ascending : buckets.Pairwise (· < ·)
  mem_iff : ∀ b, b ∈ buckets ↔ ∃ q ∈ rows, Usable source q ∧ (q.ts - anchor) / interval = b
  sums : List.Forall₂ (OfBucket anchor interval source rows) buckets bars
  times : bars.Pairwise (fun a b => a.openTime < b.openTime ∧ a.closeTime < b.closeTime)
  one_covers : ∀ q ∈ rows, Usable source q → bars.countP (Covers q.ts) = 1
  observations : (bars.map Bar.observations).sum = (rows.filter (Usable source)).length

theorem Resampled.partition (hint : 0 < interval) {rows : List Quote} {st : BuildState} {buckets : List Int}
    (h : Resampled anchor interval source rows st buckets) :
    Partition anchor interval source rows buckets st.bars := by
  have hnodup : buckets.Nodup := h.ascending.imp (fun hlt => ne_of_lt hlt)
  refine ⟨h.ascending, h.mem_iff, h.bars, bars_ascending hint h.bars h.ascending, ?_, ?_⟩
  · intro q hq husable
    rw [countP_covers hint h.bars]
    exact List.count_eq_one_of_mem hnodup ((h.mem_iff _).mpr ⟨q, hq, husable, rfl⟩)
  · -- the buckets are those of the observations, each taken once
    have hlength : ((rows.filter (Usable source)).map (fun q => (q.ts - anchor) / interval)).length
        = (rows.filter (Usable source)).length := List.length_map _
    rw [sum_observations h.bars, ← hlength, ← List.sum_map_count_dedup_eq_length]
    refine List.Perm.sum_eq (List.Perm.map _ ?_)
    refine (List.perm_ext_iff_of_nodup hnodup (List.nodup_dedup _)).mpr (fun b => ?_)
    rw [h.mem_iff, List.mem_dedup, List.mem_map]
    simp [and_assoc]

/-- Resampling partitions the observations: one bar for each bucket that has an observation with a price, in the order
of time, each the sum of its bucket. -/
theorem bars_partition_observations {cols : QuoteColumns} (hasc : cols.Ascending) {interval : Int}
    (hint : 0 < interval) (anchor : Timestamp) (source : BarPrice) (validUntil : Timestamp) :
    ∃ s buckets, build cols interval anchor source validUntil = .ok s ∧
      Partition anchor interval source cols.rows buckets s.bars := by
  obtain ⟨buckets, h⟩ := @resampled_foldl anchor interval source hint _ (QuoteColumns.rows_ascending hasc)
  exact ⟨_, buckets, if_neg (not_le.mpr hint), h.partition hint⟩

/-- Five prints: one before the anchor, two at one instant, one without a price. -/
def fivePrints : QuoteColumns where
  ts := [-7, 3, 3, 9, 25]
  last := [100, 102, 101, 0, 105]
  bid := [0, 0, 0, 0, 0]
  ask := [0, 0, 0, 0, 0]
  bidQty := [0, 0, 0, 0, 0]
  askQty := [0, 0, 0, 0, 0]
  lastQty := [1, 2, 3, 0, 5]
  openInterest := [0, 0, 0, 0, 0]

theorem five_prints_partition :
    ∃ s buckets, build fivePrints 10 0 .Last 0 = .ok s ∧ Partition 0 10 .Last fivePrints.rows buckets s.bars :=
  bars_partition_observations (by unfold QuoteColumns.Ascending; decide) (by decide) 0 .Last 0

example : (fivePrints.rows.foldl (addRow 0 10 .Last) {}).bars =
    [⟨-10, 0, 100, 100, 100, 100, 1, 1⟩, ⟨0, 10, 102, 102, 101, 101, 5, 2⟩, ⟨20, 30, 105, 105, 105, 105, 5, 1⟩] := by
  decide +kernel

end BarSeries

end Volforge
