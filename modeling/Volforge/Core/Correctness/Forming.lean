import Volforge.Core.Correctness.Causal

/-!
# `Core.Correctness.Forming` — the bar under construction

`forming` aggregates the rows of one bucket a second time, with a loop of its own. `Built` relates what that
loop makes of the rows seen so far to what `build` has made of them: the bar under construction is the same one,
and the bars before it have closed by the time it opens. So `forming` is the last bar of the series of the rows
printed by now, as long as it has not closed.
-/

namespace Volforge

/-- The rows of an instrument at or before `T`. -/
def QuoteColumns.printedBy (c : QuoteColumns) (T : Timestamp) : QuoteColumns := c.first (c.upperBound T)

namespace BarSeries

variable {anchor : Timestamp} {interval : Int} {source : BarPrice}

/-- The bars before the one under construction have closed when it opens, and the loop of `forming` finds that
    one among the rows seen. -/
structure Built (source : BarPrice) (seen : List Quote) (st : BuildState) : Prop where
  closed : ∀ b bar, st.current = some (b, bar) → ∀ d ∈ st.done, d.closeTime ≤ bar.openTime
  folded : ∀ b bar, st.current = some (b, bar) → seen.foldl (absorbRow source bar) none = some bar

theorem absorbRow_unusable {stored : Bar} {bar : Option Bar} {q : Quote} (h : ¬ Usable source q) :
    absorbRow source stored bar q = bar := by
  have hprice : priceOf source q ≤ 0 := not_lt.mp h
  simp [absorbRow, hprice]

/-- A usable row that does not lie before the stored bar goes into the one being aggregated. -/
theorem absorbRow_usable {stored : Bar} {q : Quote} (h : Usable source q) (hopen : stored.openTime ≤ q.ts) :
    absorbRow source stored none q = some (.start stored.openTime stored.closeTime (priceOf source q) q.lastQty) ∧
      ∀ bar, absorbRow source stored (some bar) q = some (bar.absorb (priceOf source q) q.lastQty) := by
  have hprice : ¬ priceOf source q ≤ 0 := not_le.mpr h
  constructor
  · simp [absorbRow, not_lt.mpr hopen, hprice]
  · intro bar
    simp [absorbRow, not_lt.mpr hopen, hprice]

theorem Built.addRow (hint : 0 < interval) {seen : List Quote} {st : BuildState} {q : Quote}
    (h : Built source seen st) (hseen : Seen anchor interval source seen st)
    (hlast : ∀ r ∈ seen, r.ts ≤ q.ts) :
    Built source (seen ++ [q]) (BarSeries.addRow anchor interval source st q) := by
  by_cases hu : Usable source q
  · have hstart : anchor + bucketOf anchor interval q.ts * interval ≤ q.ts := bucket_start_le hint q.ts
    obtain ⟨bar, heq, hbar, hne⟩ | ⟨bar, bar', hcur, hbar', heq⟩ :=
      @addRow_cases anchor interval source st q hu
    · -- a bar of a later bucket opens
      rw [heq]
      have hearlier : ∀ b bar', st.current = some (b, bar') → bar'.closeTime ≤ bar.openTime := by
        intro b bar' hc
        obtain ⟨hopen, hclose, _, r, hr, hb⟩ := hseen.current b bar' hc
        have hlt : b < bucketOf anchor interval q.ts :=
          lt_of_le_of_ne (hb ▸ bucketOf_mono hint (hlast r hr)) (Ne.symm (hne b bar' hc))
        rw [hclose, hopen, hbar]
        show anchor + b * interval + interval ≤ anchor + bucketOf anchor interval q.ts * interval
        nlinarith
      refine ⟨fun b bar₀ hc d hd => ?_, fun b bar₀ hc => ?_⟩
      · -- the bar that was current is finished now, with those before it
        cases hc
        unfold BuildState.bars at hd
        cases hst : st.current with
        | none =>
            rw [hst] at hd
            simp [(hseen.empty hst).1] at hd
        | some cur =>
            obtain ⟨b', bar'⟩ := cur
            rw [hst] at hd
            obtain hd | hd := List.mem_append.mp hd
            · have hwide : bar'.openTime ≤ bar'.closeTime := by
                obtain ⟨_, hclose, _⟩ := hseen.current b' bar' hst
                rw [hclose]
                lia
              exact le_trans (h.closed b' bar' hst d hd) (le_trans hwide (hearlier b' bar' hst))
            · rw [List.mem_singleton.mp hd]
              exact hearlier b' bar' hst
      · -- no earlier row is inside the new bar, so its first row is `q`
        cases hc
        have hnone : seen.foldl (absorbRow source bar) none = none := by
          refine foldl_absorbRow_none (fun r hr hru => ?_)
          cases hst : st.current with
          | none => exact absurd hru ((hseen.empty hst).2 r hr)
          | some cur =>
              obtain ⟨b', bar'⟩ := cur
              obtain ⟨hopen, hclose, hmax, _⟩ := hseen.current b' bar' hst
              have hend : r.ts < anchor + bucketOf anchor interval r.ts * interval + interval :=
                lt_bucket_end hint r.ts
              have hle := hmax r hr hru
              have hbound := hearlier b' bar' hst
              rw [hclose, hopen] at hbound
              nlinarith
        rw [List.foldl_append, hnone, List.foldl_cons, List.foldl_nil, hbar]
        exact (absorbRow_usable hu hstart).1
    · -- `q` is absorbed by the current bar
      rw [heq]
      obtain ⟨hopen, _⟩ := hseen.current _ bar hcur
      have hopen' : bar'.openTime = bar.openTime := by rw [hbar']; rfl
      have hclose' : bar'.closeTime = bar.closeTime := by rw [hbar']; rfl
      refine ⟨fun b bar₀ hc d hd => ?_, fun b bar₀ hc => ?_⟩
      · cases hc
        rw [hopen']
        exact h.closed _ bar hcur d hd
      · cases hc
        rw [absorbRow_congr hopen' hclose', List.foldl_append, h.folded _ bar hcur, List.foldl_cons,
          List.foldl_nil, hbar']
        exact (absorbRow_usable hu (hopen ▸ hstart)).2 bar
  · -- a row without a usable price changes nothing
    rw [addRow_unusable hu]
    refine ⟨h.closed, fun b bar hc => ?_⟩
    rw [List.foldl_append, h.folded b bar hc, List.foldl_cons, List.foldl_nil]
    exact absorbRow_unusable hu

theorem Built.foldl (hint : 0 < interval) (rows : List Quote) {seen : List Quote} {st : BuildState}
    (h : Built source seen st) (hseen : Seen anchor interval source seen st)
    (hasc : (seen ++ rows).Pairwise (fun a b => a.ts ≤ b.ts)) :
    Built source (seen ++ rows) (rows.foldl (BarSeries.addRow anchor interval source) st) := by
  induction rows generalizing seen st with
  | nil =>
      rw [List.append_nil]
      exact h
  | cons q rows ih =>
      have hlast : ∀ r ∈ seen, r.ts ≤ q.ts := fun r hr =>
        (List.pairwise_append.mp hasc).2.2 r hr q (List.mem_cons_self ..)
      have hsplit : seen ++ q :: rows = (seen ++ [q]) ++ rows := by simp
      rw [hsplit] at hasc ⊢
      exact ih (h.addRow hint hseen hlast) (hseen.addRow hint hlast) hasc

/-- The last bar of a series, while it has not closed. -/
def unclosed (s : BarSeries) (now : Timestamp) : Option Bar :=
  s.bars.getLast?.filter (fun b => now < b.closeTime)

/-- In a series of rows printed by now, `forming` is the last bar unless it has closed. -/
theorem forming_eq_unclosed {cols : QuoteColumns} {validUntil now : Timestamp} {s : BarSeries}
    (hasc : cols.Ascending) (hnow : ∀ i < cols.size, cols.time i ≤ now)
    (h : build cols interval anchor source validUntil = .ok s) :
    s.forming now = (fun _ => s.unclosed now) <$> s.knownCount now := by
  unfold build at h
  obtain ⟨hint, h⟩ := Run.guard_eq_ok.mp h
  have hint : 0 < interval := not_le.mp hint
  cases h
  have hrows := QuoteColumns.rows_ascending hasc
  have hempty : Seen anchor interval source [] {} := ⟨fun _ => ⟨rfl, by simp⟩, nofun⟩
  have hseen := hempty.foldl hint cols.rows hrows
  have hnone : Built source [] {} := ⟨nofun, nofun⟩
  have hbuilt := hnone.foldl hint cols.rows hempty hrows
  rw [List.nil_append] at hseen hbuilt
  generalize hst : cols.rows.foldl (BarSeries.addRow anchor interval source) {} = st at hseen hbuilt ⊢
  unfold forming unclosed knownCount
  dsimp only
  by_cases hvalid : validUntil ≠ 0 ∧ validUntil < now
  · rw [if_pos hvalid]
    rfl
  rw [if_neg hvalid, Run.ok_bind]
  show _ = Except.ok _
  unfold BuildState.bars
  cases hc : st.current with
  | none =>
      simp [(hseen.empty hc).1]
  | some cur =>
      obtain ⟨b, bar⟩ := cur
      obtain ⟨hopen, _, _, r, hr, hb⟩ := hseen.current b bar hc
      obtain ⟨i, hi, rfl⟩ := List.mem_map.mp hr
      have hi : i < cols.size := List.mem_range.mp hi
      have hstarted : bar.openTime ≤ now := by
        rw [hopen, ← hb]
        exact le_trans (bucket_start_le hint _) (hnow i hi)
      have hdone : ∀ d ∈ st.done, decide (d.closeTime ≤ now) = true := fun d hd =>
        decide_eq_true (le_trans (hbuilt.closed b bar hc d hd) hstarted)
      -- every row is printed, so `forming` folds the rows of the whole column
      have hupper : cols.upperBound now = cols.size := by
        refine Nat.le_antisymm (cols.upperBound_le_size now) (not_lt.mp fun hlt => ?_)
        exact lt_irrefl _ ((QuoteColumns.lt_upperBound_iff hasc hlt).mpr (hnow _ hlt))
      dsimp only
      rw [List.takeWhile_append_of_pos hdone]
      by_cases hclosed : bar.closeTime ≤ now
      · have hover : ¬ now < bar.closeTime := not_lt.mpr hclosed
        simp [hclosed, hover, Option.filter]
      · have hunclosed : now < bar.closeTime := not_le.mp hclosed
        have hidx : cols.indexAtOrBefore now = some (cols.size - 1) := by
          rw [QuoteColumns.indexAtOrBefore_eq_some, hupper]
          omega
        have hall : cols.rows.take (cols.size - 1 + 1) = cols.rows := by
          have hlen : cols.rows.length = cols.size := by simp [QuoteColumns.rows]
          rw [Nat.sub_add_cancel (Nat.lt_of_le_of_lt (Nat.zero_le _) hi), ← hlen, List.take_length]
        have hwait : ¬ now < bar.openTime := not_lt.mpr hstarted
        simp [hclosed, hunclosed, hwait, hidx, hall, hbuilt.folded b bar hc, Option.filter]

end BarSeries

/-- **Bars and indicators are causal.** The series of the whole session and the one of the rows printed by `T`
    answer alike about every instant up to `T`, and `forming` is the last bar of the series of the rows printed by
    now, unless it has closed. -/
theorem bars_causal {cols : QuoteColumns} (hasc : cols.Ascending) {interval : Int} (hint : 0 < interval)
    (anchor : Timestamp) (source : BarPrice) (validUntil : Timestamp) {now T : Timestamp} (hnow : now ≤ T) :
    ∃ whole clipped current,
      BarSeries.build cols interval anchor source validUntil = .ok whole ∧
      BarSeries.build (cols.printedBy T) interval anchor source validUntil = .ok clipped ∧
      BarSeries.build (cols.printedBy now) interval anchor source validUntil = .ok current ∧
      whole.knownCount now = clipped.knownCount now ∧
      (∀ back, whole.completed now back = clipped.completed now back) ∧
      whole.forming now = clipped.forming now ∧
      (∀ {F : Type} [Double F] (kind : IndicatorKind F),
        Run.Alike (fun f g => ∀ back, f.valueAt now back = g.valueAt now back)
          (kind.build whole) (kind.build clipped)) ∧
      whole.forming now = (fun _ => current.unclosed now) <$> whole.knownCount now := by
  have hok : ∀ c, ∃ s, BarSeries.build c interval anchor source validUntil = .ok s := by
    intro c
    unfold BarSeries.build
    rw [if_neg (not_le.mpr hint)]
    exact ⟨_, rfl⟩
  obtain ⟨whole, hwhole⟩ := hok cols
  obtain ⟨clipped, hclipped⟩ := hok (cols.printedBy T)
  obtain ⟨current, hcurrent⟩ := hok (cols.printedBy now)
  have halike : ∀ t s, BarSeries.build (cols.printedBy t) interval anchor source validUntil = .ok s →
      BarSeries.Clipped t s whole := by
    intro t s hs
    have hbuild := BarSeries.clipped_build hasc t interval anchor source validUntil
    unfold QuoteColumns.printedBy at hs
    rw [hwhole, hs] at hbuild
    cases hbuild with
    | ok h => exact h
  have hT := halike T clipped hclipped
  have hcur := halike now current hcurrent
  refine ⟨whole, clipped, current, hwhole, hclipped, hcurrent, (hT.knownCount hnow).symm,
    fun back => (hT.completed hnow back).symm, (hT.forming hnow).symm, ?_, ?_⟩
  · intro F _ kind
    unfold IndicatorKind.build
    by_cases hp : kind.period ≤ 0
    · rw [if_pos hp, if_pos hp]
      exact .error _
    · rw [if_neg hp, if_neg hp]
      exact .ok (fun back => (hT.valueAt hnow kind back).symm)
  · have hprinted : ∀ i < (cols.printedBy now).size, (cols.printedBy now).time i ≤ now := by
      intro i hi
      apply QuoteColumns.time_le_of_lt_upperBound
      have hlen : (cols.printedBy now).upperBound now = (cols.printedBy now).size := by
        unfold QuoteColumns.printedBy
        rw [cols.upperBound_first (le_refl now), cols.first_size, Nat.min_eq_left (cols.upperBound_le_size now)]
      rw [hlen]
      exact hi
    rw [← hcur.forming (le_refl now), ← hcur.knownCount (le_refl now)]
    exact BarSeries.forming_eq_unclosed (hasc.first _) hprinted hcurrent

/-- Two prints of one bucket. -/
def twoPrints : QuoteColumns where
  ts := [1, 2]
  last := [100, 200]

/-- At time 1 the bar that will close at 200 is known to stand at 100. -/
theorem bars_causal_two_prints :
    ∃ whole clipped current,
      BarSeries.build twoPrints 10 0 .Last 0 = .ok whole ∧
      BarSeries.build (twoPrints.printedBy 1) 10 0 .Last 0 = .ok clipped ∧
      BarSeries.build (twoPrints.printedBy 1) 10 0 .Last 0 = .ok current ∧
      whole.forming 1 = clipped.forming 1 ∧
      whole.forming 1 = .ok (some (.start 0 10 100 0)) := by
  have hasc : twoPrints.Ascending := by
    unfold QuoteColumns.Ascending
    decide
  obtain ⟨whole, clipped, current, hwhole, hclipped, hcurrent, _, _, hforming, _, _⟩ :=
    bars_causal hasc (by decide : (0 : Int) < 10) 0 .Last 0 (le_refl 1)
  refine ⟨whole, clipped, current, hwhole, hclipped, hcurrent, hforming, ?_⟩
  cases hwhole
  decide

end Volforge
